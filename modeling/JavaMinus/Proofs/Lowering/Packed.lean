import JavaMinus.Proofs.Lowering.Call

/-!
# Packed arguments

The arguments of a call that are passed for a varargs parameter are packed into a new array. Packing
has one outcome for every list of operands: the code of an array of just these (`Tac.arrayOf`), in the
next temporary (`Lower.packArray_eq_done`). What is passed to a declared method follows from the types
of the operands (`Lower.packVarargs_eq_done`).
-/

namespace JavaMinus

open Tac Lower

namespace Tac

/-- Values are stored into the cells of an array, one after another from the given cell on. -/
def storesFrom (array : Operand) (index : Nat) (values : List Operand) : List Instr :=
  (values.zipIdx index).map fun (value, i) => .arrayStore array (.int (Int32.ofNat i)) value

/-- The code of a new array that holds the given values in order. -/
def arrayOf (array : Operand) (element : Ty) (values : List Operand) : List Instr :=
  .newArray array (.int (Int32.ofNat values.length)) element :: storesFrom array 0 values

/-- The numbers in that code are the length and the positions: none of them is too large. -/
theorem toInt_ofNat_of_le {i : Nat} (h : i ≤ maxArrayLength) : (Int32.ofNat i).toInt = i := by
  unfold maxArrayLength at h
  rw [Int32.toInt_ofNat_of_lt (by omega)]

end Tac

namespace Lower

theorem run_storeAll (array : Operand) (values : List Operand) : ∀ (index : Nat) (c : Counters),
    (storeAll array index values).run c = .done () (storesFrom array index values) c := by
  induction values with
  | nil => exact fun _ _ => rfl
  | cons value rest ih =>
    intro index c
    rw [storeAll, run_bind, run_emit]
    dsimp only
    rw [ih (index + 1) c]
    rfl

theorem run_packArray {element : Ty} {values : List Operand} (h : values.length ≤ maxArrayLength)
    (c : Counters) : (packArray element values).run c =
      .done (.temp c.temps (Ty.array element.name))
        (arrayOf (.temp c.temps (Ty.array element.name)) element values)
        { c with temps := c.temps + 1 } := by
  unfold packArray
  rw [if_neg (by omega)]
  simp only [intoFresh, run_bind, run_fresh, run_emit, run_pure, run_storeAll, List.append_nil]
  rfl

/-- Values are packed if there are not too many of them. -/
theorem packArray_eq_done {element : Ty} {values : List Operand} {o : Operand} {code : List Instr}
    {c c' : Counters} (h : (packArray element values).run c = .done o code c') :
    values.length ≤ maxArrayLength ∧ o = .temp c.temps (Ty.array element.name) ∧
      code = arrayOf o element values ∧ c' = { c with temps := c.temps + 1 } := by
  by_cases fits : values.length ≤ maxArrayLength
  · rw [run_packArray fits] at h
    cases h
    exact ⟨fits, rfl, rfl, rfl⟩
  · unfold packArray at h
    rw [if_pos (by omega)] at h
    cases h

end Lower

/-- Arguments of the given types are packed: no array is passed for the varargs parameter, and there
are enough of them for the parameters in front of it. -/
def Signature.packs (m : Signature) (tys : List Ty) : Bool :=
  m.varargsParameter?.isSome && !m.passesVarargsArray tys && decide (m.fixedCount ≤ tys.length)

/-- What is passed for the operands of arguments, and the code that packs them. -/
theorem Lower.packVarargs_eq_done {s : Scope} {m : Signature} {method : String}
    {values passed : List Operand} {code : List Instr} {c c' : Counters}
    (h : (packVarargs s m method values).run c = .done passed code c') :
    if m.packs (values.map Operand.ty) = true then
      ∃ varargs, m.varargsParameter? = some varargs ∧
        (values.drop m.fixedCount).length ≤ maxArrayLength ∧
        code = arrayOf (.temp c.temps (Ty.array varargs.ty.name)) (Ty.scalar varargs.ty.name)
          (values.drop m.fixedCount) ∧
        passed = values.take m.fixedCount ++ [.temp c.temps (Ty.array varargs.ty.name)]
    else code = [] ∧ passed = values := by
  unfold packVarargs at h
  unfold Signature.packs
  cases hv : m.varargsParameter? with
  | none =>
    rw [hv] at h
    cases h
    exact ⟨rfl, rfl⟩
  | some varargs =>
    rw [hv] at h
    dsimp only at h
    rw [List.length_map]
    by_cases hdirect : m.passesVarargsArray (values.map Operand.ty) = true
    · rw [if_pos hdirect] at h
      cases h
      rw [hdirect]
      exact ⟨rfl, rfl⟩
    · rw [if_neg hdirect] at h
      by_cases hfew : values.length < m.fixedCount
      · rw [if_pos hfew] at h
        split at h
        · cases h
          rw [if_neg (by simp [hfew])]
          exact ⟨rfl, rfl⟩
        · cases h
      · rw [if_neg hfew] at h
        cases he : varargs.ty.element? with
        | none =>
          rw [elementOf, he] at h
          cases h
        | some element =>
          obtain ⟨-, rfl⟩ := Ty.element?_eq_some.mp he
          rw [elementOf, he, ofOption_some, Lower.pure_bind] at h
          obtain ⟨array, _, _, _, harray, hdone, rfl⟩ := run_bind_eq_done.mp h
          obtain ⟨hfits, rfl, rfl, -⟩ := packArray_eq_done harray
          cases hdone
          rw [if_pos (by simp [hdirect]; omega)]
          exact ⟨varargs, rfl, hfits, List.append_nil _, rfl⟩

end JavaMinus
