import JavaMinus.Proofs.Jvm.Selects
import JavaMinus.Proofs.Jvm.Slots
import JavaMinus.Proofs.Runtime.Stack

/-!
# What selected code does

A state of the stack machine mirrors a state of three-address code when every slot holds what its
temporary or variable holds, slot zero holds the receiver, and memory is the same (`Mirrors`). From
such states, code that loads an operand pushes its value, code that stores into an operand pops one,
and the code of an instruction does what the instruction does (`Selects.does`).

Two facts carry the argument. Slots belong to one key each, so a store changes one temporary or
variable and no other. And an operand has a value only if it is one of its type, so the value is held
as the instruction selected for the type needs it.
-/

namespace JavaMinus.Jvm

open JavaMinus.Runtime Tac Machine

namespace MethodContext

/-- What the context says of the class and of the result. -/
def setting (x : MethodContext) : Setting := ⟨x.names, x.superClass, x.returnTy⟩

/-- Slots hold what temporaries, variables and the receiver hold, and memory is the same. -/
structure Mirrors (x : MethodContext) (s : Tac.State) (t : State) : Prop where
  slot : ∀ {key : SlotKey} {n : Nat}, x.slots.slots[key]? = some n → t.locals n = s.vars key
  self : x.isStatic = false → t.locals 0 = s.self.map fun a => Value.ref (some a)
  memory : t.memory = s.memory

/-- Between the pieces of a body the stack is empty too. -/
structure Rests (x : MethodContext) (s : Tac.State) (t : State) : Prop extends x.Mirrors s t where
  empty : t.stack = []

variable {x : MethodContext} {w : World} {s s' : Tac.State} {t : State} {code : List Instr}
  {n : Nat} {stack : List Value}

theorem Mirrors.setStack (h : x.Mirrors s t) (stack : List Value) : x.Mirrors s (t.setStack stack) :=
  ⟨h.slot, h.self, h.memory⟩

theorem Mirrors.setHeap (h : x.Mirrors s t) (heap : Heap) :
    x.Mirrors (s.setHeap heap) (t.setHeap heap) :=
  ⟨h.slot, h.self, by rw [Tac.State.setHeap, State.setHeap, h.memory]⟩

/-- A load pushes what its slot holds, if that is held as the load says. -/
theorem act_load {kind : ValueKind} {slot : Nat} {v : Value} (h : t.locals slot = some v)
    (hk : v.kind = kind) :
    (Instr.load kind slot).act w t = some (.next (t.setStack (v :: t.stack))) := by
  simp [Instr.act, State.push, h, hk]

/-- Code that loads an operand pushes its value. -/
theorem Loads.runs {o : Operand} {v : Value} (h : x.Loads o code) (hm : x.Mirrors s t)
    (hv : s.eval o = some v) :
    runAll (Instr.act w) code t = some (t.setStack (v :: t.stack)) := by
  induction h generalizing t v with
  | temp held slot_ | var held slot_ =>
    have hkind := Ty.kind_of_admits (Tac.State.admits_of_eval hv)
    have hslot := hm.slot ((SlotTable.slot_eq_ok rfl).mp slot_)
    rw [(Option.filter_eq_some_iff.mp hv).1] at hslot
    rw [runAll_cons (act_load hslot (hkind.trans (eq_kind_of_valueKind held).symm))]
    rfl
  | self instance_ =>
    have hlocal := hm.self instance_
    rw [(Option.filter_eq_some_iff.mp hv).1] at hlocal
    have hkind : v.kind = .ref := by
      obtain ⟨a, -, rfl⟩ := Option.map_eq_some_iff.mp (Option.filter_eq_some_iff.mp hv).1
      rfl
    rw [runAll_cons (act_load hlocal hkind)]
    rfl
  | intLit value ty | boolLit value ty =>
    cases (Option.filter_eq_some_iff.mp hv).1
    rfl
  | element elements _ _ iha ihi =>
    obtain ⟨-, rfl⟩ := arrayKind_eq_ok.mp elements
    simp only [Tac.State.eval, Option.bind_eq_bind, Option.bind_eq_some_iff] at hv
    obtain ⟨a, ha, i, hi, hv⟩ := hv
    have hget := (Option.filter_eq_some_iff.mp hv).1
    rw [← hm.memory] at hget
    rw [List.append_assoc, runAll_append (iha hm ha), runAll_append (ihi (hm.setStack _) hi),
      runAll_cons (t := t.setStack (v :: t.stack))]
    · rfl
    · simp [Instr.act, State.push, State.pop, State.setStack, hget]

/-- Code that loads operands pushes their values, the last on top. -/
theorem LoadsAll.runs {os : List Operand} {vs : List Value} (h : x.LoadsAll os code)
    (hm : x.Mirrors s t) (hv : s.evalAll os = some vs) :
    runAll (Instr.act w) code t = some (t.setStack (vs.reverse ++ t.stack)) := by
  induction h generalizing t vs with
  | nil =>
    cases hv
    rfl
  | cons first _ ih =>
    simp only [Tac.State.evalAll, Option.bind_eq_bind, Option.bind_eq_some_iff] at hv
    obtain ⟨v, hfirst, rest, hrest, hv⟩ := hv
    cases hv
    rw [runAll_append (first.runs hm hfirst), ih (hm.setStack _) hrest, List.reverse_cons,
      List.append_assoc]
    rfl

/-- A store pops the top into its slot, if that is held as the store says. -/
theorem act_store {kind : ValueKind} {slot : Nat} {v : Value} (hk : v.kind = kind) :
    (Instr.store kind slot).act w (t.setStack (v :: stack)) =
      some (.next { t with locals := Function.update t.locals slot (some v), stack }) := by
  simp [Instr.act, State.pop, State.setStack, hk]

/-- Code that stores into an operand pops the value that the operand is given. -/
theorem Stores.runs {dest : Operand} {v : Value} (h : x.Stores dest code) (hm : x.Mirrors s t)
    (hs : x.slots.Sound (SlotTable.firstSlot x.isStatic)) (hw : s.write dest v = some s')
    (stack : List Value) :
    ∃ t', runAll (Instr.act w) code (t.setStack (v :: stack)) = some t' ∧ x.Mirrors s' t' ∧
      t'.stack = stack := by
  cases h with
  | @intro kind slot storage held slot_ =>
    simp only [Tac.State.write, Option.bind_eq_bind, Option.bind_eq_some_iff] at hw
    obtain ⟨key, hkey, hw⟩ := hw
    split at hw
    · next hadmits =>
      cases hw
      have hslot := (SlotTable.slot_eq_ok hkey).mp slot_
      have hkind : v.kind = kind :=
        (Ty.kind_of_admits hadmits).trans (eq_kind_of_valueKind held).symm
      refine ⟨_, runAll_cons (act_store hkind), ⟨fun {key' n} hn => ?_, fun hstatic => ?_,
        hm.memory⟩, rfl⟩
      · show Function.update t.locals slot (some v) n = Function.update s.vars key (some v) key'
        -- No other key has this slot.
        by_cases heq : key' = key
        · subst heq
          rw [hslot] at hn
          cases hn
          rw [Function.update_self, Function.update_self]
        · have hne : n ≠ slot := by
            rintro rfl
            exact heq (hs.injective hn hslot)
          rw [Function.update_of_ne hne, Function.update_of_ne heq]
          exact hm.slot hn
      · show Function.update t.locals slot (some v) 0 = s.self.map fun a => Value.ref (some a)
        have hne : (0 : Nat) ≠ slot := by
          have hbase := hs.base_le hslot
          rw [SlotTable.firstSlot, hstatic] at hbase
          rintro rfl
          cases hbase
        rw [Function.update_of_ne hne]
        exact hm.self hstatic
    · cases hw

/-! ## Operations -/

/-- An operation on integers computes what its operator does. -/
theorem apply_of_arithmetic {op : BinaryOp} {a : Arith} {l r v : Value} (ha : arithmetic op = .ok a)
    (hv : op.apply l r = some v) :
    ∃ m k j, l = .int m ∧ r = .int k ∧ a.apply m k = some j ∧ v = .int j := by
  have ints : ∀ {f : Int32 → Int32 → Option Value}, BinaryOp.apply.ints l r f = some v →
      ∃ m k, l = .int m ∧ r = .int k ∧ f m k = some v := by
    intro f h
    simp only [BinaryOp.apply.ints, Option.bind_eq_bind, Option.bind_eq_some_iff,
      Value.int?_eq_some] at h
    obtain ⟨m, hm, k, hk, h⟩ := h
    exact ⟨m, k, hm, hk, h⟩
  have truths : ∀ {f : Bool → Bool → Option Value}, BinaryOp.apply.truths l r f = some v →
      ∃ m k, l = .ofBool m ∧ r = .ofBool k ∧ f m k = some v := by
    intro f h
    simp only [BinaryOp.apply.truths, Option.bind_eq_bind, Option.bind_eq_some_iff,
      Value.bool?_eq_some] at h
    obtain ⟨m, hm, k, hk, h⟩ := h
    exact ⟨m, k, hm, hk, h⟩
  cases op with
  | add | sub | mul =>
    cases ha
    obtain ⟨m, k, rfl, rfl, h⟩ := ints hv
    cases h
    exact ⟨m, k, _, rfl, rfl, rfl, rfl⟩
  | div =>
    cases ha
    obtain ⟨m, k, rfl, rfl, h⟩ := ints hv
    split at h
    · cases h
    · next hk =>
      cases h
      exact ⟨m, k, _, rfl, rfl, if_neg hk, rfl⟩
  | and | or =>
    cases ha
    obtain ⟨m, k, rfl, rfl, h⟩ := truths hv
    cases h
    refine ⟨_, _, _, rfl, rfl, rfl, ?_⟩
    cases m <;> cases k <;> rfl
  | _ => cases ha

/-- Values that are compared for equality are held alike. -/
theorem kind_eq_of_equality {op : BinaryOp} {l r v : Value} (h : op.isEquality = true)
    (hv : op.apply l r = some v) : l.kind = r.kind := by
  by_contra hne
  cases op with
  | eq => simp [BinaryOp.apply, hne] at hv
  | ne => simp [BinaryOp.apply, hne] at hv
  | _ => cases h

/-- A jump on a comparison is taken exactly if the comparison holds. -/
theorem act_compare {op : BinaryOp} {left right : Ty} {target : String} {jump : Instr}
    {l r v : Value} (h : ComparesBy op left right target jump) (stack : List Value) (hl : left.admits l = true)
    (hr : right.admits r = true) (hv : op.apply l r = some v) :
    ∃ b, v = .ofBool b ∧
      jump.act w (t.setStack (r :: l :: stack)) = some ((t.setStack stack).branch b target) := by
  have hlk := Ty.kind_of_admits hl
  have hrk := Ty.kind_of_admits hr
  cases h with
  | @ints test test_ left_ right_ =>
    obtain ⟨m, rfl⟩ := Value.eq_int_of_kind (hlk.trans (Ty.kind_eq_int left_))
    obtain ⟨k, rfl⟩ := Value.eq_int_of_kind (hrk.trans (Ty.kind_eq_int right_))
    refine ⟨test.ofInts m k, ?_, rfl⟩
    cases op <;> cases test_ <;> simp [BinaryOp.apply, BinaryOp.apply.ints, Value.int?, Value.kind]
      at hv <;> rw [← hv] <;> simp [Comparison.ofInts]
  | @refs test test_ reference equality =>
    have same : l.kind = r.kind := kind_eq_of_equality equality hv
    have href : l.kind = .ref := by
      rcases Bool.or_eq_true_iff.mp reference with h | h
      · exact hlk.trans (Ty.kind_of_isReference h)
      · exact same.trans (hrk.trans (Ty.kind_of_isReference h))
    obtain ⟨a, rfl⟩ := Value.eq_ref_of_kind href
    obtain ⟨c, rfl⟩ := Value.eq_ref_of_kind (same.symm.trans href)
    cases op with
    | eq =>
      cases test_
      refine ⟨decide (a = c), ?_, rfl⟩
      simp [BinaryOp.apply, Value.kind] at hv
      exact hv.symm
    | ne =>
      cases test_
      refine ⟨decide (a ≠ c), ?_, rfl⟩
      simp [BinaryOp.apply, Value.kind] at hv
      rw [← hv]
      simp
    | _ => cases equality

/-- The six lines of a comparison leave one or zero, by two ways. -/
theorem steps_compare {M : Machine Instr State} {before after : List Instr} {jump : Instr}
    {b : Bool} (hact : M.act = Instr.act w)
    (hcode : M.code = before ++ [jump, .const 0, .goto (whenDone n), .label (whenTrue n), .const 1,
      .label (whenDone n)] ++ after)
    (htrue : M.place? (whenTrue n) = some (before.length + 3))
    (hdone : M.place? (whenDone n) = some (before.length + 5)) (u : State)
    (hjump : jump.act w u = some ((t.setStack []).branch b (whenTrue n))) :
    M.Steps (before.length, u) (before.length + 6, t.setStack [.ofBool b]) := by
  have here : ∀ k i, [jump, .const 0, .goto (whenDone n), .label (whenTrue n), .const 1,
      .label (whenDone n)][k]? = some i → M.code[before.length + k]? = some i := by
    intro k i hi
    rw [hcode, List.append_assoc, List.getElem?_append_right (Nat.le_add_right _ _),
      Nat.add_sub_cancel_left, List.getElem?_append_left (List.getElem?_eq_some_iff.mp hi).1]
    exact hi
  have acts : ∀ {i : Instr} {s : State} {a : Action State}, i.act w s = some a →
      M.act i s = some a := by
    intro i s a h
    rw [hact]
    exact h
  cases b with
  | true =>
    refine .head (.jump (here 0 _ rfl) (acts hjump) htrue) ?_
    refine .head (.next (here 3 _ rfl) (acts rfl)) ?_
    refine .head (.next (here 4 _ rfl) (acts rfl)) ?_
    exact .single (.next (here 5 _ rfl) (acts rfl))
  | false =>
    refine .head (.next (here 0 _ rfl) (acts hjump)) ?_
    refine .head (.next (here 1 _ rfl) (acts rfl)) ?_
    refine .head (.jump (here 2 _ rfl) (acts rfl) hdone) ?_
    exact .single (.next (here 5 _ rfl) (acts rfl))

end MethodContext

end JavaMinus.Jvm
