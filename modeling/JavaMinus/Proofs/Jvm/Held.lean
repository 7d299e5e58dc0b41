import JavaMinus.Jvm.Select
import JavaMinus.Proofs.Typing.Sites

/-!
# How values are held

Integers and truth values are held as integers, objects and arrays as references. Selection reads this
off the types of operands (`valueKind`, `arrayKind`); here it is a property of types.
-/

namespace JavaMinus

open Jvm

namespace Ty

/-- How values of a type are held. -/
def kind (ty : Ty) : ValueKind := if ty.isReference then .ref else .int

/-- How the result of a method is held; there is none where the type is `void`. -/
def resultKind? (ty : Ty) : Option ValueKind := if ty.isVoid then none else some ty.kind

theorem kind_of_isReference {ty : Ty} (h : ty.isReference = true) : ty.kind = .ref := by
  rw [kind, h]
  rfl

theorem kind_eq_int {ty : Ty} (h : ty.isReference = false) : ty.kind = .int := by
  rw [kind, h]
  rfl

theorem kind_of_isArray {ty : Ty} (h : ty.isArray = true) : ty.kind = .ref := by
  apply kind_of_isReference
  rw [isReference, h]
  rfl

end Ty

/-- An operator that is no equality takes integers, and every operator leaves one. -/
theorem BinaryOp.kind_operandType (op : BinaryOp) : op.operandType.kind = .int := by
  cases op <;> rfl

theorem BinaryOp.kind_resultType (op : BinaryOp) : op.resultType.kind = .int := by
  cases op <;> rfl

namespace Jvm

/-- How the elements of an array are held on the stack. -/
def ArrayKind.held : ArrayKind → ValueKind
  | .int | .boolean => .int
  | .ref => .ref

/-- What the elements of an array over a name are. -/
def elementKind (name : String) : ArrayKind :=
  if name = "int" then .int else if name = "boolean" then .boolean else .ref

theorem elementKind_of_class {ty : Ty} (h : ty.hasPrimitiveName = false) :
    elementKind ty.name = .ref := by
  simp only [Ty.hasPrimitiveName, Bool.or_eq_false_iff, beq_eq_false_iff_ne] at h
  rw [elementKind, if_neg h.1.1, if_neg h.1.2]

theorem eq_kind_of_valueKind {ty : Ty} {kind : ValueKind} (h : valueKind ty = .ok kind) :
    kind = ty.kind := by
  unfold valueKind at h
  split at h
  · cases h
  · cases h
    rfl

theorem arrayKind_of_isArray {ty : Ty} (h : ty.isArray = true) :
    arrayKind ty = .ok (elementKind ty.name) := by
  unfold arrayKind elementKind
  rw [h, if_neg (by decide)]
  by_cases hi : ty.name = "int"
  · rw [hi]
    rfl
  by_cases hb : ty.name = "boolean"
  · rw [hb]
    rfl
  · rw [if_neg hi, if_neg hb, if_neg (by simpa using hi), if_neg (by simpa using hb)]

/-- Array operations read off the name of an array's type what its elements are. -/
theorem arrayKind_eq_ok {ty : Ty} {kind : ArrayKind} :
    arrayKind ty = .ok kind ↔ ty.isArray = true ∧ kind = elementKind ty.name := by
  constructor
  · intro h
    cases ha : ty.isArray with
    | false =>
      rw [arrayKind, ha] at h
      cases h
    | true =>
      rw [arrayKind_of_isArray ha] at h
      cases h
      exact ⟨rfl, rfl⟩
  · rintro ⟨ha, rfl⟩
    exact arrayKind_of_isArray ha

/-- The elements of an array are held as scalars of their type. -/
theorem held_elementKind {name : String} (h : name ≠ "void") :
    (elementKind name).held = (Ty.scalar name).kind := by
  unfold elementKind
  by_cases hi : name = "int"
  · rw [if_pos hi, hi]
    rfl
  by_cases hb : name = "boolean"
  · rw [if_neg hi, if_pos hb, hb]
    rfl
  · rw [if_neg hi, if_neg hb]
    have hk : (Ty.scalar name).isReference = true := by
      simp [Ty.isReference, Ty.hasPrimitiveName, Ty.scalar, hi, hb, h]
    exact (Ty.kind_of_isReference hk).symm

end Jvm

end JavaMinus
