import Mathlib.Data.List.Forall2
import Mathlib.Logic.Function.Basic
import JavaMinus.Tac.ClassUnit

/-!
# Code with other names for variables

A renaming reaches the variables in the operands of code and nothing else: temporaries, fields, methods
and labels keep their names. It changes no type and no shape of an operand, and an injective one
does not change which operands agree (`Operand.agrees_rename`).
-/

namespace JavaMinus.Tac

namespace Operand

/-- An operand with other names for variables. -/
def rename (f : String → String) : Operand → Operand
  | .temp id ty => .temp id ty
  | .var x ty => .var (f x) ty
  | .self ty => .self ty
  | .classRef name ty => .classRef name ty
  | .intLit v ty => .intLit v ty
  | .boolLit v ty => .boolLit v ty
  | .element a i ty => .element (a.rename f) (i.rename f) ty

variable {f : String → String}

@[simp] theorem ty_rename (o : Operand) : (o.rename f).ty = o.ty := by
  cases o <;> rfl

@[simp] theorem isElement_rename (o : Operand) : (o.rename f).isElement = o.isElement := by
  cases o <;> rfl

@[simp] theorem isStorage_rename (o : Operand) : (o.rename f).isStorage = o.isStorage := by
  cases o <;> rfl

@[simp] theorem map_ty_rename (os : List Operand) : (os.map (rename f)).map ty = os.map ty := by
  rw [List.map_map]
  exact List.map_congr_left fun o _ => o.ty_rename

/-- Different variables stay different. -/
theorem agrees_rename (hf : Function.Injective f) (o p : Operand) :
    (o.rename f).agrees (p.rename f) = o.agrees p := by
  induction o generalizing p with
  | var x s =>
    cases p with
    | var y t =>
      have same : (f x == f y) = (x == y) := by
        rw [Bool.eq_iff_iff, beq_iff_eq, beq_iff_eq, hf.eq_iff]
      rw [rename, rename, agrees, agrees, same]
    | _ => rfl
  | element a i s iha ihi =>
    cases p with
    | element b j t => rw [rename, rename, agrees, agrees, iha, ihi]
    | _ => rfl
  | _ => cases p <;> rfl

end Operand

namespace Condition

/-- A condition with other names for variables. -/
def rename (f : String → String) : Condition → Condition
  | .compare op l r => .compare op (l.rename f) (r.rename f)
  | .truthy v => .truthy (v.rename f)

end Condition

namespace Instr

/-- An instruction with other names for variables. -/
def rename (f : String → String) : Instr → Instr
  | .assign d v => .assign (d.rename f) (v.rename f)
  | .binary d op l r => .binary (d.rename f) op (l.rename f) (r.rename f)
  | .not d v => .not (d.rename f) (v.rename f)
  | .call d kind r m as t =>
    .call (d.map (Operand.rename f)) kind (r.rename f) m (as.map (Operand.rename f)) t
  | .newObject d c => .newObject (d.rename f) c
  | .newArray d n t => .newArray (d.rename f) (n.rename f) t
  | .arrayLength d a => .arrayLength (d.rename f) (a.rename f)
  | .arrayStore a i v => .arrayStore (a.rename f) (i.rename f) (v.rename f)
  | .fieldRead d o x t => .fieldRead (d.rename f) (o.rename f) x t
  | .fieldWrite o x t v => .fieldWrite (o.rename f) x t (v.rename f)
  | .ret v => .ret (v.map (Operand.rename f))
  | .branch c t => .branch (c.rename f) t
  | .jump t => .jump t
  | .label name => .label name

variable {f : String → String}

@[simp] theorem isReturn_rename (i : Instr) : (i.rename f).isReturn = i.isReturn := by
  cases i <;> rfl

@[simp] theorem label?_rename (i : Instr) : (i.rename f).label? = i.label? := by
  cases i <;> rfl

/-- The operands of an instruction are renamed in their order. -/
theorem operands_rename (i : Instr) : (i.rename f).operands = i.operands.map (Operand.rename f) := by
  cases i with
  | call d _ _ _ _ _ => cases d <;> rfl
  | ret v => cases v <;> rfl
  | branch c _ => cases c <;> rfl
  | _ => rfl

end Instr

/-- A method with other names for its variables. -/
def Method.rename (f : String → String) (m : Method) : Method :=
  { m with params := m.params.map (Operand.rename f), code := m.code.map (Instr.rename f) }

/-- Renaming changes no label, so the label map stays what it is. -/
theorem Method.rename_push (f : String → String) (m : Method) (i : Instr) :
    (m.push i).rename f = (m.rename f).push (i.rename f) := by
  have labels : m.labels.place m.code.length i =
      m.labels.place (m.code.map (Instr.rename f)).length (i.rename f) := by
    rw [LabelMap.place, LabelMap.place, Instr.label?_rename, List.length_map]
  simp only [rename, push, List.map_append, List.map_cons, List.map_nil, labels]

theorem Method.rename_extend (f : String → String) (m : Method) (code : List Instr) :
    (m.extend code).rename f = (m.rename f).extend (code.map (Instr.rename f)) := by
  induction code generalizing m with
  | nil => rfl
  | cons i rest ih =>
    show ((m.push i).extend rest).rename f = _
    rw [ih, rename_push]
    rfl

/-- A method with other names for its variables, different ones for different variables. -/
def Method.Renamed (m m' : Method) : Prop := ∃ f, Function.Injective f ∧ m' = m.rename f

/-- The constructor has no variables. -/
theorem Method.renamed_constructor (self : Ty) : (constructor self).Renamed (constructor self) :=
  ⟨id, Function.injective_id, rfl⟩

/-- A class whose methods have other names for their variables. -/
structure ClassUnit.Renamed (u u' : ClassUnit) : Prop where
  name : u'.name = u.name
  superClass : u'.superClass = u.superClass
  imports : u'.imports = u.imports
  fields : u'.fields = u.fields
  methods : List.Forall₂ Method.Renamed u.methods u'.methods

end JavaMinus.Tac
