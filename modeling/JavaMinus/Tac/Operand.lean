import JavaMinus.Ty

/-!
# Operands of three-address code

What an instruction reads or writes, with its type. Temporaries are numbered through a whole class;
variables are the declared locals and parameters. An array element may stand as an operand: it is
read only when the instruction that mentions it runs.
-/

namespace JavaMinus.Tac

/-- A typed operand. -/
inductive Operand where
  | temp (id : Nat) (ty : Ty)
  | var (name : String) (ty : Ty)
  /-- The receiver of an instance method. -/
  | self (ty : Ty)
  /-- A class that a static call goes to; it is no value. -/
  | classRef (name : String) (ty : Ty)
  | intLit (value : Int32) (ty : Ty)
  | boolLit (value : Bool) (ty : Ty)
  | element (array index : Operand) (ty : Ty)
deriving DecidableEq, Inhabited

namespace Operand

/-- The type of the operand. -/
def ty : Operand → Ty
  | .temp _ t | .var _ t | .self t | .classRef _ t | .intLit _ t | .boolLit _ t
  | .element _ _ t => t

def int (value : Int32) : Operand := .intLit value Ty.int

def boolean (value : Bool) : Operand := .boolLit value Ty.boolean

/-- A class, typed as itself. -/
def ofClass (name : String) : Operand := .classRef name (Ty.scalar name)

/-- The number of the temporary that the operand is, if it is one. -/
def tempId? : Operand → Option Nat
  | .temp id _ => some id
  | _ => none

/-- The operand is an array element. -/
def isElement : Operand → Bool
  | .element .. => true
  | _ => false

/-- The operand can be stored into: a temporary or a variable. -/
def isStorage : Operand → Bool
  | .temp .. | .var .. => true
  | _ => false

/-- Operands agree when they name the same thing at agreeing types. -/
def agrees : Operand → Operand → Bool
  | .temp i s, .temp j t => i == j && s.agrees t
  | .var x s, .var y t => x == y && s.agrees t
  | .self s, .self t => s.agrees t
  | .classRef x s, .classRef y t => x == y && s.agrees t
  | .intLit v s, .intLit w t => v == w && s.agrees t
  | .boolLit v s, .boolLit w t => v == w && s.agrees t
  | .element a i s, .element b j t => a.agrees b && i.agrees j && s.agrees t
  | _, _ => false

/-- The written form: what the operand is, a colon, and its type. -/
def text : Operand → String
  | .temp id t => s!"tmp{id}:{t.text}"
  | .var name t => s!"{name}:{t.text}"
  | .self t => s!"this:{t.text}"
  | .classRef name _ => s!"class {name}"
  | .intLit v t => s!"{v.toInt}:{t.text}"
  | .boolLit v t => s!"{v}:{t.text}"
  | .element a i t => s!"{a.text}[{i.text}]:{t.text}"

@[simp] theorem agrees_self (o : Operand) : o.agrees o = true := by
  induction o with
  | element a i t iha ihi => simp [agrees, iha, ihi]
  | _ => simp [agrees]

end Operand

end JavaMinus.Tac
