import JavaMinus.Ty

/-!
# Binary operators

One set of operators serves the source text and the three-address code. Each operator is arithmetic,
relational or logical, and of one class only.
-/

namespace JavaMinus

/-- The twelve binary operators. -/
inductive BinaryOp where
  | add
  | sub
  | mul
  | div
  | lt
  | gt
  | le
  | ge
  | eq
  | ne
  | and
  | or
deriving DecidableEq, Inhabited

namespace BinaryOp

/-- The written form. -/
def symbol : BinaryOp → String
  | .add => "+"
  | .sub => "-"
  | .mul => "*"
  | .div => "/"
  | .lt => "<"
  | .gt => ">"
  | .le => "<="
  | .ge => ">="
  | .eq => "=="
  | .ne => "!="
  | .and => "&&"
  | .or => "||"

/-- Integers to an integer. -/
def isArithmetic : BinaryOp → Bool
  | .add | .sub | .mul | .div => true
  | _ => false

/-- Integers to a boolean. -/
def isOrdering : BinaryOp → Bool
  | .lt | .gt | .le | .ge => true
  | _ => false

/-- Two values of any comparable types to a boolean. -/
def isEquality : BinaryOp → Bool
  | .eq | .ne => true
  | _ => false

/-- An ordering or an equality: what a branch can test directly. -/
def isRelational (op : BinaryOp) : Bool := op.isOrdering || op.isEquality

/-- Booleans to a boolean. Both operands are always evaluated. -/
def isLogical : BinaryOp → Bool
  | .and | .or => true
  | _ => false

/-- The type of the result. -/
def resultType (op : BinaryOp) : Ty := if op.isArithmetic then Ty.int else Ty.boolean

/-- The operand type of an operator that fixes it; an equality takes any. -/
def operandType (op : BinaryOp) : Ty := if op.isLogical then Ty.boolean else Ty.int

end BinaryOp

end JavaMinus
