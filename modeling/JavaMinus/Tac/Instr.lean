import JavaMinus.Syntax.Operator
import JavaMinus.Tac.Operand

/-!
# Instructions of three-address code

One operation each, on operands that are already computed. Control flow is by labels: a conditional
jump is taken when its condition holds and falls through otherwise. Both operands of `&&` and `||`
are evaluated.
-/

namespace JavaMinus.Tac

/-- How a call finds its method. -/
inductive CallKind where
  /-- Initialisation of a new object, or of the superclass part in a constructor. -/
  | constructor
  | static
  | virtual
deriving DecidableEq, Inhabited

/-- What a conditional jump tests. -/
inductive Condition where
  | compare (op : BinaryOp) (left right : Operand)
  | truthy (value : Operand)
deriving DecidableEq, Inhabited

/-- An instruction. -/
inductive Instr where
  | assign (dest value : Operand)
  | binary (dest : Operand) (op : BinaryOp) (left right : Operand)
  | not (dest operand : Operand)
  | call (dest : Option Operand) (kind : CallKind) (receiver : Operand) (method : String)
      (args : List Operand) (returnTy : Ty)
  /-- An allocation; the constructor call of the same object follows it. -/
  | newObject (dest : Operand) (className : String)
  | newArray (dest length : Operand) (element : Ty)
  | arrayLength (dest array : Operand)
  | arrayStore (array index value : Operand)
  | fieldRead (dest object : Operand) (field : String) (ty : Ty)
  | fieldWrite (object : Operand) (field : String) (ty : Ty) (value : Operand)
  | ret (value : Option Operand)
  | branch (condition : Condition) (target : String)
  | jump (target : String)
  | label (name : String)
deriving DecidableEq, Inhabited

/-- The operands of a condition, left to right. -/
def Condition.operands : Condition → List Operand
  | .compare _ l r => [l, r]
  | .truthy v => [v]

namespace Instr

/-- The operand that the instruction gives a new value. -/
def dest? : Instr → Option Operand
  | .assign d _ | .binary d _ _ _ | .not d _ | .newObject d _ | .newArray d _ _
  | .arrayLength d _ | .fieldRead d _ _ _ => some d
  | .call d _ _ _ _ _ => d
  | _ => none

/-- The operands that the instruction uses, in the order of their evaluation. -/
def sources : Instr → List Operand
  | .assign _ v => [v]
  | .binary _ _ l r => [l, r]
  | .not _ v => [v]
  | .call _ _ r _ as _ => r :: as
  | .newObject .. => []
  | .newArray _ n _ => [n]
  | .arrayLength _ a => [a]
  | .arrayStore a i v => [a, i, v]
  | .fieldRead _ o _ _ => [o]
  | .fieldWrite o _ _ v => [o, v]
  | .ret v => v.toList
  | .branch c _ => c.operands
  | .jump _ | .label _ => []

/-- All operands mentioned: the destination, then the sources. -/
def operands (i : Instr) : List Operand := i.dest?.toList ++ i.sources

/-- The label that the instruction may jump to. -/
def target? : Instr → Option String
  | .branch _ t | .jump t => some t
  | _ => none

/-- The label that the instruction places. -/
def label? : Instr → Option String
  | .label name => some name
  | _ => none

/-- The instruction returns from the method. -/
def isReturn : Instr → Bool
  | .ret _ => true
  | _ => false

end Instr

/-- The word for how a call finds its method. -/
def CallKind.text : CallKind → String
  | .constructor => "invokespecial"
  | .static => "invokestatic"
  | .virtual => "invokevirtual"

def Condition.text : Condition → String
  | .compare op l r => s!"{l.text} {op.symbol} {r.text}"
  | .truthy v => v.text

/-- The written form. A call writes its receiver first and its method in quotes. -/
def Instr.text : Instr → String
  | .assign d v => s!"{d.text} = {v.text}"
  | .binary d op l r => s!"{d.text} = {l.text} {op.symbol} {r.text}"
  | .not d v => s!"{d.text} = !{v.text}"
  | .call d kind r m as t =>
    let result := match d with
      | some d => d.text ++ " = "
      | none => ""
    let args := String.join (as.map fun a => ", " ++ a.text)
    s!"{result}{kind.text}({r.text}, \"{m}\"{args}):{t.text}"
  | .newObject d c => s!"{d.text} = new {c}"
  | .newArray d n t => s!"{d.text} = new {t.text}[{n.text}]"
  | .arrayLength d a => s!"{d.text} = arraylength({a.text})"
  | .arrayStore a i v => s!"{a.text}[{i.text}] = {v.text}"
  | .fieldRead d o f t => s!"{d.text} = getfield({o.text}, {f}:{t.text})"
  | .fieldWrite o f t v => s!"putfield({o.text}, {f}:{t.text}, {v.text})"
  | .ret (some v) => s!"ret {v.text}"
  | .ret none => "ret"
  | .branch c t => s!"if ({c.text}) goto {t}"
  | .jump t => s!"goto {t}"
  | .label name => s!"{name}:"

end JavaMinus.Tac
