import JavaMinus.Tac.Operand

/-!
# Representation errors

Why three-address code has no assembly. `isCapacity` singles out the causes that are limits of the
class format rather than faults of the code.
-/

namespace JavaMinus.Jvm

open Tac

/-- A cause for which code cannot be represented. -/
inductive RepresentationError where
  | tooManyLocals
  | tooManyArguments
  | stackTooDeep
  | noSlot (operand : Operand)
  /-- Two paths reach a label with stacks of different heights. -/
  | heightMismatch (label : String) (here recorded : Int)
  | underflow (instr : String)
  | voidArrayDescriptor
  | voidParameter
  | unpairedAllocation (className : String)
  | voidArray
  | constructorWithoutAllocation (receiver : Operand)
  | staticReceiver (method : String) (receiver : Operand)
  | invalidReceiver (method : String) (receiver : Operand)
  | voidResult (method : String) (dest : Operand)
  | selfInStatic
  | classAsValue (className : String)
  | notStorage (dest : Operand)
  | voidValue
  | notArray (ty : Ty)
  | notArithmetic (op : String)
  | notComparison (op : String)
  | orderingOnReferences (op : String)
deriving DecidableEq

namespace RepresentationError

/-- The wording of the error. -/
def message : RepresentationError → String
  | .tooManyLocals => "too many local variables (max 65535)"
  | .tooManyArguments => "too many call arguments"
  | .stackTooDeep => "operand stack too deep"
  | .noSlot operand => s!"no local slot for {operand.text}"
  | .heightMismatch label here recorded =>
    s!"stack height {here} at label {label} does not match {recorded}"
  | .underflow instr => s!"operand stack underflow at '{instr}'"
  | .voidArrayDescriptor => "array of void has no descriptor"
  | .voidParameter => "void parameter has no descriptor"
  | .unpairedAllocation className =>
    s!"allocation of {className} is not followed by its constructor call"
  | .voidArray => "array of void"
  | .constructorWithoutAllocation receiver =>
    s!"constructor call on {receiver.text} without an allocation"
  | .staticReceiver method receiver =>
    s!"static call to {method} needs a class receiver, found {receiver.text}"
  | .invalidReceiver method receiver => s!"cannot invoke {method} on {receiver.text}"
  | .voidResult method dest => s!"void call to {method} stored into {dest.text}"
  | .selfInStatic => "'this' in a static method"
  | .classAsValue className => s!"class {className} used as a value"
  | .notStorage dest => s!"cannot store into {dest.text}"
  | .voidValue => "void value has no representation"
  | .notArray ty => s!"{ty.text} is not an array"
  | .notArithmetic op => s!"'{op}' is not an arithmetic operator"
  | .notComparison op => s!"'{op}' is not a comparison"
  | .orderingOnReferences op => s!"ordering comparison '{op}' on references"

/-- The cause is a limit of the class format. -/
def isCapacity : RepresentationError → Bool
  | .tooManyLocals | .tooManyArguments | .stackTooDeep => true
  | _ => false

end RepresentationError

/-- The outcome of a step that may have no representation. -/
abbrev Result (α : Type) := Except RepresentationError α

/-- The largest number of local slots, of arguments of a call and of cells of a stack. -/
def wordLimit : Nat := 65535

end JavaMinus.Jvm
