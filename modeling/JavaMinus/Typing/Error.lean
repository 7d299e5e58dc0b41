import JavaMinus.Span
import JavaMinus.Ty

/-!
# Typing errors

Why an expression has no type. Every cause carries the span of the offending node, and
`TypeError.message` is the wording shown to the programmer.
-/

namespace JavaMinus

/-- A cause for which an expression has no type. -/
inductive TypeError where
  /-- The name is neither a local, a parameter nor a field. -/
  | undefinedVariable (name : String) (span : Span)
  /-- The allocated class is neither declared, imported nor the superclass. -/
  | undefinedClass (name : String) (span : Span)
  | invalidOperand (op : String) (expected actual : Ty) (span : Span)
  | arrayInArithmetic (op : String) (span : Span)
  /-- An equality between unrelated types. -/
  | incompatibleOperands (op : String) (left right : Ty) (span : Span)
  /-- A property other than `length`. -/
  | unknownProperty (property : String) (span : Span)
  | lengthOnNonArray (actual : Ty) (span : Span)
  /-- An array literal whose elements do not share one type. -/
  | mixedArrayLiteral (expected actual : Ty) (span : Span)
  | nestedArray (span : Span)
  | nonLiteralArrayLength (span : Span)
  | indexNotInt (actual : Ty) (span : Span)
  | indexOnNonArray (actual : Ty) (span : Span)
  | indexOnCallResult (span : Span)
  | undefinedMethod (name : String) (span : Span)
  /-- A wrong number of arguments; for a varargs method `expected` counts the fixed parameters. -/
  | argumentCountMismatch (method : String) (expected actual : Nat) (varargs : Bool) (span : Span)
  /-- An argument, counted from one, that does not fit its parameter. -/
  | argumentTypeMismatch (method : String) (position : Nat) (expected actual : Ty) (span : Span)
  /-- A method called on a primitive, an array or an unrelated value. -/
  | invalidReceiver (method : String) (receiver : Ty) (span : Span)
  /-- The call is of an unknown method and its site expects no type. -/
  | unresolvedCallType (method : String) (span : Span)
  | voidValue (method : String) (span : Span)
  | selfInStatic (span : Span)
  | fieldInStatic (name : String) (span : Span)
deriving DecidableEq

namespace TypeError

/-- The number of arguments that a method takes, in words. -/
def argumentCount (expected : Nat) (varargs : Bool) : String :=
  if varargs then s!"at least {expected} arguments"
  else if expected = 1 then "1 argument"
  else s!"{expected} arguments"

/-- The wording of the error. -/
def message : TypeError → String
  | .undefinedVariable name _ => s!"variable '{name}' not found"
  | .undefinedClass name _ => s!"class '{name}' not found"
  | .invalidOperand op expected actual _ =>
    s!"operator '{op}' expects {expected.text} operands, found {actual.text}"
  | .arrayInArithmetic op _ => s!"arrays cannot be used in arithmetic operations ('{op}')"
  | .incompatibleOperands op left right _ =>
    s!"cannot compare {left.text} with {right.text} using '{op}'"
  | .unknownProperty property _ => s!"unknown property '{property}', only 'length' is supported"
  | .lengthOnNonArray actual _ => s!"'length' requires an array, found {actual.text}"
  | .mixedArrayLiteral expected actual _ =>
    s!"array literal elements must all be {expected.text}, found {actual.text}"
  | .nestedArray _ => "arrays of arrays are not supported"
  | .nonLiteralArrayLength _ => "array length must be an integer literal"
  | .indexNotInt actual _ => s!"array index must be int, found {actual.text}"
  | .indexOnNonArray actual _ => s!"cannot index into a value of type {actual.text}"
  | .indexOnCallResult _ => "cannot index directly into the result of a method call"
  | .undefinedMethod name _ => s!"method '{name}' not found"
  | .argumentCountMismatch method expected actual varargs _ =>
    s!"method '{method}' expects {argumentCount expected varargs}, found {actual}"
  | .argumentTypeMismatch method position expected actual _ =>
    s!"argument {position} of '{method}' expects {expected.text}, found {actual.text}"
  | .invalidReceiver method receiver _ =>
    s!"cannot call method '{method}' on a value of type {receiver.text}"
  | .unresolvedCallType method _ => s!"cannot infer the result type of '{method}' here"
  | .voidValue method _ => s!"method '{method}' returns void and cannot be used as a value"
  | .selfInStatic _ => "'this' cannot be used in a static method"
  | .fieldInStatic name _ => s!"field '{name}' cannot be accessed from a static method"

/-- The place of the error. -/
def span : TypeError → Span
  | .undefinedVariable _ s | .undefinedClass _ s | .invalidOperand _ _ _ s
  | .arrayInArithmetic _ s | .incompatibleOperands _ _ _ s | .unknownProperty _ s
  | .lengthOnNonArray _ s | .mixedArrayLiteral _ _ s | .nestedArray s
  | .nonLiteralArrayLength s | .indexNotInt _ s | .indexOnNonArray _ s
  | .indexOnCallResult s | .undefinedMethod _ s | .argumentCountMismatch _ _ _ _ s
  | .argumentTypeMismatch _ _ _ _ s | .invalidReceiver _ _ s | .unresolvedCallType _ s
  | .voidValue _ s | .selfInStatic s | .fieldInStatic _ s => s

end TypeError

end JavaMinus
