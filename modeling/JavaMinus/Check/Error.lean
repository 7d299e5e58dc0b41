import JavaMinus.Typing.Error

/-!
# Semantic errors

What the checker reports of a program. Errors are collected: one never hides another that does not
depend on it. Every error has a span, a wording and a stable code; codes of typing errors begin at
E2001 and codes of declarations and statements at E3001.
-/

namespace JavaMinus

/-- A semantic error. -/
inductive CheckError where
  /-- An expression has no type. -/
  | typing (cause : TypeError)
  /-- Two imports with one last segment. -/
  | duplicateImport (name : String) (span : Span)
  | duplicateField (name : String) (span : Span)
  | duplicateMethod (name : String) (span : Span)
  /-- Two parameters or locals of one name. -/
  | duplicateVariable (name method : String) (span : Span)
  | varargsNotLast (method param : String) (span : Span)
  /-- A field or local that is declared varargs. -/
  | varargsVariable (name : String) (span : Span)
  | varargsReturn (method : String) (span : Span)
  /-- A parameter named `length`. -/
  | reservedParameterName (method : String) (span : Span)
  /-- A wrong number of returns; `optional` says that none would do as well as one. -/
  | returnCount (method : String) (optional : Bool) (actual : Nat) (span : Span)
  | returnNotLast (method : String) (span : Span)
  | invalidCondition (actual : Ty) (span : Span)
  | assignMismatch (target : String) (expected actual : Ty) (span : Span)
  | returnMismatch (method : String) (expected actual : Ty) (span : Span)
deriving DecidableEq

namespace CheckError

/-- The wording of the error. -/
def message : CheckError → String
  | .typing cause => cause.message
  | .duplicateImport name _ => s!"duplicate import '{name}'"
  | .duplicateField name _ => s!"duplicate field '{name}'"
  | .duplicateMethod name _ => s!"duplicate method '{name}'"
  | .duplicateVariable name method _ => s!"duplicate variable '{name}' in method '{method}'"
  | .varargsNotLast method param _ =>
    s!"varargs parameter '{param}' of '{method}' must be the last parameter"
  | .varargsVariable name _ => s!"variable '{name}' cannot be declared varargs"
  | .varargsReturn method _ => s!"method '{method}' cannot return varargs"
  | .reservedParameterName method _ => s!"parameter of '{method}' cannot be named 'length'"
  | .returnCount method optional actual _ =>
    let expected := if optional then "at most one" else "exactly one"
    s!"method '{method}' must contain {expected} return statement, found {actual}"
  | .returnNotLast method _ =>
    s!"return statement must be the last statement of method '{method}'"
  | .invalidCondition actual _ => s!"condition must be boolean, found {actual.text}"
  | .assignMismatch target expected actual _ =>
    s!"cannot assign {actual.text} to '{target}' of type {expected.text}"
  | .returnMismatch method expected actual _ =>
    s!"method '{method}' returns {expected.text}, found {actual.text}"

/-- The place of the error. -/
def span : CheckError → Span
  | .typing cause => cause.span
  | .duplicateImport _ s | .duplicateField _ s | .duplicateMethod _ s
  | .duplicateVariable _ _ s | .varargsNotLast _ _ s | .varargsVariable _ s
  | .varargsReturn _ s | .reservedParameterName _ s | .returnCount _ _ _ s
  | .returnNotLast _ s | .invalidCondition _ s | .assignMismatch _ _ _ s
  | .returnMismatch _ _ _ s => s

end CheckError

/-- The code of a typing error. -/
def TypeError.code : TypeError → String
  | .undefinedVariable .. => "E2001"
  | .undefinedClass .. => "E2002"
  | .invalidOperand .. => "E2003"
  | .arrayInArithmetic .. => "E2004"
  | .incompatibleOperands .. => "E2005"
  | .unknownProperty .. => "E2006"
  | .lengthOnNonArray .. => "E2007"
  | .mixedArrayLiteral .. => "E2008"
  | .nestedArray .. => "E2009"
  | .nonLiteralArrayLength .. => "E2010"
  | .indexNotInt .. => "E2011"
  | .indexOnNonArray .. => "E2012"
  | .indexOnCallResult .. => "E2013"
  | .undefinedMethod .. => "E2014"
  | .argumentCountMismatch .. => "E2015"
  | .argumentTypeMismatch .. => "E2016"
  | .invalidReceiver .. => "E2017"
  | .unresolvedCallType .. => "E2018"
  | .voidValue .. => "E2019"
  | .selfInStatic .. => "E2020"
  | .fieldInStatic .. => "E2021"

/-- The code of a semantic error. -/
def CheckError.code : CheckError → String
  | .typing cause => cause.code
  | .duplicateImport .. => "E3001"
  | .duplicateField .. => "E3002"
  | .duplicateMethod .. => "E3003"
  | .duplicateVariable .. => "E3004"
  | .varargsNotLast .. => "E3005"
  | .varargsVariable .. => "E3006"
  | .varargsReturn .. => "E3007"
  | .reservedParameterName .. => "E3008"
  | .returnCount .. => "E3009"
  | .returnNotLast .. => "E3010"
  | .invalidCondition .. => "E3011"
  | .assignMismatch .. => "E3012"
  | .returnMismatch .. => "E3013"

end JavaMinus
