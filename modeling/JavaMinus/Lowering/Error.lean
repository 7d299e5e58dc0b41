import JavaMinus.Typing.Error

/-!
# Lowering errors

Why a program has no three-address code. The checker refuses most of these programs first;
`literalTooLarge` is a limit of the code itself, and the only one an accepted program can meet.
-/

namespace JavaMinus

/-- A cause for which lowering stops. -/
inductive LoweringError where
  | typing (cause : TypeError)
  | unresolvedVariable (name : String)
  | unresolvedTarget (name : String)
  | targetNotArray (name : String)
  | unknownProperty (property : String)
  | callWithoutValue (method : String)
  | tooFewArguments (method : String)
  /-- More elements than the length of an array can say. -/
  | literalTooLarge
  | notArray (actual : Ty)
  | missingSignature (method : String)
  | missingReturn (method : String)
deriving DecidableEq

/-- The wording of the error. -/
def LoweringError.message : LoweringError → String
  | .typing cause => cause.message
  | .unresolvedVariable name => s!"unresolved variable '{name}'"
  | .unresolvedTarget name => s!"unresolved assignment target '{name}'"
  | .targetNotArray name => s!"'{name}' is not an array"
  | .unknownProperty property => s!"unknown property '{property}'"
  | .callWithoutValue method => s!"call to '{method}' has no value"
  | .tooFewArguments method => s!"call to '{method}' has too few arguments"
  | .literalTooLarge => "array literal is too large"
  | .notArray actual => s!"expected an array, found {actual.text}"
  | .missingSignature method => s!"method '{method}' is missing from the symbol table"
  | .missingReturn method => s!"method '{method}' does not end with a return"

end JavaMinus
