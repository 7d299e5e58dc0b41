import JavaMinus.Check.Error

/-!
# Diagnostics

A message that points into source text. Every label marks a byte range of one file and says what is
wrong there; notes follow and point nowhere. `Diagnostic.ofCheckError` gives a semantic error one
label, at its span, and some errors a note on how to mend them.
-/

namespace JavaMinus

/-- How grave a diagnostic is. -/
inductive Severity where
  | bug
  | error
  | warning
  | note
  | help
deriving DecidableEq, Inhabited

/-- The word for a severity. -/
def Severity.text : Severity → String
  | .bug => "bug"
  | .error => "error"
  | .warning => "warning"
  | .note => "note"
  | .help => "help"

/-- A marked byte range. Files are known by number, and a range may end before it starts. -/
structure Diagnostic.Label where
  file : Nat
  start : Nat
  stop : Nat
  message : String
deriving DecidableEq, Inhabited

/-- A message with its labels and notes. -/
structure Diagnostic where
  severity : Severity
  message : String
  code : Option String := none
  labels : List Diagnostic.Label := []
  notes : List String := []
deriving DecidableEq, Inhabited

namespace CheckError

/-- What the label of an error says. -/
def labelText : CheckError → String
  | .typing (.undefinedVariable ..) => "not found in this scope"
  | .typing (.undefinedMethod ..) => "no such method"
  | .typing (.argumentCountMismatch ..) => "incorrect number of arguments"
  | .typing _ => "invalid expression"
  | .duplicateImport .. | .duplicateField .. | .duplicateMethod .. | .duplicateVariable .. =>
    "duplicate declaration"
  | .varargsNotLast .. | .varargsVariable .. | .varargsReturn .. => "invalid varargs"
  | .reservedParameterName .. => "reserved name"
  | .returnCount .. | .returnNotLast .. | .returnMismatch .. => "invalid return"
  | .invalidCondition .. => "expected boolean"
  | .assignMismatch .. => "incompatible value"

/-- How an error can be mended, where that is the same for all errors of the kind. -/
def help? : CheckError → Option String
  | .typing (.nonLiteralArrayLength ..) =>
    some "array sizes are fixed at compile time, e.g. new int[10]"
  | .typing (.fieldInStatic ..) => some "declare a local variable with the same name in main"
  | .returnNotLast .. => some "move the return statement to the end of the method"
  | _ => none

end CheckError

namespace Diagnostic

/-- The diagnostic with a label over a span. -/
def withLabel (d : Diagnostic) (file : Nat) (s : Span) (message : String) : Diagnostic :=
  { d with labels := d.labels ++ [⟨file, s.start.toNat, s.stop.toNat, message⟩] }

/-- The diagnostic with a note that helps. -/
def withHelp (d : Diagnostic) (text : String) : Diagnostic :=
  { d with notes := d.notes ++ ["help: " ++ text] }

/-- The diagnostic of a semantic error in a file. -/
def ofCheckError (e : CheckError) (file : Nat) : Diagnostic :=
  let d : Diagnostic := { severity := .error, message := e.message, code := some e.code }
  let d := d.withLabel file e.span e.labelText
  match e.help? with
  | some text => d.withHelp text
  | none => d

end Diagnostic

end JavaMinus
