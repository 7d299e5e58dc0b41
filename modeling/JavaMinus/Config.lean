import JavaMinus.Jvm.Assembly
import JavaMinus.Policy

/-!
# Configuration

What can be chosen about a compilation. Every choice has a default. `Config.validate` refuses a
root class that assembly cannot name.
-/

namespace JavaMinus

/-- The choices of a compilation. -/
structure Config where
  /-- Also give the listing of the three-address code. -/
  emitListing : Bool := false
  /-- The assembly name of the superclass of classes that declare none. -/
  rootClass : String := Jvm.defaultRootClass
  policy : Policy := {}
deriving DecidableEq, Inhabited

/-- Why a configuration cannot be used. -/
inductive ConfigError where
  /-- The file cannot be read; the reason is in the words of the system. -/
  | unreadable (path reason : String)
  /-- The file does not describe a configuration. Lines and columns count from one. -/
  | malformed (line column : Nat)
  | emptyRootClass
  /-- The root class is written with dots. -/
  | dottedRootClass (rootClass : String)
deriving DecidableEq

/-- The wording of the error. -/
def ConfigError.message : ConfigError → String
  | .unreadable path reason => s!"Failed to read config file {path}: {reason}"
  | .malformed line column =>
    s!"Failed to parse config: TOML parse error at line {line}, column {column}"
  | .emptyRootClass => "Invalid config: root_class cannot be empty"
  | .dottedRootClass rootClass =>
    s!"Invalid config: root_class must use '/' separators, found '{rootClass}'"

/-- A configuration whose root class has an assembly name. -/
def Config.validate (c : Config) : Except ConfigError Config :=
  if c.rootClass.isEmpty then .error .emptyRootClass
  else if c.rootClass.contains '.' then .error (.dottedRootClass c.rootClass)
  else .ok c

end JavaMinus
