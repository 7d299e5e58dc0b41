import JavaMinus.Config
import JavaMinus.Toml.Reader

/-!
# Configuration files

    [compiler]
    emit_ir = false
    root_class = "java/lang/Object"

    [checker]
    lenient_imports = true
    trust_superclass = true

Every section and key may be left out, and other keys mean nothing. A section may also be an array
of its values in this order. A date where a section is expected is a section that gives nothing.
A value of the wrong kind is a fault of the file, at the place of the value; of several the one that
came about first is reported.
-/

namespace JavaMinus

namespace Toml.Placed

def bool (v : Placed Toml) : Except Place Bool :=
  match v.value with
  | .bool b => .ok b
  | _ => .error v.place

def string (v : Placed Toml) : Except Place String :=
  match v.value with
  | .str s => .ok s
  | _ => .error v.place

/-- What a section with the given keys holds. -/
def sectionOf (keys : List String) (v : Placed Toml) : Except Place Members :=
  match v.value with
  | .table _ members => .ok members
  | .array items => .ok (keys.zip items)
  | .date _ => .ok []
  | _ => .error v.place

end Toml.Placed

open Toml

/-- The configuration with a key of the section about generated code. -/
def Config.withCompilerKey (c : Config) : String × Placed Toml → Except Place Config
  | ("emit_ir", v) => return { c with emitListing := ← v.bool }
  | ("root_class", v) => return { c with rootClass := ← v.string }
  | _ => .ok c

/-- The policy with a key of the section about the checker. -/
def Policy.withKey (p : Policy) : String × Placed Toml → Except Place Policy
  | ("lenient_imports", v) => return { p with lenientImports := ← v.bool }
  | ("trust_superclass", v) => return { p with trustSuperclass := ← v.bool }
  | _ => .ok p

/-- The configuration with a section. -/
def Config.withSection (c : Config) : String × Placed Toml → Except Place Config
  | ("compiler", v) => do (← v.sectionOf ["emit_ir", "root_class"]).foldlM withCompilerKey c
  | ("checker", v) => do
    let members ← v.sectionOf ["lenient_imports", "trust_superclass"]
    return { c with policy := ← members.foldlM Policy.withKey c.policy }
  | _ => .ok c

/-- The configuration that a file describes, whatever its root class is. -/
def Config.ofMembers (members : Toml.Members) : Except Place Config := members.foldlM withSection {}

/-- The configuration that the text of a file describes. -/
def Config.ofText (text : String) : Except ConfigError Config :=
  match (Toml.parse text).bind ofMembers with
  | .ok c => c.validate
  | .error place =>
    let position := place.position text.toList
    .error (.malformed position.line position.column)

end JavaMinus
