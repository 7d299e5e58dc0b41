import JavaMinus.Json.Token
import JavaMinus.Json.Value

/-!
# Reading JSON

The second half of reading: tokens become a value. The reader keeps a stack of the arrays and
objects that are open, innermost first, each with what it holds so far, and a place that says which
tokens may come next. A text may nest as deep as it likes; a document is read to a fixed depth.
-/

namespace JavaMinus.Json

/-- The members of an open object, last first; nothing once one of its keys was broken. -/
abbrev OpenMembers := Option (List (String × Json))

/-- An open array or object that waits for a value. What it holds is kept last first. -/
inductive Frame where
  | arr (items : List Json)
  | obj (members : OpenMembers) (key : Option String)

/-- What may come next. -/
inductive Place where
  | value (stack : List Frame)
  /-- After an opening bracket: a value or the closing bracket. -/
  | firstItem (stack : List Frame)
  | afterItem (stack : List Frame) (items : List Json)
  /-- After an opening brace: a key or the closing brace. -/
  | firstKey (stack : List Frame)
  | key (stack : List Frame) (members : OpenMembers)
  | colon (stack : List Frame) (members : OpenMembers) (key : Option String)
  | afterMember (stack : List Frame) (members : OpenMembers)
  | finished (value : Json)

/-- The object of the members of an open one. -/
def ofOpenMembers : OpenMembers → Json
  | some members => .obj members.reverse
  | none => .unreadable

/-- An open object with a further member. -/
def addMember (members : OpenMembers) (key : Option String) (v : Json) : OpenMembers := do
  return (← key, v) :: (← members)

/-- A value is complete: it goes into the innermost open array or object. -/
def receive (v : Json) : List Frame → Place
  | [] => .finished v
  | .arr items :: stack => .afterItem stack (v :: items)
  | .obj members key :: stack => .afterMember stack (addMember members key v)

/-- The value of a token that is a value by itself. -/
def scalar? : Token → Option Json
  | .null => some .null
  | .bool b => some (.bool b)
  | .int i => some (.int i)
  | .real s => some (.real s)
  | .str s => some (.str s)
  | .hugeNumber | .brokenStr => some .unreadable
  | _ => none

/-- The key of a token that may be a key. -/
def key? : Token → Option (Option String)
  | .str k => some (some k)
  | .brokenStr => some none
  | _ => none

/-- A token where a value starts. -/
def startValue (stack : List Frame) (t : Token) : Option Place :=
  match t with
  | .openArray => some (.firstItem stack)
  | .openObject => some (.firstKey stack)
  | t => (scalar? t).map fun v => receive v stack

/-- Pass one token. -/
def Place.step (p : Place) (t : Token) : Option Place :=
  match p, t with
  | .value stack, t => startValue stack t
  | .firstItem stack, .closeArray => some (receive (.arr []) stack)
  | .firstItem stack, t => startValue (.arr [] :: stack) t
  | .afterItem stack items, .comma => some (.value (.arr items :: stack))
  | .afterItem stack items, .closeArray => some (receive (.arr items.reverse) stack)
  | .firstKey stack, .closeObject => some (receive (.obj []) stack)
  | .firstKey stack, t => (key? t).map (.colon stack (some []))
  | .key stack members, t => (key? t).map (.colon stack members)
  | .colon stack members k, .colon => some (.value (.obj members k :: stack))
  | .afterMember stack members, .comma => some (.key stack members)
  | .afterMember stack members, .closeObject => some (receive (ofOpenMembers members) stack)
  | _, _ => none

/-- Pass tokens in order. -/
def Place.run (p : Place) : List Token → Option Place
  | [] => some p
  | t :: rest =>
    match p.step t with
    | some p => run p rest
    | none => none

/-- The value that tokens spell. -/
def ofTokens? (tokens : List Token) : Option Json :=
  match Place.run (.value []) tokens with
  | some (.finished v) => some v
  | _ => none

/-- The value that a text spells. -/
def parse? (text : String) : Option Json := (tokens? text).bind ofTokens?

/-- The document that a text spells. -/
def document? (text : String) : Option Json := (parse? text).map (limit documentDepth)

end JavaMinus.Json
