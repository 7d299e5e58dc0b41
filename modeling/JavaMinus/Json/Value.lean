/-!
# JSON values

A document as a tree. Members of an object keep their order and may repeat a key, so that a reader
can refuse a repetition. Numbers written as integers are integers; any other number keeps its
spelling, since nothing here computes with it.

Some well formed values stand for nothing: a string with half of a surrogate pair, a number beyond
the doubles, an object with such a string for a key, and what is nested too deep. A document may
hold them where its reader does not look, and so they are one value that no reader takes.
-/

namespace JavaMinus

/-- A JSON value. -/
inductive Json where
  | null
  | bool (value : Bool)
  | int (value : Int)
  /-- A number that is not written as an integer. -/
  | real (spelling : String)
  | str (value : String)
  | arr (items : List Json)
  | obj (members : List (String × Json))
  /-- A well formed value that stands for nothing. -/
  | unreadable
deriving Inhabited

namespace Json

def ofNat (n : Nat) : Json := .int n

/-- An optional value, `null` where there is none. -/
def ofOption {α : Type} (f : α → Json) (a : Option α) : Json := (a.map f).getD .null

def ofStrings (strings : List String) : Json := .arr (strings.map .str)

mutual
/-- Nothing in a value is unreadable. -/
def isReadable : Json → Bool
  | .unreadable => false
  | .arr items => areReadable items
  | .obj members => membersReadable members
  | .null | .bool _ | .int _ | .real _ | .str _ => true
def areReadable : List Json → Bool
  | [] => true
  | v :: rest => isReadable v && areReadable rest
def membersReadable : List (String × Json) → Bool
  | [] => true
  | (_, v) :: rest => isReadable v && membersReadable rest
end

mutual
/-- A value as it is read to a depth: arrays and objects that nest deeper are unreadable. -/
def limit : Nat → Json → Json
  | 0, .arr _ | 0, .obj _ => .unreadable
  | depth + 1, .arr items => .arr (limitItems depth items)
  | depth + 1, .obj members => .obj (limitMembers depth members)
  | _, v => v
def limitItems (depth : Nat) : List Json → List Json
  | [] => []
  | v :: rest => limit depth v :: limitItems depth rest
def limitMembers (depth : Nat) : List (String × Json) → List (String × Json)
  | [] => []
  | (key, v) :: rest => (key, limit depth v) :: limitMembers depth rest
end

/-- The deepest nesting that is read in a document. -/
def documentDepth : Nat := 127

end Json

end JavaMinus
