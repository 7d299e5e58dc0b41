import JavaMinus.Json.Value
import JavaMinus.Text.Digits

/-!
# Printing JSON

Two layouts of one grammar: `compact` on one line without blanks, and `pretty` with a line for each
item and member, two blanks deeper than what holds it. Only what must be escaped is escaped: the
quote, the backslash and control characters. An unreadable value is written as `null`.
-/

namespace JavaMinus.Json

/-- The spelling of a character inside a string. -/
def escapeChar (c : Char) : List Char :=
  match c with
  | '"' => ['\\', '"']
  | '\\' => ['\\', '\\']
  | '\n' => ['\\', 'n']
  | '\r' => ['\\', 'r']
  | '\t' => ['\\', 't']
  | '\x08' => ['\\', 'b']
  | '\x0c' => ['\\', 'f']
  | c =>
    if c.toNat < 0x20 then
      ['\\', 'u', '0', '0', Text.digitChar (c.toNat / 16), Text.digitChar (c.toNat % 16)]
    else [c]

/-- The spelling of a string, with its quotes. -/
def quoted (s : String) : String :=
  String.ofList ('"' :: (s.toList.flatMap escapeChar ++ ['"']))

mutual
/-- The layout on one line. -/
def compact : Json → String
  | .null | .unreadable => "null"
  | .bool b => if b then "true" else "false"
  | .int i => toString i
  | .real s => s
  | .str s => quoted s
  | .arr items => "[" ++ ",".intercalate (compactItems items) ++ "]"
  | .obj members => "\x7b" ++ ",".intercalate (compactMembers members) ++ "\x7d"
def compactItems : List Json → List String
  | [] => []
  | v :: rest => compact v :: compactItems rest
def compactMembers : List (String × Json) → List String
  | [] => []
  | (k, v) :: rest => (quoted k ++ ":" ++ compact v) :: compactMembers rest
end

/-- A new line at a depth. -/
def newLine (depth : Nat) : String := "\n" ++ String.ofList (List.replicate (2 * depth) ' ')

/-- Parts between brackets, each on a line of its own; nothing stays between empty brackets. -/
def bracketed (depth : Nat) (opening closing : String) (parts : List String) : String :=
  if parts.isEmpty then opening ++ closing
  else opening ++ newLine (depth + 1) ++ ("," ++ newLine (depth + 1)).intercalate parts ++
    newLine depth ++ closing

mutual
/-- The layout over lines, for a value that stands at a depth. -/
def prettyAt (depth : Nat) : Json → String
  | .arr items => bracketed depth "[" "]" (prettyItems (depth + 1) items)
  | .obj members => bracketed depth "\x7b" "\x7d" (prettyMembers (depth + 1) members)
  | .null | .unreadable => compact .null
  | .bool b => compact (.bool b)
  | .int i => compact (.int i)
  | .real s => compact (.real s)
  | .str s => compact (.str s)
def prettyItems (depth : Nat) : List Json → List String
  | [] => []
  | v :: rest => prettyAt depth v :: prettyItems depth rest
def prettyMembers (depth : Nat) : List (String × Json) → List String
  | [] => []
  | (k, v) :: rest => (quoted k ++ ": " ++ prettyAt depth v) :: prettyMembers depth rest
end

/-- The layout over lines. -/
def pretty (v : Json) : String := prettyAt 0 v

end JavaMinus.Json
