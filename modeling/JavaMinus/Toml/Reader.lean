import JavaMinus.Toml.Date
import JavaMinus.Toml.Number
import JavaMinus.Toml.Quoted
import JavaMinus.Toml.Table

/-!
# Reading TOML

Keys, values, and the lines of a file. A key has a limited number of steps, and values nest to a
fixed depth. What a line says is added to the tables before the next line is read, so the first
fault of a file is the one that is found.
-/

namespace JavaMinus.Toml

open Reading

/-- The greatest number of steps of a key. -/
def keySteps : Nat := 79

/-- How deeply arrays and inline tables may nest. -/
def nesting : Nat := 79

/-- Characters of keys without quotes. -/
def isKeyChar (c : Char) : Bool := c.isAlphanum || c == '_' || c == '-'

/-- A key without quotes. -/
def bareKey : Reading String := do
  return String.ofList ((← one isKeyChar) :: (← many (one isKeyChar)))

/-- One step of a dotted key, without the blanks around it. -/
def step : Reading String
  | '"' :: rest => basicText ('"' :: rest)
  | '\'' :: rest => literalText ('\'' :: rest)
  | place => bareKey place

/-- A dotted key, with the blanks around its steps. -/
def key : Reading Path :=
  (listed (char '.') do
    blank
    let step ← placed step
    blank
    return step).through fun path => if path.length ≤ keySteps then some path else none

/-! ## Values -/

/-- The items of an array behind its bracket, and the closing one. -/
def items (item : Reading (Placed Toml)) : Reading (List (Placed Toml)) := do
  let items ← maybe (listed (char ',') do
    space
    let v ← item
    space
    return v)
  if items.isSome then
    let _ ← maybe (char ',')
  space
  char ']'
  return items.getD []

/-- A key with a value. -/
def entry (value : Reading (Placed Toml)) : Reading (Path × Placed Toml) := do
  let path ← key
  commit do
    char '='
    blank
    return (path, ← value)

/-- The members of an inline table behind its brace, and the closing one. -/
def members (value : Reading (Placed Toml)) : Reading Members := do
  let start ← here
  let entries ← maybe (listed (char ',') do
    let e ← entry value
    blank
    return e)
  blank
  let ms ← acceptFrom start
    ((entries.getD []).foldlM (fun ms e => addEntry e.1 e.2 .inline ms) [])
  char '}'
  return ms

/-- A truth value with its spelling. -/
def truth (spelling : List Char) (b : Bool) : Reading Toml := do
  commit (word spelling)
  return .bool b

/-- A value without quotes or brackets. -/
def scalar : Reading Toml
  | 't' :: rest => truth ['t', 'r', 'u', 'e'] true ('t' :: rest)
  | 'f' :: rest => truth ['f', 'a', 'l', 's', 'e'] false ('f' :: rest)
  | place => (dateOrTime.orElse number) place

/-- A value in which arrays and inline tables nest to at most a depth. -/
def valueWithin : Nat → Reading Toml
  | 0, '[' :: rest => .broken ('[' :: rest)
  | 0, '{' :: rest => .broken ('{' :: rest)
  | depth + 1, '[' :: rest => (Toml.array <$> commit (items (placed (valueWithin depth)))) rest
  | depth + 1, '{' :: rest =>
    (Toml.table .inline <$> commit (members (placed (valueWithin depth)))) rest
  | _, '"' :: rest => (Toml.str <$> quoted) ('"' :: rest)
  | _, '\'' :: rest => (Toml.str <$> quoted) ('\'' :: rest)
  | _, place => scalar place

def value : Reading (Placed Toml) := placed (valueWithin nesting)

/-! ## Lines -/

/-- A file as far as it was read, and the path of its last header. -/
structure Document where
  root : Members := []
  headerPath : Path := []

/-- The path of a header in its brackets, up to the end of its line. -/
def bracketed (bracket : Char → List Char) : Reading Path := do
  word (bracket '[')
  let path ← key
  word (bracket ']')
  lineEnd
  return path

namespace Document

/-- The header of a table. -/
def header (d : Document) : Reading Document := do
  let start ← here
  let path ← bracketed fun c => [c]
  return ⟨← acceptFrom start (addHeader path start d.root), path⟩

/-- The header of a row. -/
def row (d : Document) : Reading Document := do
  let start ← here
  let path ← bracketed fun c => [c, c]
  return ⟨← acceptFrom start (addRow path start d.root), path⟩

/-- A key with a value, in the table of the last header. -/
def entry (d : Document) : Reading Document := do
  let start ← here
  let (path, v) ← Toml.entry value
  lineEnd
  return { d with root := ← acceptFrom start (addUnder d.headerPath path v d.root) }

/-- What begins at a place, up to the end of its line. A bracket at the end of the text begins
nothing. -/
def line (d : Document) : Reading Document
  | [] => .missed []
  | '#' :: rest => commit (do comment; ending; return d) ('#' :: rest)
  | '[' :: '[' :: rest => commit d.row ('[' :: '[' :: rest)
  | '[' :: c :: rest => commit d.header ('[' :: c :: rest)
  | ['['] => .broken ['[']
  | '\n' :: rest => .found d rest
  | '\r' :: rest => (do newline; return d) ('\r' :: rest)
  | place => commit d.entry place

end Document

/-- A whole file. A mark of its encoding may stand in front. -/
def file : Reading Document := do
  let _ ← maybe (char '\ufeff')
  blank
  repeatFrom {} fun d => do
    let d ← d.line
    blank
    return d

/-- The table that a text spells, or the place of its first fault. -/
def parse (text : String) : Except Place Members :=
  match file text.toList with
  | .found d [] => .ok d.root
  | .found _ stop | .missed stop | .broken stop => .error stop

end JavaMinus.Toml
