import JavaMinus.Text.Digits
import JavaMinus.Toml.Blank

/-!
# TOML strings

A string has single or double quotes, and one or three of them. Only double quotes have escapes, and
only three of them may enclose line ends. One or two quotes may stand inside three of them, also
directly in front of the closing ones.
-/

namespace JavaMinus.Toml

open Reading

/-- The character after a backslash stands for another. -/
def escaped? : Char → Option Char
  | '"' => some '"'
  | '\\' => some '\\'
  | 'b' => some '\x08'
  | 't' => some '\t'
  | 'n' => some '\n'
  | 'f' => some '\x0c'
  | 'r' => some '\r'
  | _ => none

/-- The character whose code point digits spell. -/
def codePoint? (digits : List Char) : Option Char :=
  let code := Text.ofDigits 16 digits
  if digits.all (Text.isDigitOf 16) && code.isValidChar then some (Char.ofNat code) else none

/-- The character whose code point a number of digits spell. -/
def codePoint (count : Nat) : Reading Char := fun place =>
  let digits := place.take count
  if digits.length = count then
    match codePoint? digits with
    | some c => .found c (place.drop count)
    | none => .broken place
  else .broken place

/-- The character that an escape stands for. A letter that means nothing is passed before it is
refused, unless it takes several bytes. -/
def escape : Reading Char
  | '\\' :: 'u' :: rest => codePoint 4 rest
  | '\\' :: 'U' :: rest => codePoint 8 rest
  | '\\' :: c :: rest =>
    match escaped? c with
    | some e => .found e rest
    | none => .broken (if c.utf8Size = 1 then rest else c :: rest)
  | place => .missed place

/-- A character that stands for itself between double quotes. -/
def basicChar : Reading Char := one fun c => c != '"' && c != '\\' && !isControl c

/-- A character that stands for itself between single quotes. -/
def literalChar : Reading Char := one fun c => c != '\'' && !isControl c

/-- A string in double quotes. -/
def basicText : Reading String := do
  char '"'
  let chars ← many (basicChar.orElse escape)
  commit (char '"')
  return String.ofList chars

/-- A string in single quotes. -/
def literalText : Reading String := do
  char '\''
  let chars ← many literalChar
  commit (char '\'')
  return String.ofList chars

/-- One or two quotes inside three of them. Something else than a quote follows. -/
def innerQuotes (quote : Char) : Reading (List Char)
  | c :: d :: e :: rest =>
    if c = quote ∧ d = quote ∧ e ≠ quote then .found [c, d] (e :: rest)
    else if c = quote ∧ d ≠ quote then .found [c] (d :: e :: rest)
    else .missed (c :: d :: e :: rest)
  | [c, d] => if c = quote ∧ d ≠ quote then .found [c] [d] else .missed [c, d]
  | place => .missed place

/-- The quotes that close a string, with one or two that still belong to it. -/
def closingQuotes (quote : Char) : Reading (List Char) :=
  let quotes (inner : Nat) : Reading (List Char) := do
    word (List.replicate (inner + 3) quote)
    return List.replicate inner quote
  (quotes 2).orElse ((quotes 1).orElse (quotes 0))

/-- A backslash at the end of a line: the line end and the space behind it mean nothing. -/
def fold : Reading (List Char) := do
  char '\\'
  blank
  newline
  let _ ← many ((do let _ ← one isBlank).orElse newline)
  return []

/-- A line end inside a string is a line feed. -/
def innerLineEnd : Reading (List Char) := do
  newline
  return ['\n']

/-- A string in three double quotes. -/
def basicLines : Reading String := do
  word ['"', '"', '"']
  let _ ← maybe newline
  let single (r : Reading Char) : Reading (List Char) := do return [← r]
  let pieces ← many
    ((single basicChar).orElse (fold.orElse ((single escape).orElse
      (innerLineEnd.orElse (innerQuotes '"')))))
  return String.ofList (pieces.flatten ++ (← commit (closingQuotes '"')))

/-- A string in three single quotes. -/
def literalLines : Reading String := do
  word ['\'', '\'', '\'']
  let _ ← maybe newline
  let char : Reading (List Char) := (do return [← literalChar]).orElse innerLineEnd
  let pieces ← many (char.orElse do return (← innerQuotes '\'') ++ (← char))
  return String.ofList (pieces.flatten ++ (← commit (closingQuotes '\'')))

/-- A string. -/
def quoted : Reading String
  | '"' :: rest => (basicLines.orElse basicText) ('"' :: rest)
  | place => (literalLines.orElse literalText) place

end JavaMinus.Toml
