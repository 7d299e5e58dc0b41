import JavaMinus.Toml.Reading

/-!
# Blanks, comments and line ends

What parts the things that a file says. A carriage return stands only in front of a line feed, and
no other control character than the tab stands in a comment.
-/

namespace JavaMinus.Toml

open Reading

def isBlank (c : Char) : Bool := c == ' ' || c == '\t'

/-- Control characters may not stand in strings and comments; the tab is none of them. -/
def isControl (c : Char) : Bool := (c.toNat < 0x20 && c != '\t') || c == '\x7f'

/-- Blanks, if there are any. -/
def blank : Reading Unit := skip isBlank

/-- A line end. -/
def newline : Reading Unit
  | '\n' :: rest => .found () rest
  | '\r' :: '\n' :: rest => .found () rest
  | place => .missed place

/-- A line end or the end of the text. -/
def ending : Reading Unit
  | [] => .found () []
  | place => newline place

/-- A comment up to its line end. -/
def comment : Reading Unit := do
  char '#'
  skip fun c => !isControl c

/-- The end of a line that said something. -/
def lineEnd : Reading Unit := do
  blank
  let _ ← maybe comment
  ending

/-- Blanks, comments and line ends, in a comment or not. The text may not end in a comment. A
character that should end a line is passed before it is refused. -/
def spaceFrom (inComment : Bool) : Reading Unit
  | '\r' :: '\n' :: rest => spaceFrom false rest
  | '\n' :: rest => spaceFrom false rest
  | c :: rest =>
    if inComment then if isControl c then .missed rest else spaceFrom true rest
    else if isBlank c then spaceFrom false rest
    else if c = '#' then spaceFrom true rest
    else if c = '\r' then .missed rest
    else .found () (c :: rest)
  | [] => if inComment then .missed [] else .found () []

/-- Blanks, comments and line ends, if there are any. -/
def space : Reading Unit := spaceFrom false

end JavaMinus.Toml
