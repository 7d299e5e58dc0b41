import JavaMinus.Text.Bytes

/-!
# Source files

A text with a name, seen as lines. A line ends behind its line feed, so a text that ends with one
has an empty last line, and every text has a line. Any byte offset has a location: one behind the
text lies at its end, and one inside a character lies in front of it.
-/

namespace JavaMinus

open Text (byteCount charsWithin)

/-- A line with its line feed, and the byte offset where it starts. -/
structure SourceLine where
  start : Nat
  text : List Char
deriving DecidableEq, Inhabited

/-- A named text. -/
structure SourceFile where
  name : String
  text : String
deriving DecidableEq, Inhabited

/-- A place in a text. Lines and columns count from one; a column is a character. -/
structure SourceLocation where
  line : Nat
  column : Nat
deriving DecidableEq, Inhabited

/-- The lines of a text, given where the current one starts and its characters so far, last
first. -/
def sourceLinesFrom (start : Nat) (current : List Char) : List Char → List SourceLine
  | [] => [⟨start, current.reverse⟩]
  | c :: rest =>
    if c = '\n' then
      ⟨start, (c :: current).reverse⟩ :: sourceLinesFrom (start + byteCount (c :: current)) [] rest
    else sourceLinesFrom start (c :: current) rest

namespace SourceFile

def lines (f : SourceFile) : List SourceLine := sourceLinesFrom 0 [] f.text.toList

/-- The line at an index; behind the last line there is nothing. -/
def line (f : SourceFile) (index : Nat) : SourceLine :=
  (f.lines[index]?).getD ⟨f.text.utf8ByteSize, []⟩

/-- The index of the last line that starts at an offset or before it. -/
def lineIndex (f : SourceFile) (offset : Nat) : Nat :=
  (f.lines.takeWhile fun l => l.start ≤ offset).length - 1

/-- The place of a byte offset. -/
def location (f : SourceFile) (offset : Nat) : SourceLocation :=
  let index := f.lineIndex offset
  let l := f.line index
  ⟨index + 1, charsWithin (offset - l.start) l.text + 1⟩

end SourceFile

end JavaMinus
