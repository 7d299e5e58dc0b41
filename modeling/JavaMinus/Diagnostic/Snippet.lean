import JavaMinus.Diagnostic
import JavaMinus.Diagnostic.SourceFile
import JavaMinus.Text.Lines
import JavaMinus.Text.Width

/-!
# Snippets

Diagnostics for people: a headline, then for each label the lines it marks, then the notes.

    error[E3011]: condition must be boolean, found int
      ┌─ Main.jmm:1:5
      │
    1 │ if (1 + 2) { } else { }
      │     ^^^^^ expected boolean

A range on one line is underlined. A range over several lines is drawn at the margin, and of its
inner lines only those near its ends are shown. What is behind the end of a line is at its end.
-/

namespace JavaMinus

/-- A character of a line as it is shown: the bytes in front of it and the columns it takes. -/
structure Glyph where
  offset : Nat
  width : Nat
  char : Char
deriving DecidableEq, Inhabited

namespace Snippet

open Text (byteCount)

/-- The distance between tab stops. -/
def tabWidth : Nat := 4

/-- The columns of a character that stands at a column. -/
def columns (column : Nat) (c : Char) : Nat :=
  if c = '\t' then tabWidth - column % tabWidth else Text.width c

/-- The glyphs of characters that stand at an offset and a column. -/
def glyphsFrom (offset column : Nat) : List Char → List Glyph
  | [] => []
  | c :: rest =>
    let width := columns column c
    ⟨offset, width, c⟩ :: glyphsFrom (offset + c.utf8Size) (column + width) rest

/-- The characters that a line is ended with. -/
def isLineEnd (c : Char) : Bool := c == '\n' || c == '\r' || c == '\x00'

/-- The characters that leave a line blank. -/
def isBlank (c : Char) : Bool :=
  let code := c.toNat
  (0x9 ≤ code && code ≤ 0xd) || code == 0x20 || code == 0x85 || code == 0xa0 || code == 0x1680 ||
    (0x2000 ≤ code && code ≤ 0x200a) || code == 0x2028 || code == 0x2029 || code == 0x202f ||
    code == 0x205f || code == 0x3000

/-- A line without its end. -/
def shown (l : SourceLine) : List Char := (l.text.reverse.dropWhile isLineEnd).reverse

def glyphs (l : SourceLine) : List Glyph := glyphsFrom 0 0 (shown l)

def blanks (n : Nat) : String := String.ofList (List.replicate n ' ')

/-- The text of a glyph; a tab is shown as blanks. -/
def Glyph.text (g : Glyph) : String := if g.char = '\t' then blanks g.width else g.char.toString

/-- How a marked range lies on one line. Offsets count from the start of the line. -/
inductive Mark where
  | outside
  | within (start stop : Nat)
  | opening (start : Nat)
  | between
  | closing (stop : Nat)
deriving DecidableEq, Inhabited

/-- The range opens in front of the line's text, and so needs no underline. -/
def opensLine (l : SourceLine) (start : Nat) : Bool :=
  start ≤ byteCount ((shown l).takeWhile isBlank)

/-- What is drawn at the margin of a line, in front of its text. -/
def margin (l : SourceLine) : Mark → String
  | .within .. => ""
  | .outside => "  "
  | .opening start => if opensLine l start then " ╭" else "  "
  | .between | .closing _ => " │"

/-- The underline of a range on one line: a caret under every column of it, and one at the end of
the line if the range starts there. -/
def carets (l : SourceLine) (start stop : Nat) : String :=
  let stop := max stop (start + 1)
  let atEnd : Glyph := ⟨byteCount (shown l), 1, '\x00'⟩
  String.join ((glyphs l ++ [atEnd]).map fun g =>
    if max start g.offset < min stop (g.offset + g.char.utf8Size) then
      String.ofList (List.replicate g.width '^')
    else if g.offset < stop then blanks g.width
    else "")

/-- A line under the columns in front of an offset. -/
def ruler (l : SourceLine) (offset : Nat) : String :=
  let before := (glyphs l).takeWhile fun g => g.offset < offset
  String.ofList (List.replicate (before.foldr (fun g width => g.width + width) 0) '─')

/-- A message behind a drawing. -/
def trailing (message : String) : String := if message.isEmpty then "" else " " ++ message

/-- What is drawn under a line. -/
def underline? (l : SourceLine) (message : String) : Mark → Option String
  | .within start stop => some (" " ++ carets l start stop ++ trailing message)
  | .opening start =>
    if opensLine l start then none else some (" ╭" ++ ruler l (start + 1) ++ "^")
  | .closing stop => some (" ╰" ++ ruler l stop ++ "^" ++ trailing message)
  | .between | .outside => none

/-- Blanks where other rows have the number of a line. -/
def gutter (pad : Nat) : String := blanks (pad + 1)

/-- A row with the number and the text of a line. -/
def sourceRow (pad index : Nat) (l : SourceLine) (mark : Mark) : String :=
  let number := toString (index + 1)
  blanks (pad - number.length) ++ number ++ " │" ++ margin l mark ++ " " ++
    String.join ((glyphs l).map Glyph.text) ++ "\n"

/-- The rows of a line. -/
def lineRows (pad index : Nat) (l : SourceLine) (message : String) (mark : Mark) : String :=
  sourceRow pad index l mark ++
    match underline? l message mark with
    | some drawing => gutter pad ++ "│" ++ drawing ++ "\n"
    | none => ""

end Snippet

namespace Diagnostic.Label

open Snippet

/-- The indices of the first and the last line of the range. -/
def lineRange (label : Label) (f : SourceFile) : Nat × Nat :=
  (f.lineIndex label.start, f.lineIndex label.stop)

/-- How the range lies on the line at an index. -/
def mark (label : Label) (f : SourceFile) (index : Nat) : Mark :=
  let (first, last) := label.lineRange f
  let start := (f.line index).start
  if first = last then .within (label.start - start) (label.stop - start)
  else if index = first then .opening (label.start - start)
  else if index = last then .closing (label.stop - start)
  else if first < index ∧ index < last then .between
  else .outside

/-- The indices of the lines to show, in order: the ends of the range, three lines behind the
first and one in front of the last. -/
def shownLines (label : Label) (f : SourceFile) : List Nat :=
  let (first, last) := label.lineRange f
  if last < first then [last, first]
  else (List.range' first (last - first + 1)).filter fun i =>
    i == first || i == last || i - first ≤ 3 || last - i ≤ 1

/-- The width of the largest number of a line. -/
def numberWidth (label : Label) (f : SourceFile) : Nat :=
  let (first, last) := label.lineRange f
  (toString (max first last + 1)).length

/-- What stands between two shown lines: nothing if they are neighbours, the line between them if
there is one, and else a break. -/
def gap (label : Label) (f : SourceFile) (index next : Nat) : String :=
  let pad := label.numberWidth f
  if next = index + 1 then ""
  else if next = index + 2 then
    sourceRow pad (index + 1) (f.line (index + 1)) (label.mark f (index + 1))
  else
    let atMargin := match label.mark f index with
      | .between | .closing _ => " │"
      | .within .. => ""
      | .outside | .opening _ => "  "
    gutter pad ++ "·" ++ atMargin ++ "\n"

/-- The rows of lines with what stands between them. -/
def rows (label : Label) (f : SourceFile) : List Nat → String
  | [] => ""
  | index :: rest =>
    lineRows (label.numberWidth f) index (f.line index) label.message (label.mark f index) ++
      (match rest with
        | next :: _ => label.gap f index next
        | [] => "") ++ rows label f rest

/-- A row without text. -/
def emptyRow (label : Label) (f : SourceFile) : String :=
  let (first, last) := label.lineRange f
  gutter (label.numberWidth f) ++ "│" ++ (if first = last then "" else "  ") ++ "\n"

/-- The marked lines under the place where the range starts. -/
def snippet (label : Label) (f : SourceFile) : String :=
  let place := f.location label.start
  gutter (label.numberWidth f) ++ s!"┌─ {f.name}:{place.line}:{place.column}\n" ++
    label.emptyRow f ++ label.rows f (label.shownLines f)

end Diagnostic.Label

namespace Diagnostic

open Snippet

/-- The line that a diagnostic starts with. -/
def headline (d : Diagnostic) : String :=
  let code := match d.code with
    | some code => s!"[{code}]"
    | none => ""
  s!"{d.severity.text}{code}: {d.message}\n"

/-- A note, its lines one under the other. -/
def noteRows (pad : Nat) (note : String) : String :=
  String.join ((Text.lines note).mapIdx fun i line =>
    gutter pad ++ (if i = 0 then "=" else " ") ++ " " ++ line ++ "\n")

/-- The labels that lie in a file there is, each with its file. -/
def placedLabels (d : Diagnostic) (files : List SourceFile) : List (Label × SourceFile) :=
  d.labels.filterMap fun label => (files[label.file]?).map fun f => (label, f)

/-- The diagnostic with its snippets. Notes are set apart from the last snippet. -/
def render (d : Diagnostic) (files : List SourceFile) : String :=
  let placed := d.placedLabels files
  let pad := (placed.map fun p => p.1.numberWidth p.2).foldl max 0
  let apart := match placed.getLast? with
    | some (label, f) => if d.notes.isEmpty then "" else label.emptyRow f
    | none => ""
  d.headline ++ String.join (placed.map fun p => p.1.snippet p.2) ++ apart ++
    String.join (d.notes.map (noteRows pad)) ++ "\n"

end Diagnostic

end JavaMinus
