import JavaMinus.Text.Bytes

/-!
# Places in a text

A place is what follows it in the text, so a place behind another one is a suffix of it. Only when a
place is shown is it turned into a line and a column.
-/

namespace JavaMinus.Toml

/-- A place in a text: the characters from there on. -/
abbrev Place : Type := List Char

/-- Something that is written in a text, with the place where it begins. -/
structure Placed (α : Type) where
  place : Place
  value : α
deriving Inhabited

/-- A line and a column. Both count from one. -/
structure Position where
  line : Nat
  column : Nat
deriving DecidableEq, Inhabited

/-- The characters of the last line, last first. -/
def lastLine (cs : List Char) : List Char := cs.reverse.takeWhile fun c => c != '\n'

/-- The position behind characters, given how the last line is measured. -/
def positionBehind (measure : List Char → Nat) (cs : List Char) : Position :=
  ⟨cs.count '\n' + 1, measure (lastLine cs) + 1⟩

/-- The position of a place of a text. A column counts the characters in front of it, or their bytes
where the character behind it takes several bytes. The end of the text is one column behind its last
character, also when that is a line end. -/
def Place.position (text : List Char) (place : Place) : Position :=
  let front := text.take (text.length - place.length)
  match place with
  | c :: _ => positionBehind (if c.utf8Size = 1 then List.length else Text.byteCount) front
  | [] => positionBehind (fun line => line.length + min 1 front.length) front.dropLast

end JavaMinus.Toml
