/-!
# Lines of a text

A line ends with a line feed or with the text; a carriage return in front of the line feed belongs
to the line's end. A text that ends with a line feed has no empty line after it.
-/

namespace JavaMinus.Text

/-- Drop one carriage return at the end. -/
def dropFinalReturn (line : List Char) : List Char :=
  if line.getLast? = some '\r' then line.dropLast else line

/-- The lines of a text, given the reversed start of the current one. -/
def linesFrom (current : List Char) : List Char → List (List Char)
  | [] => if current.isEmpty then [] else [current.reverse]
  | c :: rest =>
    if c = '\n' then dropFinalReturn current.reverse :: linesFrom [] rest
    else linesFrom (c :: current) rest

/-- The lines of a text without their ends. -/
def lines (text : String) : List String := (linesFrom [] text.toList).map String.ofList

/-- Every line moved to the right by two blanks; empty lines are dropped. -/
def indent (text : String) : String :=
  String.join ((lines text).map fun line => if line.isEmpty then "" else "  " ++ line ++ "\n")

end JavaMinus.Text
