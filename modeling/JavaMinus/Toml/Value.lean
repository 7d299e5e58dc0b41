import JavaMinus.Toml.Place

/-!
# TOML values

A configuration file as a tree. Tables are written in several ways, and the way a table came about
decides what may still be added to it; so every table remembers its origin. What an array or a table
holds remembers its place: that of the value itself or of the header of a table. A table that is
only a step of a path has the place of that step.
-/

namespace JavaMinus

/-- How a table came about. -/
inductive Toml.Origin where
  /-- Between braces. Nothing can be added to it. -/
  | inline
  /-- By a header of its own, or as the file itself. -/
  | header
  /-- As a step of the path of a header. -/
  | path
  /-- As a step of a dotted key. -/
  | dotted
deriving DecidableEq, Inhabited

/-- A TOML value. Numbers that are no integers, and dates, keep their spelling: nothing here
computes with them. -/
inductive Toml where
  | str (value : String)
  | int (value : Int)
  | real (spelling : String)
  | bool (value : Bool)
  | date (spelling : String)
  | array (items : List (Toml.Placed Toml))
  | table (origin : Toml.Origin) (members : List (String × Toml.Placed Toml))
  /-- Tables that were written row by row, each under a header of its own. -/
  | rows (tables : List (List (String × Toml.Placed Toml)))
deriving Inhabited

/-- The members of a table, in the order in which they came about. No key occurs twice. -/
abbrev Toml.Members : Type := List (String × Toml.Placed Toml)

end JavaMinus
