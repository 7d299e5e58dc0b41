import JavaMinus.Toml.Value

/-!
# Adding to tables

A key may be given once, and a table defined once. A table that only came about as a step of a path
may be defined later by a header; a table from a dotted key may only be extended by further dotted
keys in the same place.
-/

namespace JavaMinus.Toml

namespace Members

def find? (ms : Members) (key : String) : Option (Placed Toml) :=
  (List.find? (fun m => m.1 == key) ms).map Prod.snd

/-- The members with a key set. A new key comes last. -/
def set (ms : Members) (key : String) (v : Placed Toml) : Members :=
  if ms.any fun m => m.1 == key then ms.map fun m => if m.1 == key then (key, v) else m
  else ms ++ [(key, v)]

/-- The members without a key. -/
def erase (ms : Members) (key : String) : Members := ms.filter fun m => m.1 != key

end Members

/-- A path of keys, each with its place. -/
abbrev Path : Type := List (Placed String)

/-- A step from a table into one of its members: the table to go on in, and how to put it back. A
key that is not there gets an empty table of the given origin. -/
def stepInto (create : Origin) (key : Placed String) (ms : Members) :
    Option (Origin × Members × (Members → Placed Toml)) :=
  match ms.find? key.value with
  | none => some (create, [], fun inner => ⟨key.place, .table create inner⟩)
  | some ⟨place, .table origin inner⟩ =>
    if origin = .inline ∨ (create = .dotted ∧ origin = .header) then none
    else some (origin, inner, fun inner => ⟨place, .table origin inner⟩)
  | some ⟨place, .rows tables⟩ =>
    tables.getLast?.map fun last =>
      (.header, last, fun inner => ⟨place, .rows (tables.dropLast ++ [inner])⟩)
  | some _ => none

/-- Change the table at the end of a path. -/
def changeAt (create : Origin) (change : Origin → Members → Option Members) :
    Path → Origin → Members → Option Members
  | [], origin, ms => change origin ms
  | key :: rest, _, ms => do
    let (origin, inner, rebuild) ← stepInto create key ms
    let changed ← changeAt create change rest origin inner
    return ms.set key.value (rebuild changed)

/-- The last step of a path apart from the others. -/
def splitLast? (path : Path) : Option (Path × String) :=
  path.getLast?.map fun last => (path.dropLast, last.value)

/-- Give a dotted key a value. The steps of the key are tables from dotted keys. -/
def addEntry (path : Path) (v : Placed Toml) (origin : Origin) (ms : Members) : Option Members := do
  let (steps, key) ← splitLast? path
  let add (origin : Origin) (ms : Members) : Option Members :=
    if (origin == .dotted) == steps.isEmpty ∨ (ms.find? key).isSome then none
    else some (ms.set key v)
  changeAt .dotted add steps origin ms

/-- Define the table of a header that stands at a place. A table that was only a step of a path
before comes about anew. -/
def addHeader (path : Path) (place : Place) (root : Members) : Option Members := do
  let (steps, key) ← splitLast? path
  let add (_ : Origin) (ms : Members) : Option Members :=
    match ms.find? key with
    | none => some (ms.set key ⟨place, .table .header []⟩)
    | some ⟨_, .table .path inner⟩ =>
      some ((ms.erase key).set key ⟨place, .table .header inner⟩)
    | some _ => none
  changeAt .path add steps .header root

/-- Begin a row of the tables of a header that stands at a place. -/
def addRow (path : Path) (place : Place) (root : Members) : Option Members := do
  let (steps, key) ← splitLast? path
  let add (_ : Origin) (ms : Members) : Option Members :=
    match ms.find? key with
    | none => some (ms.set key ⟨place, .rows [[]]⟩)
    | some ⟨first, .rows tables⟩ => some (ms.set key ⟨first, .rows (tables ++ [[]])⟩)
    | some _ => none
  changeAt .path add steps .header root

/-- Give a dotted key a value in the table of a header that was defined before. -/
def addUnder (header path : Path) (v : Placed Toml) (root : Members) : Option Members :=
  changeAt .path (addEntry path v) header .header root

end JavaMinus.Toml
