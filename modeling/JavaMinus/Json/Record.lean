import JavaMinus.Json.Value

/-!
# Records in JSON

How documents spell values with named parts. A record is an object with a member for each part, in
any order and among members that mean nothing, or an array of the parts in their declared order of
which trailing ones may be missing. A part may not be given twice.

A value of one of several kinds is a record with the kind as a further member, or an array with the
kind in front. Inside such a value, kinds are spelled more freely: by position as well as by name,
and with an empty object for the `null` of a kind without parts.
-/

namespace JavaMinus.Json

/-- The only value that members give to a key; no value if none does, a refusal if several do. -/
def unique? (key : String) (members : List (String × Json)) : Option (Option Json) :=
  match members.filter fun m => m.1 == key with
  | [] => some none
  | [m] => some (some m.2)
  | _ => none

/-- The parts of a record, one for each name and in the order of the names. -/
def record? (names : List String) : Json → Option (List (Option Json))
  | .obj members => names.mapM fun name => unique? name members
  | .arr items =>
    if items.length ≤ names.length then
      some (items.map some ++ List.replicate (names.length - items.length) none)
    else none
  | _ => none

/-- A part that must be given. -/
def required? {α : Type} (f : Json → Option α) (part : Option Json) : Option α := part.bind f

/-- A part with a default. -/
def default? {α : Type} (f : Json → Option α) (default : α) : Option Json → Option α
  | none => some default
  | some v => f v

/-- A part that may be missing or `null`. -/
def optional? {α : Type} (f : Json → Option α) : Option Json → Option (Option α)
  | none => some none
  | some .null => some none
  | some v => (f v).map some

def string? : Json → Option String
  | .str s => some s
  | _ => none

def bool? : Json → Option Bool
  | .bool b => some b
  | _ => none

def list? {α : Type} (f : Json → Option α) : Json → Option (List α)
  | .arr items => items.mapM f
  | _ => none

/-- An integer between two bounds, both included. -/
def intWithin? (low high : Int) : Json → Option Int
  | .int i => if low ≤ i ∧ i ≤ high then some i else none
  | _ => none

def int32? (v : Json) : Option Int32 := (v.intWithin? (-2147483648) 2147483647).map Int32.ofInt

def uint32? (v : Json) : Option UInt32 :=
  (v.intWithin? 0 4294967295).map fun i => UInt32.ofNat i.toNat

def uint64? (v : Json) : Option UInt64 :=
  (v.intWithin? 0 18446744073709551615).map fun i => UInt64.ofNat i.toNat

/-- The name of a kind, spelled by name or, inside a value that has a kind, by position. -/
def kindName? (inside : Bool) (kinds : List String) : Json → Option String
  | .str name => if name ∈ kinds then some name else none
  | .int i => if inside ∧ 0 ≤ i then kinds[i.toNat]? else none
  | _ => none

/-- The kind of a value, and the record of its parts. -/
def kinded? (inside : Bool) (kinds : List String) : Json → Option (String × Json)
  | .obj members => do
    let kind ← required? (kindName? inside kinds) (← unique? "kind" members)
    return (kind, .obj members)
  | .arr (first :: rest) => do return (← kindName? inside kinds first, .arr rest)
  | _ => none

/-- What a kind without parts may be given as its parts. -/
def isNothing (inside : Bool) : Json → Bool
  | .null => true
  | .obj [] => inside
  | _ => false

/-- One of several kinds without parts: its name, or an object with the name as its only key. -/
def word? (inside : Bool) : Json → Option String
  | .str name => some name
  | .obj [(name, v)] => if v.isNothing inside then some name else none
  | _ => none

mutual
/-- How deeply arrays and objects nest. -/
def depth : Json → Nat
  | .arr items => depthOfItems items + 1
  | .obj members => depthOfMembers members + 1
  | _ => 0
def depthOfItems : List Json → Nat
  | [] => 0
  | v :: rest => max (depth v) (depthOfItems rest)
def depthOfMembers : List (String × Json) → Nat
  | [] => 0
  | (_, v) :: rest => max (depth v) (depthOfMembers rest)
end

end JavaMinus.Json
