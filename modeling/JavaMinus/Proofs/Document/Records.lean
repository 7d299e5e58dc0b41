import JavaMinus.Proofs.Json.Values

/-!
# Records that were written

A record is written as an object with a member for each part, and so the parts are read in the order of
their names (`record?_obj`); behind the member that names a kind they are read as well
(`record?_kinded`, `kinded?_obj`). A form loses nothing (`Lossless`) if it writes exact values and
reads from each what was written; lists of such values, and values that may be missing, are read back
too.
-/

namespace JavaMinus.Json

/-! ## Parts of an object -/

section
variable {members : List (String × Json)} {key : String} {v : Json}

/-- Where no key is given twice, a member that is given is the only one of its key. -/
theorem unique?_of_mem (keys : (members.map Prod.fst).Nodup) (h : (key, v) ∈ members) :
    unique? key members = some (some v) := by
  have only : members.filter (fun m => m.1 == key) = [(key, v)] := by
    induction members with
    | nil => cases h
    | cons m rest ih =>
      obtain ⟨fresh, hrest⟩ := List.nodup_cons.mp keys
      rcases List.mem_cons.mp h with rfl | h
      · have none : rest.filter (fun m => m.1 == key) = [] := by
          refine List.filter_eq_nil_iff.mpr fun m hm heq => fresh ?_
          exact List.mem_map.mpr ⟨m, hm, beq_iff_eq.mp heq⟩
        rw [List.filter_cons, if_pos (beq_self_eq_true key), none]
      · have apart : ¬ (m.1 == key) = true := fun heq => fresh (by
          rw [beq_iff_eq.mp heq]
          exact List.mem_map_of_mem h)
        rw [List.filter_cons, if_neg apart, ih hrest h]
  rw [unique?, only]

/-- Some of the parts of an object, in any order. -/
theorem record?_of_subset {parts : List (String × Json)} (keys : (members.map Prod.fst).Nodup)
    (h : ∀ p ∈ parts, p ∈ members) :
    (Json.obj members).record? (parts.map Prod.fst) = some (parts.map fun p => some p.2) := by
  show (parts.map Prod.fst).mapM (fun name => unique? name members) = _
  induction parts with
  | nil => rfl
  | cons p rest ih =>
    obtain ⟨hp, hrest⟩ := List.forall_mem_cons.mp h
    rw [List.map_cons, List.mapM_cons, unique?_of_mem keys hp, ih hrest]
    rfl

/-- All parts of an object, in order. -/
theorem record?_obj (keys : (members.map Prod.fst).Nodup) :
    (Json.obj members).record? (members.map Prod.fst) = some (members.map fun p => some p.2) :=
  record?_of_subset keys fun _ h => h

/-- The parts behind a kind. -/
theorem record?_kinded {kind : Json} (keys : ("kind" :: members.map Prod.fst).Nodup) :
    (Json.obj (("kind", kind) :: members)).record? (members.map Prod.fst) =
      some (members.map fun p => some p.2) :=
  record?_of_subset keys fun _ h => List.mem_cons_of_mem _ h

/-- A kind is read from the member in front. -/
theorem kinded?_obj {inside : Bool} {kinds : List String} {name : String} (named : name ∈ kinds)
    (keys : ("kind" :: members.map Prod.fst).Nodup) :
    (Json.obj (("kind", .str name) :: members)).kinded? inside kinds =
      some (name, .obj (("kind", .str name) :: members)) := by
  have kind : unique? "kind" (("kind", .str name) :: members) = some (some (.str name)) :=
    unique?_of_mem keys List.mem_cons_self
  rw [kinded?, kind]
  simp [required?, kindName?, named]

end

/-! ## Forms that lose nothing -/

/-- A form that writes exact values and reads what it wrote. -/
structure Lossless {α : Type} (toJson : α → Json) (ofJson? : Json → Option α) : Prop where
  exact : ∀ a, (toJson a).isExact = true
  reads : ∀ a, ofJson? (toJson a) = some a

section
variable {α : Type} {toJson : α → Json} {ofJson? : Json → Option α}

theorem areExact_iff {items : List Json} : areExact items = true ↔ ∀ v ∈ items, v.isExact = true := by
  induction items with
  | nil => simp [areExact]
  | cons v rest ih => rw [areExact, Bool.and_eq_true, ih, List.forall_mem_cons]

/-- Values that are read back one by one are read back as a list. -/
theorem list?_map {values : List α} (h : ∀ a ∈ values, ofJson? (toJson a) = some a) :
    list? ofJson? (.arr (values.map toJson)) = some values := by
  show (values.map toJson).mapM ofJson? = some values
  induction values with
  | nil => rfl
  | cons a rest ih =>
    obtain ⟨ha, hrest⟩ := List.forall_mem_cons.mp h
    rw [List.map_cons, List.mapM_cons, ha, ih hrest]
    rfl

/-- Anything but `null` is read as a value that is there. -/
theorem optional?_of_ne_null {v : Json} (h : v ≠ .null) :
    optional? ofJson? (some v) = (ofJson? v).map some := by
  cases v <;> first | rfl | exact absurd rfl h

namespace Lossless

theorem areExact_map (h : Lossless toJson ofJson?) (values : List α) :
    areExact (values.map toJson) = true :=
  areExact_iff.mpr (List.forall_mem_map.mpr fun a _ => h.exact a)

theorem list (h : Lossless toJson ofJson?) :
    Lossless (fun values => Json.arr (values.map toJson)) (list? ofJson?) where
  exact := h.areExact_map
  reads _ := list?_map fun a _ => h.reads a

theorem exact_ofOption (h : Lossless toJson ofJson?) (a : Option α) :
    (ofOption toJson a).isExact = true := by
  cases a with
  | none => rfl
  | some a => exact h.exact a

/-- A value that may be missing is read back, if no value is written as `null`. -/
theorem optional (h : Lossless toJson ofJson?) (written : ∀ a, toJson a ≠ .null) (a : Option α) :
    optional? ofJson? (some (ofOption toJson a)) = some a := by
  cases a with
  | none => rfl
  | some a =>
    show optional? ofJson? (some (toJson a)) = _
    rw [optional?_of_ne_null (written a), h.reads]
    rfl

end Lossless

end

theorem lossless_string : Lossless Json.str string? := ⟨fun _ => rfl, fun _ => rfl⟩

theorem lossless_strings : Lossless ofStrings (list? string?) := lossless_string.list

/-! ## Integers -/

theorem intWithin?_eq {low high i : Int} (h : low ≤ i ∧ i ≤ high) :
    intWithin? low high (.int i) = some i := if_pos h

theorem isExact_int {i : Int} (h : i.natAbs < 18446744073709551616) : (Json.int i).isExact = true :=
  decide_eq_true h

theorem lossless_int32 : Lossless (fun i : Int32 => .int i.toInt) int32? where
  exact i := by
    have low := i.le_toInt
    have high := i.toInt_lt
    exact isExact_int (by omega)
  reads i := by
    have low := i.le_toInt
    have high := i.toInt_lt
    rw [int32?, intWithin?_eq ⟨by omega, by omega⟩, Option.map_some, Int32.ofInt_toInt]

theorem lossless_uint64 : Lossless (fun n : UInt64 => ofNat n.toNat) uint64? where
  exact n := by
    have high := n.toNat_lt
    exact isExact_int (by omega)
  reads n := by
    have high := n.toNat_lt
    rw [uint64?, ofNat, intWithin?_eq ⟨by omega, by omega⟩, Option.map_some, Int.toNat_natCast,
      UInt64.ofNat_toNat]

theorem lossless_uint32 : Lossless (fun n : UInt32 => ofNat n.toNat) uint32? where
  exact n := by
    have high := n.toNat_lt
    exact isExact_int (by omega)
  reads n := by
    have high := n.toNat_lt
    rw [uint32?, ofNat, intWithin?_eq ⟨by omega, by omega⟩, Option.map_some, Int.toNat_natCast,
      UInt32.ofNat_toNat]

/-! ## Nesting -/

/-- What is in an object nests less deep than the object. -/
theorem depth_le_of_member {members : List (String × Json)} {d : Nat} (key : String) (v : Json)
    (h : (key, v) ∈ members) (deep : (Json.obj members).depth ≤ d + 1) : v.depth ≤ d := by
  have inside : v.depth ≤ depthOfMembers members := by
    induction members with
    | nil => cases h
    | cons m rest ih =>
      rcases List.mem_cons.mp h with rfl | h
      · exact Nat.le_max_left _ _
      · exact Nat.le_trans (ih h (Nat.le_trans (Nat.succ_le_succ (Nat.le_max_right _ _)) deep))
          (Nat.le_max_right _ _)
  exact Nat.le_trans inside (Nat.le_of_succ_le_succ deep)

theorem depthOfItems_le_of_member {members : List (String × Json)} {d : Nat} (key : String)
    (items : List Json) (h : (key, Json.arr items) ∈ members)
    (deep : (Json.obj members).depth ≤ d + 1) : depthOfItems items ≤ d :=
  Nat.le_of_succ_le (depth_le_of_member key (.arr items) h deep)

end JavaMinus.Json
