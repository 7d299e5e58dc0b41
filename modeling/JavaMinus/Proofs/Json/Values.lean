import JavaMinus.Json.Reader
import JavaMinus.Json.Record
import JavaMinus.Proofs.Json.Tokens

/-!
# Reading what was printed

An exact value that nests no deeper than documents are read is what is read from its text, in either
layout (`document?_compact`, `document?_pretty`).

In front of the tokens of a value the reader waits for one, and behind them it has received that value,
whatever it holds open and whatever comes next (`run_tokens`). Items and members come to the reader
last first, in front of those that it holds.
-/

namespace JavaMinus.Json

/-! ## From tokens to values -/

theorem Place.run_cons {p next : Place} {t : Token} {rest : List Token} (h : p.step t = some next) :
    p.run (t :: rest) = next.run rest := by
  rw [run, h]

/-- The tokens of a value start with one that does not close an array. -/
theorem tokens_eq_cons (v : Json) : ∃ t rest, v.tokens = t :: rest ∧ t ≠ .closeArray := by
  cases v <;> exact ⟨_, _, rfl, nofun⟩

/-- Behind an opening bracket a value is read as one behind a comma. -/
theorem run_firstItem (v : Json) (stack : List Frame) (rest : List Token) :
    Place.run (.firstItem stack) (v.tokens ++ rest) =
      Place.run (.value (.arr [] :: stack)) (v.tokens ++ rest) := by
  obtain ⟨t, tail, htokens, ht⟩ := tokens_eq_cons v
  have same : Place.step (.firstItem stack) t = Place.step (.value (.arr [] :: stack)) t := by
    cases t <;> first | rfl | exact absurd rfl ht
  rw [htokens, List.cons_append, Place.run, Place.run, same]

mutual
/-- Where a value is expected, its tokens give that value. -/
theorem run_tokens : ∀ (v : Json) (stack : List Frame) (rest : List Token), v.isExact = true →
    Place.run (.value stack) (v.tokens ++ rest) = Place.run (receive v stack) rest
  | .null, _, _, _ | .bool _, _, _, _ | .int _, _, _, _ | .str _, _, _, _ => rfl
  | .arr [], _, _, _ | .obj [], _, _, _ => rfl
  | .arr (v :: items), stack, rest, h => by
    have inner := run_items (v :: items) (List.cons_ne_nil v items) [] stack rest h
    have opened : Place.step (.value stack) .openArray = some (.firstItem stack) := rfl
    rw [tokens, List.cons_append, Place.run_cons opened, List.append_assoc, List.singleton_append]
    cases items with
    | nil =>
      rw [itemTokens, itemTokens, List.intercalate_singleton] at inner ⊢
      rw [run_firstItem, inner]
      rfl
    | cons w items =>
      rw [itemTokens, itemTokens, List.intercalate_cons_cons, List.append_assoc,
        List.append_assoc] at inner ⊢
      rw [run_firstItem, inner]
      rfl
  | .obj ((k, v) :: members), stack, rest, h => by
    have inner := run_members ((k, v) :: members) (List.cons_ne_nil _ members) [] stack rest h
    have opened : Place.step (.value stack) .openObject = some (.firstKey stack) := rfl
    rw [tokens, List.cons_append, Place.run_cons opened, List.append_assoc, List.singleton_append]
    -- The first token is a key, and a brace behind an opening one differs only from a closing one.
    cases members with
    | nil => exact inner
    | cons m members => exact inner
/-- Items in front of a closing bracket go into the array that is open. -/
theorem run_items : ∀ (items : List Json), items ≠ [] → ∀ (held : List Json) (stack : List Frame)
    (rest : List Token), areExact items = true →
    Place.run (.value (.arr held :: stack))
        ([.comma].intercalate (itemTokens items) ++ .closeArray :: rest) =
      Place.run (receive (.arr (held.reverse ++ items)) stack) rest
  | [], h, _, _, _, _ => absurd rfl h
  | [v], _, held, stack, rest, h => by
    have hv : v.isExact = true := (Bool.and_eq_true_iff.mp h).1
    have closed : Place.step (receive v (.arr held :: stack)) .closeArray =
        some (receive (.arr (v :: held).reverse) stack) := rfl
    rw [itemTokens, itemTokens, List.intercalate_singleton, run_tokens v _ _ hv,
      Place.run_cons closed, List.reverse_cons]
  | v :: w :: items, _, held, stack, rest, h => by
    obtain ⟨hv, hrest⟩ := Bool.and_eq_true_iff.mp h
    have next : Place.step (receive v (.arr held :: stack)) .comma =
        some (.value (.arr (v :: held) :: stack)) := rfl
    have behind := run_items (w :: items) (List.cons_ne_nil w items) (v :: held) stack rest hrest
    rw [itemTokens] at behind
    rw [itemTokens, itemTokens, List.intercalate_cons_cons, List.append_assoc, List.append_assoc,
      run_tokens v _ _ hv, List.singleton_append, Place.run_cons next, behind, List.reverse_cons,
      List.append_assoc]
    rfl
/-- Members in front of a closing brace go into the object that is open. -/
theorem run_members : ∀ (members : List (String × Json)), members ≠ [] →
    ∀ (held : List (String × Json)) (stack : List Frame) (rest : List Token),
    membersExact members = true →
    Place.run (.key stack (some held))
        ([.comma].intercalate (memberTokens members) ++ .closeObject :: rest) =
      Place.run (receive (.obj (held.reverse ++ members)) stack) rest
  | [], h, _, _, _, _ => absurd rfl h
  | [(k, v)], _, held, stack, rest, h => by
    have hv : v.isExact = true := (Bool.and_eq_true_iff.mp h).1
    have named : Place.step (.key stack (some held)) (.str k) =
        some (.colon stack (some held) (some k)) := rfl
    have started : Place.step (.colon stack (some held) (some k)) .colon =
        some (.value (.obj (some held) (some k) :: stack)) := rfl
    have closed : Place.step (receive v (.obj (some held) (some k) :: stack)) .closeObject =
        some (receive (.obj ((k, v) :: held).reverse) stack) := rfl
    rw [memberTokens, memberTokens, List.intercalate_singleton, List.cons_append, List.cons_append,
      Place.run_cons named, Place.run_cons started, run_tokens v _ _ hv, Place.run_cons closed,
      List.reverse_cons]
  | (k, v) :: w :: members, _, held, stack, rest, h => by
    obtain ⟨hv, hrest⟩ := Bool.and_eq_true_iff.mp h
    have named : Place.step (.key stack (some held)) (.str k) =
        some (.colon stack (some held) (some k)) := rfl
    have started : Place.step (.colon stack (some held) (some k)) .colon =
        some (.value (.obj (some held) (some k) :: stack)) := rfl
    have next : Place.step (receive v (.obj (some held) (some k) :: stack)) .comma =
        some (.key stack (some ((k, v) :: held))) := rfl
    have behind := run_members (w :: members) (List.cons_ne_nil w members) ((k, v) :: held) stack rest
      hrest
    rw [memberTokens] at behind
    rw [memberTokens, memberTokens, List.intercalate_cons_cons, List.append_assoc, List.append_assoc,
      List.cons_append, List.cons_append, Place.run_cons named, Place.run_cons started,
      run_tokens v _ _ hv, List.singleton_append, Place.run_cons next, behind, List.reverse_cons,
      List.append_assoc]
    rfl
end

/-- The tokens of an exact value spell that value. -/
theorem ofTokens?_tokens {v : Json} (h : v.isExact = true) : ofTokens? v.tokens = some v := by
  have read := run_tokens v [] [] h
  rw [List.append_nil] at read
  rw [ofTokens?, read]
  rfl

/-! ## Documents -/

mutual
/-- A value that nests no deeper than it is read is read whole. -/
theorem limit_of_depth_le : ∀ (v : Json) {d : Nat}, v.depth ≤ d → v.limit d = v
  | .null, d, _ | .bool _, d, _ | .int _, d, _ | .real _, d, _ | .str _, d, _ | .unreadable, d, _ => by
    cases d <;> rfl
  | .arr items, 0, h | .obj items, 0, h => absurd h (Nat.not_succ_le_zero _)
  | .arr items, d + 1, h => by
    rw [limit, limitItems_of_depth_le items (Nat.le_of_succ_le_succ h)]
  | .obj members, d + 1, h => by
    rw [limit, limitMembers_of_depth_le members (Nat.le_of_succ_le_succ h)]
theorem limitItems_of_depth_le : ∀ (items : List Json) {d : Nat}, depthOfItems items ≤ d →
    limitItems d items = items
  | [], _, _ => rfl
  | v :: rest, d, h => by
    obtain ⟨hv, hrest⟩ := Nat.max_le.mp h
    rw [limitItems, limit_of_depth_le v hv, limitItems_of_depth_le rest hrest]
theorem limitMembers_of_depth_le : ∀ (members : List (String × Json)) {d : Nat},
    depthOfMembers members ≤ d → limitMembers d members = members
  | [], _, _ => rfl
  | (k, v) :: rest, d, h => by
    obtain ⟨hv, hrest⟩ := Nat.max_le.mp h
    rw [limitMembers, limit_of_depth_le v hv, limitMembers_of_depth_le rest hrest]
end

variable {v : Json}

/-- What is read of a text that has the tokens of a value. -/
theorem document?_of_tokens {text : String} (ht : tokens? text = some v.tokens) (h : v.isExact = true)
    (deep : v.depth ≤ documentDepth) : document? text = some v := by
  rw [document?, parse?, ht, Option.bind_some, ofTokens?_tokens h, Option.map_some,
    limit_of_depth_le v deep]

/-- Documents are written as any of the layouts. -/
theorem document?_compact (h : v.isExact = true) (deep : v.depth ≤ documentDepth) :
    document? v.compact = some v := document?_of_tokens (tokens?_compact h) h deep

theorem document?_pretty (h : v.isExact = true) (deep : v.depth ≤ documentDepth) :
    document? v.pretty = some v := document?_of_tokens (tokens?_pretty h) h deep

mutual
/-- Nothing in an exact value is unreadable. -/
theorem isReadable_of_isExact : ∀ v : Json, v.isExact = true → v.isReadable = true
  | .null, _ | .bool _, _ | .int _, _ | .str _, _ => rfl
  | .arr items, h => areReadable_of_areExact items h
  | .obj members, h => membersReadable_of_membersExact members h
theorem areReadable_of_areExact : ∀ items : List Json, areExact items = true →
    areReadable items = true
  | [], _ => rfl
  | v :: rest, h =>
    have ⟨hv, hrest⟩ := Bool.and_eq_true_iff.mp h
    Bool.and_eq_true_iff.mpr ⟨isReadable_of_isExact v hv, areReadable_of_areExact rest hrest⟩
theorem membersReadable_of_membersExact : ∀ members : List (String × Json),
    membersExact members = true → membersReadable members = true
  | [], _ => rfl
  | (_, v) :: rest, h =>
    have ⟨hv, hrest⟩ := Bool.and_eq_true_iff.mp h
    Bool.and_eq_true_iff.mpr ⟨isReadable_of_isExact v hv, membersReadable_of_membersExact rest hrest⟩
end

end JavaMinus.Json
