import Mathlib.Data.List.Nodup
import JavaMinus.Jvm.SlotTable
import JavaMinus.Proofs.Typing.Sites

/-!
# Slots are given soundly

Allocation fails only when slots run out. Otherwise every key that was asked for has a slot, no two
keys share one, and slots lie between the first free slot of the method and the limit
(`SlotTable.Sound`). Keys that are asked for in order and are all different get consecutive slots,
which is how parameters come to lie where the caller puts them (`SlotTable.slot_of_param`).
-/

namespace JavaMinus.Jvm

open Tac

namespace SlotTable

/-- Slots start at `base`, end before the limit, and belong to one key each. -/
structure Sound (base : Nat) (t : SlotTable) : Prop where
  base_le : ∀ {key : SlotKey} {n : Nat}, t.slots[key]? = some n → base ≤ n
  lt_limit : ∀ {key : SlotKey} {n : Nat}, t.slots[key]? = some n → n < t.limit
  base_le_limit : base ≤ t.limit
  injective : ∀ {key key' : SlotKey} {n : Nat}, t.slots[key]? = some n →
    t.slots[key']? = some n → key = key'

/-- A table that keeps the slots of another. -/
def Extends (t t' : SlotTable) : Prop :=
  ∀ {key : SlotKey} {n : Nat}, t.slots[key]? = some n → t'.slots[key]? = some n

theorem Extends.refl (t : SlotTable) : t.Extends t := id

theorem Extends.trans {t t' t'' : SlotTable} (h : t.Extends t') (h' : t'.Extends t'') :
    t.Extends t'' := fun hk => h' (h hk)

variable {base : Nat} {t t' : SlotTable}

theorem sound_empty (base : Nat) : Sound base { limit := base } where
  base_le h := by simp at h
  lt_limit h := by simp at h
  base_le_limit := Nat.le_refl base
  injective h := by simp at h

/-- A key that has no slot gets the next one. -/
theorem allocate_of_not_contains {key : SlotKey} (hk : t.slots.contains key = false)
    (h : t.allocate key = .ok t') : t' = ⟨t.slots.insert key t.limit, t.limit + 1⟩ := by
  unfold allocate at h
  rw [if_neg (by simp [hk])] at h
  split at h
  · cases h; rfl
  · cases h

theorem allocate_extends {key : SlotKey} (h : t.allocate key = .ok t') : t.Extends t' := by
  intro key' n hn
  cases hk : t.slots.contains key with
  | true =>
    rw [allocate, if_pos hk] at h
    cases h
    exact hn
  | false =>
    rw [allocate_of_not_contains hk h, Std.HashMap.getElem?_insert]
    split
    · next heq =>
      have heq : key = key' := by simpa using heq
      subst heq
      rw [Std.HashMap.contains_eq_isSome_getElem?, hn] at hk
      cases hk
    · exact hn

theorem allocate_sound {key : SlotKey} (hs : t.Sound base) (h : t.allocate key = .ok t') :
    t'.Sound base := by
  cases hk : t.slots.contains key with
  | true =>
    rw [allocate, if_pos hk] at h
    cases h
    exact hs
  | false =>
    rw [allocate_of_not_contains hk h]
    have entry : ∀ {key' : SlotKey} {n : Nat},
        (t.slots.insert key t.limit)[key']? = some n →
        (key' = key ∧ n = t.limit) ∨ t.slots[key']? = some n := by
      intro key' n hn
      rw [Std.HashMap.getElem?_insert] at hn
      split at hn
      · next heq => exact .inl ⟨(by simpa using heq : key = key').symm, by simpa using hn.symm⟩
      · exact .inr hn
    refine ⟨?_, ?_, Nat.le_succ_of_le hs.base_le_limit, ?_⟩
    · intro key' n hn
      rcases entry hn with ⟨-, rfl⟩ | hn
      · exact hs.base_le_limit
      · exact hs.base_le hn
    · intro key' n hn
      rcases entry hn with ⟨-, rfl⟩ | hn
      · exact Nat.lt_succ_self _
      · exact Nat.lt_succ_of_lt (hs.lt_limit hn)
    · intro k₁ k₂ n h₁ h₂
      rcases entry h₁ with ⟨hk₁, hn₁⟩ | h₁ <;> rcases entry h₂ with ⟨hk₂, hn₂⟩ | h₂
      · exact hk₁.trans hk₂.symm
      · exact absurd (hs.lt_limit h₂) (by omega)
      · exact absurd (hs.lt_limit h₁) (by omega)
      · exact hs.injective h₁ h₂

theorem allocate_contains {key : SlotKey} (h : t.allocate key = .ok t') :
    ∃ n, t'.slots[key]? = some n := by
  cases hk : t.slots.contains key with
  | true =>
    rw [allocate, if_pos hk] at h
    cases h
    rw [Std.HashMap.contains_eq_isSome_getElem?] at hk
    exact Option.isSome_iff_exists.mp hk
  | false =>
    rw [allocate_of_not_contains hk h]
    exact ⟨t.limit, by simp⟩

theorem allocateAll_cons {key : SlotKey} {rest : List SlotKey}
    (h : t.allocateAll (key :: rest) = .ok t') :
    ∃ next, t.allocate key = .ok next ∧ next.allocateAll rest = .ok t' := by
  rw [allocateAll] at h
  split at h
  · next next hn => exact ⟨next, hn, h⟩
  · cases h

/-- What an allocation of several keys gives: a sound table that keeps what was there and has every
key. -/
theorem allocateAll_sound : ∀ {keys : List SlotKey} {t : SlotTable}, t.Sound base →
    t.allocateAll keys = .ok t' → t'.Sound base ∧ t.Extends t' ∧
      ∀ key ∈ keys, ∃ n, t'.slots[key]? = some n
  | [], t, hs, h => by
    rw [allocateAll] at h
    cases h
    exact ⟨hs, Extends.refl _, by simp⟩
  | key :: rest, t, hs, h => by
    obtain ⟨next, hn, h⟩ := allocateAll_cons h
    obtain ⟨hs', he, hk⟩ := allocateAll_sound (allocate_sound hs hn) h
    refine ⟨hs', Extends.trans (allocate_extends hn) he, fun key' hmem => ?_⟩
    rcases List.mem_cons.mp hmem with rfl | hmem
    · obtain ⟨n, hn⟩ := allocate_contains hn
      exact ⟨n, he hn⟩
    · exact hk key' hmem

theorem allocateAll_append {keys more : List SlotKey}
    (h : t.allocateAll (keys ++ more) = .ok t') :
    ∃ next, t.allocateAll keys = .ok next ∧ next.allocateAll more = .ok t' := by
  induction keys generalizing t with
  | nil => exact ⟨t, rfl, h⟩
  | cons key rest ih =>
    obtain ⟨next, hn, h⟩ := allocateAll_cons h
    obtain ⟨last, hl, h⟩ := ih h
    exact ⟨last, by rw [allocateAll, hn]; exact hl, h⟩

/-- Different keys without slots get consecutive slots. -/
theorem allocateAll_consecutive : ∀ {keys : List SlotKey} {t : SlotTable}, t.Sound base →
    t.allocateAll keys = .ok t' → keys.Nodup → (∀ key ∈ keys, t.slots.contains key = false) →
    ∀ {i : Nat} {key : SlotKey}, keys[i]? = some key → t'.slots[key]? = some (t.limit + i)
  | [], _, _, _, _, _, _, _, hi => by simp at hi
  | first :: rest, t, hs, h, hd, hnew, i, key, hi => by
    obtain ⟨next, hn, h⟩ := allocateAll_cons h
    have hfirst := hnew first List.mem_cons_self
    have hnext := allocate_of_not_contains hfirst hn
    obtain ⟨hnotin, hd⟩ := List.nodup_cons.mp hd
    have hsn := allocate_sound hs hn
    cases i with
    | zero =>
      cases hi
      have hslot : next.slots[first]? = some t.limit := by rw [hnext]; simp
      exact (allocateAll_sound hsn h).2.1 hslot
    | succ i =>
      have hnew' : ∀ key ∈ rest, next.slots.contains key = false := by
        intro key' hmem
        have hne : first ≠ key' := fun heq => hnotin (heq ▸ hmem)
        rw [hnext, Std.HashMap.contains_insert, hnew key' (List.mem_cons_of_mem _ hmem)]
        simpa using hne
      have hlim : next.limit = t.limit + 1 := by rw [hnext]
      have := allocateAll_consecutive hsn h hd hnew' hi
      rw [this, hlim]
      congr 1
      omega

/-- Allocation stops only for want of slots. -/
theorem allocateAll_error {keys : List SlotKey} {e : RepresentationError}
    (h : t.allocateAll keys = .error e) : e = .tooManyLocals := by
  induction keys generalizing t with
  | nil => cases h
  | cons key rest ih =>
    rw [allocateAll] at h
    split at h
    · exact ih h
    · next e' he =>
      cases h
      unfold allocate at he
      split at he
      · cases he
      · split at he <;> cases he
        rfl

/-- The first slot that is not the receiver's. -/
def firstSlot (isStatic : Bool) : Nat := if isStatic then 0 else 1

/-- The slots of a method are sound, and every key of it has one. -/
theorem ofMethod_sound {m : Method} (h : ofMethod m = .ok t) :
    t.Sound (firstSlot m.isStatic) ∧ ∀ key ∈ keysOf m, ∃ n, t.slots[key]? = some n :=
  have h := allocateAll_sound (sound_empty _) h
  ⟨h.1, h.2.2⟩

/-- The slot of an operand whose key has one. -/
theorem slot_eq_ok {o : Operand} {key : SlotKey} {n : Nat} (hk : slotKey? o = some key) :
    t.slot o = .ok n ↔ t.slots[key]? = some n := by
  unfold slot
  rw [hk, Option.bind_some]
  cases t.slots[key]? <;> simp

/-- An operand that has a slot has a key. -/
theorem key_of_slot {o : Operand} {n : Nat} (h : t.slot o = .ok n) :
    ∃ key, slotKey? o = some key ∧ t.slots[key]? = some n := by
  cases hk : slotKey? o with
  | none => simp [slot, hk] at h
  | some key => exact ⟨key, rfl, (slot_eq_ok hk).mp h⟩

theorem slotKeys_of_slotKey? {o : Operand} {key : SlotKey} (h : slotKey? o = some key) :
    slotKeys o = [key] := by
  cases o <;> cases h <;> rfl

/-- The keys of operands that live in slots are theirs, one each. -/
theorem map_slotKeys {os : List Operand} (h : ∀ o ∈ os, o.isStorage = true) :
    (os.flatMap slotKeys).map some = os.map slotKey? := by
  induction os with
  | nil => rfl
  | cons o rest ih =>
    obtain ⟨ho, hrest⟩ := List.forall_mem_cons.mp h
    rw [List.flatMap_cons, List.map_append, ih hrest, List.map_cons]
    cases o <;> first | rfl | cases ho

/-- Different parameters lie in the first slots, in order. -/
theorem slot_of_param {m : Method} (h : ofMethod m = .ok t)
    (storage : ∀ o ∈ m.params, o.isStorage = true) (distinct : (m.params.map slotKey?).Nodup)
    {i : Nat} {o : Operand} (ho : m.params[i]? = some o) :
    t.slot o = .ok (firstSlot m.isStatic + i) := by
  obtain ⟨first, hfirst, hrest⟩ := allocateAll_append h
  have empty : Sound (firstSlot m.isStatic) { limit := if m.isStatic then 0 else 1 } := sound_empty _
  have hkeys := map_slotKeys storage
  have hnodup : (m.params.flatMap slotKeys).Nodup := .of_map some (hkeys ▸ distinct)
  have hkey := congrArg (·[i]?) hkeys
  simp only [List.getElem?_map, ho, Option.map_some] at hkey
  obtain ⟨key, hi, hkey⟩ := Option.map_eq_some_iff.mp hkey
  have hslot := allocateAll_consecutive empty hfirst hnodup (by simp) hi
  exact (slot_eq_ok hkey.symm).mpr
    ((allocateAll_sound (allocateAll_sound empty hfirst).1 hrest).2.1 hslot)

end SlotTable

end JavaMinus.Jvm
