import Mathlib.Data.Finset.Card
import JavaMinus.Proofs.Jvm.Emits
import JavaMinus.Proofs.Jvm.Represents

/-!
# Which slots are assigned

What `SlotTable.ofMethod` gives for a method, completely. It fails exactly when the receiver, the
parameters and the different temporaries and variables of the body need more slots than there are.
Otherwise parameters lie in the first slots in order, everything else follows in the order of its
first mention, and no slot below the limit is left out (`SlotTable.Assigns`).

Allocation and selection walk over the operands separately: allocation over `Instr.operands`, and
selection over the fields of each instruction. The first walk meets whatever the second asks for
(`MethodContext.findsSlots_piece`), so selection never fails for want of a slot; and what the
selected code reads and writes lies below the limit (`MethodContext.slots_of_select`).
-/

namespace JavaMinus.Jvm

open Tac

namespace SlotTable

variable {base : Nat} {keys : List SlotKey} {key : SlotKey} {t t' : SlotTable}

/-! ## Allocation -/

/-- The table gives the slots from `base` on to the keys, in the order in which they first occur. -/
structure Assigned (base : Nat) (keys : List SlotKey) (t : SlotTable) : Prop where
  sound : t.Sound base
  limit : t.limit = base + keys.toFinset.card
  known : ∀ key : SlotKey, (∃ n, t.slots[key]? = some n) ↔ key ∈ keys
  onto : ∀ n : Nat, base ≤ n → n < t.limit → ∃ key : SlotKey, t.slots[key]? = some n
  ordered : ∀ {key key' : SlotKey} {n n' : Nat}, t.slots[key]? = some n →
    t.slots[key']? = some n' → keys.idxOf key < keys.idxOf key' → n < n'

theorem assigned_empty (base : Nat) : Assigned base [] { limit := base } where
  sound := sound_empty base
  limit := by simp
  known key := by simp
  onto n hn hl := absurd hl (Nat.not_lt.mpr hn)
  ordered h := by simp at h

theorem Assigned.contains_iff (h : Assigned base keys t) :
    t.slots.contains key = true ↔ key ∈ keys := by
  rw [Std.HashMap.contains_eq_isSome_getElem?, Option.isSome_iff_exists, h.known]

theorem Assigned.contains_eq_false (h : Assigned base keys t) (hk : key ∉ keys) :
    t.slots.contains key = false := by
  rw [← Bool.not_eq_true, h.contains_iff]
  exact hk

/-- A key that did not occur before is one more. -/
theorem card_concat (hk : key ∉ keys) :
    (keys ++ [key]).toFinset.card = keys.toFinset.card + 1 := by
  rw [List.toFinset_append, Finset.card_union_of_disjoint (by simpa using hk)]
  rfl

/-- A key that occurs again changes nothing. -/
theorem Assigned.again (h : Assigned base keys t) (hk : key ∈ keys) :
    Assigned base (keys ++ [key]) t where
  sound := h.sound
  limit := by
    rw [h.limit, List.toFinset_append, Finset.union_eq_left.mpr (by simpa using hk)]
  known key' := by
    rw [h.known, List.mem_append, List.mem_singleton]
    exact ⟨.inl, fun | .inl hm => hm | .inr heq => heq ▸ hk⟩
  onto := h.onto
  ordered h₁ h₂ hlt := by
    rw [List.idxOf_append_of_mem ((h.known _).mp ⟨_, h₁⟩),
      List.idxOf_append_of_mem ((h.known _).mp ⟨_, h₂⟩)] at hlt
    exact h.ordered h₁ h₂ hlt

/-- The slots behind the insertion of a new key. -/
theorem Assigned.getElem?_insert (h : Assigned base keys t) (hk : key ∉ keys) (key' : SlotKey)
    (n : Nat) : (t.slots.insert key t.limit)[key']? = some n ↔
      (key' = key ∧ n = t.limit) ∨ (key' ∈ keys ∧ t.slots[key']? = some n) := by
  rw [Std.HashMap.getElem?_insert]
  split
  · next heq =>
    obtain rfl : key = key' := by simpa using heq
    simp [hk, eq_comm]
  · next hne =>
    have hne : key' ≠ key := fun heq => hne (by simp [heq])
    simp only [hne, false_and, false_or]
    exact ⟨fun hn => ⟨(h.known _).mp ⟨n, hn⟩, hn⟩, And.right⟩

/-- A key that occurs for the first time gets the slot at the limit. -/
theorem Assigned.first (h : Assigned base keys t) (hk : key ∉ keys)
    (ha : t.allocate key = .ok t') : Assigned base (keys ++ [key]) t' := by
  have hs := allocate_sound h.sound ha
  rw [allocate_of_not_contains (h.contains_eq_false hk) ha] at hs ⊢
  have entry := h.getElem?_insert hk
  refine ⟨hs, ?_, fun key' => ?_, fun n hn hl => ?_, fun {k₁ k₂ n₁ n₂} h₁ h₂ hlt => ?_⟩
  · show t.limit + 1 = _
    rw [card_concat hk, h.limit]
    rfl
  · show (∃ n, (t.slots.insert key t.limit)[key']? = some n) ↔ _
    simp only [entry, exists_or, exists_and_left, h.known, exists_eq, and_true, and_self,
      List.mem_append, List.mem_singleton]
    exact or_comm
  · rcases Nat.lt_succ_iff_lt_or_eq.mp hl with hl | rfl
    · obtain ⟨key', hkey⟩ := h.onto n hn hl
      exact ⟨key', (entry _ _).mpr (.inr ⟨(h.known _).mp ⟨n, hkey⟩, hkey⟩)⟩
    · exact ⟨key, (entry _ _).mpr (.inl ⟨rfl, rfl⟩)⟩
  · rcases (entry _ _).mp h₁ with ⟨rfl, -⟩ | ⟨hm₁, h₁⟩
    -- the new key occurs last, so no key occurs behind it
    · rw [List.idxOf_append_of_notMem hk] at hlt
      rcases (entry _ _).mp h₂ with ⟨rfl, -⟩ | ⟨hm₂, -⟩
      · rw [List.idxOf_append_of_notMem hk] at hlt
        exact absurd hlt (Nat.lt_irrefl _)
      · rw [List.idxOf_append_of_mem hm₂] at hlt
        have := List.idxOf_lt_length_of_mem hm₂
        omega
    · rcases (entry _ _).mp h₂ with ⟨-, rfl⟩ | ⟨hm₂, h₂⟩
      · exact h.sound.lt_limit h₁
      · rw [List.idxOf_append_of_mem hm₁, List.idxOf_append_of_mem hm₂] at hlt
        exact h.ordered h₁ h₂ hlt

/-- What one allocation does: the key joins those assigned, or it is one too many. -/
theorem Assigned.allocate (h : Assigned base keys t) (hl : t.limit ≤ wordLimit) (key : SlotKey) :
    (∃ t', t.allocate key = .ok t' ∧ Assigned base (keys ++ [key]) t' ∧ t'.limit ≤ wordLimit) ∨
      (t.allocate key = .error .tooManyLocals ∧
        wordLimit < base + (keys ++ [key]).toFinset.card) := by
  by_cases hk : key ∈ keys
  · exact .inl ⟨t, by rw [SlotTable.allocate, if_pos (h.contains_iff.mpr hk)], h.again hk, hl⟩
  · have hnew := h.contains_eq_false hk
    by_cases hroom : t.limit < wordLimit
    · have ha : t.allocate key = .ok ⟨t.slots.insert key t.limit, t.limit + 1⟩ := by
        rw [SlotTable.allocate, if_neg (by simp [hnew]), if_pos hroom]
      exact .inl ⟨_, ha, h.first hk ha, hroom⟩
    · refine .inr ⟨by rw [SlotTable.allocate, if_neg (by simp [hnew]), if_neg hroom], ?_⟩
      have := h.limit
      rw [card_concat hk]
      omega

/-- What the allocation of several keys does, by induction over them. -/
theorem Assigned.allocateAll (more : List SlotKey) {keys : List SlotKey} {t : SlotTable}
    (h : Assigned base keys t) (hl : t.limit ≤ wordLimit) :
    (∃ t', t.allocateAll more = .ok t' ∧ Assigned base (keys ++ more) t' ∧ t'.limit ≤ wordLimit) ∨
      (t.allocateAll more = .error .tooManyLocals ∧
        wordLimit < base + (keys ++ more).toFinset.card) := by
  induction more generalizing keys t with
  | nil => exact .inl ⟨t, rfl, by rwa [List.append_nil], hl⟩
  | cons key rest ih =>
    rw [List.append_cons]
    rcases h.allocate hl key with ⟨next, ha, h, hl⟩ | ⟨ha, hfull⟩
    · rw [SlotTable.allocateAll, ha]
      exact ih h hl
    · refine .inr ⟨by rw [SlotTable.allocateAll, ha], hfull.trans_le ?_⟩
      have : (keys ++ [key]).toFinset ⊆ (keys ++ [key] ++ rest).toFinset := fun k hk =>
        List.mem_toFinset.mpr (List.mem_append_left _ (List.mem_toFinset.mp hk))
      exact Nat.add_le_add_left (Finset.card_le_card this) _

end SlotTable

/-! ## Selection finds the slots -/

/-- A step does not fail for want of a slot. -/
def FindsSlots {α : Type} (r : Result α) : Prop := ∀ o, r ≠ .error (.noSlot o)

namespace FindsSlots

variable {α β : Type}

theorem ok (a : α) : FindsSlots (.ok a : Result α) := fun _ h => nomatch h

/-- A step that fails for another reason. -/
theorem error {e : RepresentationError} (h : ∀ o, e ≠ .noSlot o) :
    FindsSlots (.error e : Result α) := fun o he => h o (Except.error.inj he)

theorem bind {r : Result α} {f : α → Result β} (h : FindsSlots r) (hf : ∀ a, FindsSlots (f a)) :
    FindsSlots (r >>= f) := by
  cases r with
  | ok a => exact hf a
  | error e => exact fun o he => h o (congrArg Except.error (Except.error.inj he))

theorem ite {c : Prop} [Decidable c] {r r' : Result α} (h : FindsSlots r) (h' : FindsSlots r') :
    FindsSlots (if c then r else r') := by
  split
  · exact h
  · exact h'

theorem mapM {f : α → Result β} {as : List α} (h : ∀ a ∈ as, FindsSlots (f a)) :
    FindsSlots (as.mapM f) := by
  induction as with
  | nil => exact ok []
  | cons a rest ih =>
    obtain ⟨ha, hrest⟩ := List.forall_mem_cons.mp h
    rw [List.mapM_cons]
    exact ha.bind fun _ => (ih hrest).bind fun _ => ok _

end FindsSlots

theorem findsSlots_valueKind (ty : Ty) : FindsSlots (valueKind ty) :=
  .ite (.error fun _ h => by cases h) (.ok _)

theorem findsSlots_arrayKind (ty : Ty) : FindsSlots (arrayKind ty) :=
  .ite (.error fun _ h => by cases h) (.ite (.ok _) (.ite (.ok _) (.ok _)))

theorem findsSlots_arithmetic (op : BinaryOp) : FindsSlots (arithmetic op) := by
  cases op <;> intro o h <;> cases h

theorem findsSlots_comparison (op : BinaryOp) : FindsSlots (comparison op) := by
  cases op <;> intro o h <;> cases h

theorem findsSlots_compareJump (op : BinaryOp) (left right : Ty) (target : String) :
    FindsSlots (compareJump op left right target) :=
  (findsSlots_comparison op).bind fun _ =>
    .ite (.ite (.ok _) (.error fun _ h => by cases h)) (.ok _)

theorem findsSlots_descriptor (names : ClassNames) (ty : Ty) : FindsSlots (names.descriptor ty) :=
  .ite (.ite (.error fun _ h => by cases h) (.ok _)) (.ok _)

theorem findsSlots_methodDescriptor (names : ClassNames) (params : List Ty) (returnTy : Ty) :
    FindsSlots (names.methodDescriptor params returnTy) :=
  (FindsSlots.mapM fun ty _ => .ite (.error fun _ h => by cases h)
    (findsSlots_descriptor names ty)).bind fun _ =>
      (findsSlots_descriptor names returnTy).bind fun _ => .ok _

/-- Every key inside the operand has a slot. -/
def SlotTable.Has (t : SlotTable) (o : Operand) : Prop :=
  ∀ key ∈ slotKeys o, ∃ n, t.slots[key]? = some n

theorem SlotTable.Has.slot {t : SlotTable} {o : Operand} (h : t.Has o) (hs : o.isStorage = true) :
    FindsSlots (t.slot o) := by
  obtain ⟨key, hkey⟩ : ∃ key, slotKey? o = some key := by
    cases o <;> first | exact ⟨_, rfl⟩ | cases hs
  obtain ⟨n, hn⟩ := h key (by simp [SlotTable.slotKeys_of_slotKey? hkey])
  rw [(SlotTable.slot_eq_ok hkey).mpr hn]
  exact .ok n

namespace MethodContext

variable {x : MethodContext} {n : Nat}

theorem findsSlots_load {o : Operand} (h : x.slots.Has o) : FindsSlots (x.load o) := by
  induction o with
  | temp id ty => exact (findsSlots_valueKind ty).bind fun _ => (h.slot rfl).bind fun _ => .ok _
  | var name ty => exact (findsSlots_valueKind ty).bind fun _ => (h.slot rfl).bind fun _ => .ok _
  | self ty => exact .ite (.error fun _ h => by cases h) (.ok _)
  | classRef name ty => exact .error fun _ h => by cases h
  | intLit value ty => exact .ok _
  | boolLit value ty => exact .ok _
  | element array index ty iha ihi =>
    exact (findsSlots_arrayKind array.ty).bind fun _ =>
      (iha fun key hk => h key (List.mem_append_left _ hk)).bind fun _ =>
        (ihi fun key hk => h key (List.mem_append_right _ hk)).bind fun _ => .ok _

theorem findsSlots_loadAll {os : List Operand} (h : ∀ o ∈ os, x.slots.Has o) :
    FindsSlots (x.loadAll os) :=
  (FindsSlots.mapM fun o ho => findsSlots_load (h o ho)).bind fun _ => .ok _

theorem findsSlots_store {dest : Operand} (h : x.slots.Has dest) : FindsSlots (x.store dest) := by
  unfold store
  split
  · exact .error fun _ h => by cases h
  · next hs =>
    exact (findsSlots_valueKind dest.ty).bind fun _ =>
      (h.slot (by simpa using hs)).bind fun _ => .ok _

theorem findsSlots_receiver {kind : CallKind} {on : Operand} {method : String}
    (h : x.slots.Has on) : FindsSlots (x.receiver kind on method) := by
  unfold receiver
  split
  · exact (findsSlots_load h).bind fun _ => .ok _
  · exact .error fun _ h => by cases h
  · exact .ok _
  · exact .error fun _ h => by cases h
  · exact .ite (.error fun _ h => by cases h) ((findsSlots_load h).bind fun _ => .ok _)

theorem findsSlots_result {dest : Option Operand} {method : String} {returns : Bool}
    (h : ∀ o ∈ dest, x.slots.Has o) : FindsSlots (x.result dest method returns) := by
  cases dest with
  | none => exact .ok _
  | some dest => exact .ite (findsSlots_store (h dest rfl)) (.error fun _ h => by cases h)

theorem findsSlots_call {dest : Option Operand} {kind : CallKind} {on : Operand} {method : String}
    {args : List Operand} {ty : Ty} (hd : ∀ o ∈ dest, x.slots.Has o)
    (hs : ∀ o ∈ on :: args, x.slots.Has o) : FindsSlots (x.call dest kind on method args ty) := by
  obtain ⟨hon, hargs⟩ := List.forall_mem_cons.mp hs
  refine (findsSlots_receiver hon).bind fun found => ?_
  obtain ⟨invoke, owner, object⟩ := found
  refine (findsSlots_loadAll hargs).bind fun _ => (findsSlots_methodDescriptor _ _ _).bind fun _ => ?_
  dsimp only
  split
  · exact .error fun _ h => by cases h
  · exact (findsSlots_result hd).bind fun _ => .ok _

theorem findsSlots_newArray (element : Ty) : FindsSlots (x.newArray element) :=
  .ite (.ok _) (.ite (.ok _) (.ite (.error fun _ h => by cases h) (.ok _)))

/-- Selection of a piece finds a slot for whatever it loads and stores, where the operands that the
piece mentions have slots. -/
theorem findsSlots_piece {p : Piece} (h : ∀ o ∈ p.operands, x.slots.Has o) :
    FindsSlots (x.piece n p) := by
  cases p with
  | newObject dest className =>
    exact (findsSlots_store (h dest (by simp [Piece.operands]))).bind fun _ => .ok _
  | instr i =>
    have source {o : Operand} (ho : o ∈ i.sources) : FindsSlots (x.load o) :=
      findsSlots_load (h o (List.mem_append_right _ ho))
    have dest {o : Operand} (ho : i.dest? = some o) : FindsSlots (x.store o) :=
      findsSlots_store (h o (List.mem_append_left _ (by simp [ho])))
    cases i with
    | assign d value =>
      exact (source (by simp [Instr.sources])).bind fun _ => (dest rfl).bind fun _ => .ok _
    | binary d op left right =>
      refine (source (by simp [Instr.sources])).bind fun _ =>
        (source (by simp [Instr.sources])).bind fun _ => ?_
      dsimp only
      split
      · exact ((findsSlots_compareJump op _ _ _).bind fun _ => .ok _).bind fun _ =>
          (dest rfl).bind fun _ => .ok _
      · exact (findsSlots_arithmetic op).bind fun _ => (FindsSlots.ok _).bind fun _ =>
          (dest rfl).bind fun _ => .ok _
    | not d value =>
      exact (source (by simp [Instr.sources])).bind fun _ => (dest rfl).bind fun _ => .ok _
    | call d kind on method args ty =>
      exact findsSlots_call (fun o ho => h o (List.mem_append_left _ (by
        simpa [Instr.dest?] using ho))) fun o ho => h o (List.mem_append_right _ ho)
    | newObject d className => exact .error fun _ h => by cases h
    | newArray d length element =>
      exact (source (by simp [Instr.sources])).bind fun _ => (findsSlots_newArray element).bind
        fun _ => (dest rfl).bind fun _ => .ok _
    | arrayLength d array =>
      exact (source (by simp [Instr.sources])).bind fun _ => (dest rfl).bind fun _ => .ok _
    | arrayStore array index value =>
      exact (findsSlots_arrayKind _).bind fun _ => (source (by simp [Instr.sources])).bind fun _ =>
        (source (by simp [Instr.sources])).bind fun _ =>
          (source (by simp [Instr.sources])).bind fun _ => .ok _
    | fieldRead d object field ty =>
      exact (source (by simp [Instr.sources])).bind fun _ => (findsSlots_descriptor _ ty).bind
        fun _ => (dest rfl).bind fun _ => .ok _
    | fieldWrite object field ty value =>
      exact (source (by simp [Instr.sources])).bind fun _ =>
        (source (by simp [Instr.sources])).bind fun _ =>
          (findsSlots_descriptor _ ty).bind fun _ => .ok _
    | ret value =>
      cases value with
      | none => exact .ok _
      | some value =>
        exact (findsSlots_valueKind _).bind fun _ => (source (by simp [Instr.sources])).bind
          fun _ => .ok _
    | branch cond target =>
      cases cond with
      | compare op left right =>
        exact (source (by simp [Instr.sources, Condition.operands])).bind fun _ =>
          (source (by simp [Instr.sources, Condition.operands])).bind fun _ =>
            (findsSlots_compareJump op _ _ _).bind fun _ => .ok _
      | truthy value =>
        exact (source (by simp [Instr.sources, Condition.operands])).bind fun _ => .ok _
    | jump target => exact .ok _
    | label name => exact .ok _

theorem findsSlots_selectPieces {ps : List Piece}
    (h : ∀ p ∈ ps, ∀ o ∈ p.operands, x.slots.Has o) : FindsSlots (x.selectPieces n ps) := by
  induction ps generalizing n with
  | nil => exact .ok _
  | cons p rest ih =>
    obtain ⟨hp, hrest⟩ := List.forall_mem_cons.mp h
    exact (findsSlots_piece hp).bind fun _ => (ih hrest).bind fun _ => .ok _

/-- Selection finds a slot for whatever it loads and stores, where the operands of the code have
slots. -/
theorem findsSlots_select {code : List Tac.Instr} (h : ∀ i ∈ code, ∀ o ∈ i.operands, x.slots.Has o) :
    FindsSlots (x.select code) := by
  refine (findsSlots_selectPieces fun p hp o ho => ?_).bind fun _ => .ok _
  obtain ⟨i, hi, hio⟩ := operands_of_mem_pieces hp o ho
  exact h i hi o hio

/-! ## Slots of selected code -/

/-- What selected code reads or writes lies in a slot of the table, or is the receiver's. -/
theorem Emits.slot_lt {p : Piece} {i : Instr} (h : x.Emits n p i)
    (hs : x.slots.Sound (SlotTable.firstSlot x.isStatic)) {slot : Nat} (hi : i.slot? = some slot) :
    slot < x.slots.limit := by
  cases h with
  | load slot_ =>
    cases hi
    obtain ⟨key, -, hkey⟩ := SlotTable.key_of_slot slot_
    exact hs.lt_limit hkey
  | self instance_ =>
    cases hi
    have := hs.base_le_limit
    rwa [instance_] at this
  | store slot_ =>
    cases hi
    obtain ⟨key, -, hkey⟩ := SlotTable.key_of_slot slot_
    exact hs.lt_limit hkey
  | invoke _ => cases hi
  | jump slot_ _ _ =>
    rw [slot_] at hi
    cases hi
  | other slot_ _ _ =>
    rw [slot_] at hi
    cases hi

/-- Selected code reads and writes slots below the limit only. -/
theorem slots_of_select {body : List Tac.Instr} {code : List Instr}
    (hs : x.slots.Sound (SlotTable.firstSlot x.isStatic)) (h : x.select body = .ok code) :
    ∀ i ∈ code, ∀ slot, i.slot? = some slot → slot < x.slots.limit := by
  intro i hi slot hslot
  obtain ⟨codes, hcodes, rfl⟩ := select_eq_ok.mp h
  obtain ⟨n, p, -, he⟩ := hcodes.emits i hi
  exact he.slot_lt hs hslot

end MethodContext

/-! ## The slots of a method -/

namespace SlotTable

variable {t : SlotTable}

/-- The keys that code mentions, in order: of an instruction the destination first, and inside an
array element the array before the index. -/
def mentioned (code : List Tac.Instr) : List SlotKey :=
  code.flatMap fun i => i.operands.flatMap slotKeys

/-- How many slots a method needs: one for its receiver, and one for each of the different
parameters, temporaries and variables. -/
def slotsNeeded (m : Method) : Nat := firstSlot m.isStatic + (keysOf m).toFinset.card

/-- How the slots of a method are assigned, and what selection makes of them. -/
structure Assigns (t : SlotTable) (m : Method) : Prop where
  /-- Parameters come first, in order. -/
  param : ∀ {i : Nat} {o : Operand}, m.params[i]? = some o →
    t.slot o = .ok (firstSlot m.isStatic + i)
  /-- The parameters and what the body mentions have slots, and nothing else has. -/
  known : ∀ key : SlotKey, (∃ n, t.slots[key]? = some n) ↔ key ∈ keysOf m
  distinct : ∀ {key key' : SlotKey} {n : Nat}, t.slots[key]? = some n → t.slots[key']? = some n →
    key = key'
  /-- No slot is left out. -/
  onto : ∀ n : Nat, (∃ key : SlotKey, t.slots[key]? = some n) ↔
    firstSlot m.isStatic ≤ n ∧ n < t.limit
  limit : t.limit = slotsNeeded m
  /-- What is no parameter lies in the order in which the body first mentions it. -/
  ordered : ∀ {key key' : SlotKey} {n n' : Nat}, key ∉ m.params.flatMap slotKeys →
    key' ∉ m.params.flatMap slotKeys → t.slots[key]? = some n → t.slots[key']? = some n' →
      (mentioned m.code).idxOf key < (mentioned m.code).idxOf key' → n < n'
  /-- Selection never fails for want of a slot. -/
  finds : ∀ {x : MethodContext}, x.slots = t → FindsSlots (x.select m.code)
  /-- What is selected loads and stores below the limit. -/
  below : ∀ {x : MethodContext} {code : List Instr}, x.slots = t → x.isStatic = m.isStatic →
    x.select m.code = .ok code → ∀ i ∈ code, ∀ slot, i.slot? = some slot → slot < t.limit

/-- What allocation assigns is what `Assigns` says. -/
theorem Assigned.assigns {m : Method} (h : Assigned (firstSlot m.isStatic) (keysOf m) t)
    (ht : ofMethod m = .ok t) (storage : ∀ o ∈ m.params, o.isStorage = true)
    (distinct : (m.params.map slotKey?).Nodup) : t.Assigns m where
  param := slot_of_param ht storage distinct
  known := h.known
  distinct := h.sound.injective
  onto n := ⟨fun ⟨_, hk⟩ => ⟨h.sound.base_le hk, h.sound.lt_limit hk⟩,
    fun ⟨hb, hl⟩ => h.onto n hb hl⟩
  limit := h.limit
  ordered hk hk' hn hn' hlt := by
    refine h.ordered hn hn' ?_
    rw [keysOf, List.idxOf_append_of_notMem hk, List.idxOf_append_of_notMem hk']
    exact Nat.add_lt_add_left hlt _
  finds {x} hx := by
    refine MethodContext.findsSlots_select fun i hi o ho key hkey => ?_
    rw [hx]
    exact (h.known key).mpr (List.mem_append_right _
      (List.mem_flatMap.mpr ⟨i, hi, List.mem_flatMap.mpr ⟨o, ho, hkey⟩⟩))
  below {x code} hx hstatic hc := by
    subst hx
    exact MethodContext.slots_of_select (hstatic ▸ h.sound) hc

/-- **Slots are assigned soundly.** For a method with different parameters, allocation fails exactly
when the method needs more slots than there are. Otherwise parameters lie in the first slots in
order, different temporaries and variables in different slots in the order of their first mention,
and all slots below the limit are assigned; selection finds a slot for every operand of the body, and
loads and stores in slots below the limit only. -/
theorem assigns_of_ofMethod {m : Method} (storage : ∀ o ∈ m.params, o.isStorage = true)
    (distinct : (m.params.map slotKey?).Nodup) :
    (wordLimit < slotsNeeded m ∧ ofMethod m = .error .tooManyLocals) ∨
      (slotsNeeded m ≤ wordLimit ∧ ∃ t, ofMethod m = .ok t ∧ t.Assigns m) := by
  have base : firstSlot m.isStatic ≤ wordLimit := by cases m.isStatic <;> decide
  rcases (assigned_empty (firstSlot m.isStatic)).allocateAll (keysOf m) base with
    ⟨t, ht, h, hl⟩ | ⟨he, hfull⟩
  · have assigns := h.assigns ht storage distinct
    exact .inr ⟨assigns.limit ▸ hl, t, ht, assigns⟩
  · exact .inl ⟨hfull, he⟩

/-- A method that reads an element of a parameter. -/
def keeper : Method where
  name := "keep"
  returnTy := Ty.void
  params := [.var "a" Ty.intArray, .var "i" Ty.int]
  code := [
    .assign (.temp 0 Ty.int) (.element (.var "a" Ty.intArray) (.var "i" Ty.int) Ty.int),
    .assign (.var "kept" Ty.int) (.temp 0 Ty.int),
    .ret none]

theorem assigns_of_ofMethod_keeper :
    ∃ t, ofMethod keeper = .ok t ∧ t.Assigns keeper ∧ t.limit = 5 := by
  have needed : slotsNeeded keeper = 5 := by decide
  rcases assigns_of_ofMethod (m := keeper) (by decide) (by decide) with
    ⟨hfull, -⟩ | ⟨-, t, ht, assigns⟩
  · rw [needed] at hfull
    exact absurd hfull (by decide)
  · exact ⟨t, ht, assigns, assigns.limit.trans needed⟩

end SlotTable

end JavaMinus.Jvm
