import JavaMinus.Jvm.Instr

/-!
# One pass over stack machine code

A pass over code assigns a shape to the operand stack in front of every instruction: its height, or
the kinds of its values. `Flow` is that pass for any notion of shape. Behind a jump or a return there
is no shape until the next label, and every label has one shape, however control gets there.

The law (`Flow.drop_of_reaches`): the one pass covers every path. Whatever way control takes through
the code, forward or back, the shape of the stack at an instruction is the one that the pass found
there. So one pass over the text decides what holds on all paths (`Flow.progress`).
-/

namespace JavaMinus.Jvm

variable {α : Type}

/-- What is asked of the effects of instructions on shapes: a label has none, and an instruction has
one effect only. -/
structure LawfulEffect (step : Instr → α → α → Prop) : Prop where
  label : ∀ {name : String} {a b : α}, step (.label name) a b → b = a
  unique : ∀ {i : Instr} {a b c : α}, step i a b → step i a c → b = c

/-- One pass over code, from the shape in front of it to the shape behind it. `shapes` are the shapes
at labels; a label that nothing in front of it reaches has the shape that code starts with. An
instruction that is not reached still has an effect on some shape. -/
inductive Flow (step : Instr → α → α → Prop) (start : α) (shapes : String → α) :
    Option α → List Instr → Option α → Prop
  | nil (here : Option α) : Flow step start shapes here [] here
  | label {name : String} {rest : List Instr} {there : Option α}
      (tail : Flow step start shapes (some (shapes name)) rest there) :
      Flow step start shapes (some (shapes name)) (.label name :: rest) there
  | unreached {name : String} {rest : List Instr} {there : Option α} (atStart : shapes name = start)
      (tail : Flow step start shapes (some (shapes name)) rest there) :
      Flow step start shapes none (.label name :: rest) there
  | instr {i : Instr} {a b : α} {rest : List Instr} {there : Option α} (plain : i.isLabel = false)
      (steps : step i a b) (target : ∀ name, i.target? = some name → shapes name = b)
      (tail : Flow step start shapes (if i.isTerminator then none else some b) rest there) :
      Flow step start shapes (some a) (i :: rest) there
  | skip {i : Instr} {a b : α} {rest : List Instr} {there : Option α} (plain : i.isLabel = false)
      (steps : step i a b) (tail : Flow step start shapes none rest there) :
      Flow step start shapes none (i :: rest) there

/-- Control reaches an instruction with a shape: from the start of the code, to the next instruction
or to the place of the label that a jump names. -/
inductive Reaches (step : Instr → α → α → Prop) (start : α) (code : List Instr) : Nat → α → Prop
  | start : Reaches step start code 0 start
  | next {n : Nat} {i : Instr} {a b : α} (before : Reaches step start code n a)
      (here : code[n]? = some i) (continues : i.isTerminator = false) (steps : step i a b) :
      Reaches step start code (n + 1) b
  | jump {n m : Nat} {i : Instr} {name : String} {a b : α} (before : Reaches step start code n a)
      (here : code[n]? = some i) (target : i.target? = some name) (steps : step i a b)
      (placed : code[m]? = some (.label name)) : Reaches step start code m b

/-- Code without labels and jumps, one instruction after another. -/
inductive Straight (step : Instr → α → α → Prop) : α → List Instr → α → Prop
  | nil (a : α) : Straight step a [] a
  | cons {i : Instr} {a b c : α} {rest : List Instr} (plain : i.isLabel = false)
      (stays : i.target? = none) (continues : i.isTerminator = false) (steps : step i a b)
      (tail : Straight step b rest c) : Straight step a (i :: rest) c

variable {step : Instr → α → α → Prop} {start a b c : α} {shapes : String → α}
  {here there next : Option α} {code rest : List Instr}

/-! ## Straight code -/

theorem Straight.append (h : Straight step a code b) (hr : Straight step b rest c) :
    Straight step a (code ++ rest) c := by
  induction h with
  | nil => exact hr
  | cons plain stays continues steps _ ih => exact .cons plain stays continues steps (ih hr)

theorem Straight.single {i : Instr} (plain : i.isLabel = false) (stays : i.target? = none)
    (continues : i.isTerminator = false) (steps : step i a b) : Straight step a [i] b :=
  .cons plain stays continues steps (.nil b)

theorem Straight.flow (h : Straight step a code b) (hr : Flow step start shapes (some b) rest there) :
    Flow step start shapes (some a) (code ++ rest) there := by
  induction h with
  | nil => exact hr
  | cons plain stays continues steps _ ih =>
    refine .instr plain steps (fun name hn => ?_) ?_
    · rw [stays] at hn
      cases hn
    · rw [continues]
      exact ih hr

/-- Code without labels stays unreached. -/
theorem Straight.unreached (h : Straight step a code b)
    (hr : Flow step start shapes none rest there) :
    Flow step start shapes none (code ++ rest) there := by
  induction h with
  | nil => exact hr
  | cons plain _ _ steps _ ih => exact .skip plain steps ih

/-- Straight code has no labels. -/
theorem Straight.isLabel_eq_false (h : Straight step a code b) : ∀ i ∈ code, i.isLabel = false := by
  induction h with
  | nil => simp
  | cons plain _ _ _ _ ih => exact List.forall_mem_cons.mpr ⟨plain, ih⟩

/-- Control that reaches straight code reaches its end. -/
theorem Straight.reaches (h : Straight step a code b) {pre : List Instr}
    (hr : Reaches step start (pre ++ (code ++ rest)) pre.length a) :
    Reaches step start (pre ++ (code ++ rest)) (pre.length + code.length) b := by
  induction h generalizing pre with
  | nil => exact hr
  | @cons i _ _ _ tail _ _ continues steps _ ih =>
    have here : (pre ++ (i :: tail ++ rest))[pre.length]? = some i := by simp
    have next := hr.next here continues steps
    have shift : pre ++ (i :: tail ++ rest) = (pre ++ [i]) ++ (tail ++ rest) := by simp
    rw [shift] at next ⊢
    have ends := ih (by rw [List.length_append]; exact next)
    rw [List.length_append, List.length_singleton, Nat.add_assoc, Nat.add_comm 1] at ends
    exact ends

/-- Control reaches the end of straight code that it starts with. -/
theorem Straight.reaches_end (h : Straight step start code b) (rest : List Instr) :
    Reaches step start (code ++ rest) code.length b := by
  have first : Reaches step start ([] ++ (code ++ rest)) ([] : List Instr).length start := .start
  have ends := h.reaches first
  rw [List.length_nil, Nat.zero_add] at ends
  exact ends

/-! ## Passes -/

namespace Flow

theorem append (h : Flow step start shapes here code next)
    (hr : Flow step start shapes next rest there) :
    Flow step start shapes here (code ++ rest) there := by
  induction h with
  | nil => exact hr
  | label _ ih => exact .label (ih hr)
  | unreached atStart _ ih => exact .unreached atStart (ih hr)
  | instr plain steps target _ ih => exact .instr plain steps target (ih hr)
  | skip plain steps _ ih => exact .skip plain steps (ih hr)

theorem nil_inv (h : Flow step start shapes here [] there) : there = here := by
  cases h
  rfl

theorem cons_inv {i : Instr} (h : Flow step start shapes here (i :: rest) there) :
    ∃ next, Flow step start shapes next rest there := by
  cases h with
  | label tail => exact ⟨_, tail⟩
  | unreached _ tail => exact ⟨_, tail⟩
  | instr _ _ _ tail => exact ⟨_, tail⟩
  | skip _ _ tail => exact ⟨_, tail⟩

/-- A pass over code is a pass over what is left of it at any instruction. -/
theorem drop (h : Flow step start shapes here code there) (n : Nat) :
    ∃ next, Flow step start shapes next (code.drop n) there := by
  induction n generalizing here code with
  | zero => exact ⟨here, h⟩
  | succ n ih =>
    cases code with
    | nil => exact ⟨here, h⟩
    | cons i rest =>
      obtain ⟨next, hn⟩ := h.cons_inv
      exact ih hn

/-- From a label the pass goes on with the shape of the label. -/
theorem of_label {name : String} (h : Flow step start shapes here (.label name :: rest) there) :
    Flow step start shapes (some (shapes name)) (.label name :: rest) there := by
  cases h with
  | label tail => exact .label tail
  | unreached _ tail => exact .label tail
  | instr plain => cases plain
  | skip plain => cases plain

theorem drop_eq_cons {n : Nat} {i : Instr} (h : code[n]? = some i) :
    code.drop n = i :: code.drop (n + 1) := by
  obtain ⟨hlt, rfl⟩ := List.getElem?_eq_some_iff.mp h
  exact List.drop_eq_getElem_cons hlt

/-- Every instruction has an effect on some shape, whether control reaches it or not. -/
theorem acts (h : Flow step start shapes here code there) {i : Instr} (hi : i ∈ code) :
    i.isLabel = true ∨ ∃ a b, step i a b := by
  induction h with
  | nil => cases hi
  | label _ ih | unreached _ _ ih =>
    rcases List.mem_cons.mp hi with rfl | hi
    · exact .inl rfl
    · exact ih hi
  | instr _ steps _ _ ih | skip _ steps _ ih =>
    rcases List.mem_cons.mp hi with rfl | hi
    · exact .inr ⟨_, _, steps⟩
    · exact ih hi

/-- What the pass says of an instruction that is reached: it has an effect on the shape there, and
the pass goes on with that effect behind it and at its target. -/
theorem instr_inv (hs : LawfulEffect step) {i : Instr}
    (h : Flow step start shapes (some a) (i :: rest) there) (hab : step i a b) :
    (i.isTerminator = false → Flow step start shapes (some b) rest there) ∧
      ∀ name, i.target? = some name → shapes name = b := by
  cases h with
  | label tail =>
    cases hs.label hab
    exact ⟨fun _ => tail, fun _ h => by cases h⟩
  | instr plain steps target tail =>
    cases hs.unique hab steps
    refine ⟨fun hc => ?_, target⟩
    rw [hc] at tail
    exact tail

/-- The one pass covers every path. -/
theorem drop_of_reaches (hs : LawfulEffect step) {n : Nat}
    (h : Flow step start shapes (some start) code there) (hr : Reaches step start code n a) :
    Flow step start shapes (some a) (code.drop n) there := by
  induction hr with
  | start => exact h
  | next _ hi continues steps ih =>
    rw [drop_eq_cons hi] at ih
    exact (ih.instr_inv hs steps).1 continues
  | jump _ hi target steps placed ih =>
    rw [drop_eq_cons hi] at ih
    obtain ⟨next, hn⟩ := h.drop _
    rw [drop_eq_cons placed] at hn ⊢
    rw [← (ih.instr_inv hs steps).2 _ target]
    exact hn.of_label

/-- A pass over code is a pass over its first part and one over the rest. -/
theorem split (h : Flow step start shapes here (code ++ rest) there) :
    ∃ mid, Flow step start shapes here code mid ∧ Flow step start shapes mid rest there := by
  induction code generalizing here with
  | nil => exact ⟨here, .nil here, h⟩
  | cons i tail ih =>
    cases h with
    | label behind =>
      obtain ⟨mid, hm, hr⟩ := ih behind
      exact ⟨mid, .label hm, hr⟩
    | unreached atStart behind =>
      obtain ⟨mid, hm, hr⟩ := ih behind
      exact ⟨mid, .unreached atStart hm, hr⟩
    | instr plain steps target behind =>
      obtain ⟨mid, hm, hr⟩ := ih behind
      exact ⟨mid, .instr plain steps target hm, hr⟩
    | skip plain steps behind =>
      obtain ⟨mid, hm, hr⟩ := ih behind
      exact ⟨mid, .skip plain steps hm, hr⟩

/-- What the pass knows where control is: the shape there. Only at a label that nothing in front of it
reaches it does not know the shape yet, which is the one that code starts with. -/
def Knows (start a : α) (mid : Option α) (rest : List Instr) : Prop :=
  mid = some a ∨ (mid = none ∧ a = start ∧ ∃ name tail, rest = .label name :: tail)

/-- Behind an instruction that control passes, the pass knows the shape. -/
theorem eq_some_of_knows (hs : LawfulEffect step) {mid : Option α} {i : Instr}
    (hk : Knows start a mid (i :: rest)) (hi : Flow step start shapes mid [i] next)
    (continues : i.isTerminator = false) (steps : step i a b) : next = some b := by
  rcases hk with rfl | ⟨rfl, rfl, name, tail, hlabel⟩
  · cases hi with
    | label behind => rw [behind.nil_inv, hs.label steps]
    | instr _ does _ behind =>
      rw [behind.nil_inv, continues, hs.unique steps does]
      rfl
  · obtain ⟨rfl, -⟩ := List.cons.inj hlabel
    cases hi with
    | unreached atStart behind => rw [behind.nil_inv, hs.label steps, atStart]
    | skip plain => cases plain

/-- Wherever control reaches, the pass knows the shape. -/
theorem knows_of_reaches (hs : LawfulEffect step) {n : Nat} {mid : Option α}
    (front : Flow step start shapes (some start) (code.take n) mid)
    (behind : Flow step start shapes mid (code.drop n) there) (hr : Reaches step start code n a) :
    Knows start a mid (code.drop n) := by
  induction hr generalizing mid with
  | start =>
    cases front
    exact .inl rfl
  | @next k i a b before hi continues steps ih =>
    have grown : code.take (k + 1) = code.take k ++ [i] := by
      rw [List.take_add_one, hi]
      rfl
    rw [grown] at front
    obtain ⟨earlier, hfront, hlast⟩ := front.split
    have known : Knows start a earlier (code.drop k) := by
      refine ih hfront ?_
      rw [drop_eq_cons hi]
      exact hlast.append behind
    rw [drop_eq_cons hi] at known
    exact .inl (eq_some_of_knows hs known hlast continues steps)
  | @jump k m i name a b before hi target steps placed _ =>
    have whole : Flow step start shapes (some start) code there := by
      rw [← List.take_append_drop m code]
      exact front.append behind
    have source := whole.drop_of_reaches hs before
    rw [drop_eq_cons hi] at source
    have there_ : shapes name = b := (source.instr_inv hs steps).2 name target
    rw [drop_eq_cons placed] at behind ⊢
    cases behind with
    | label => exact .inl (by rw [there_])
    | unreached atStart => exact .inr ⟨rfl, by rw [← there_, atStart], name, _, rfl⟩
    | instr plain => cases plain
    | skip plain => cases plain

/-- Paths that meet come with one shape. -/
theorem unique_of_reaches (hs : LawfulEffect step) {n : Nat}
    (h : Flow step start shapes (some start) code there) (hr : Reaches step start code n a)
    (hr' : Reaches step start code n b) : a = b := by
  rw [← List.take_append_drop n code] at h
  obtain ⟨mid, front, behind⟩ := h.split
  rcases knows_of_reaches hs front behind hr with rfl | ⟨rfl, rfl, -⟩ <;>
    rcases knows_of_reaches hs front behind hr' with hb | ⟨hb, rfl, -⟩
  · exact Option.some.inj hb
  · cases hb
  · cases hb
  · rfl

/-- Every instruction that control reaches has an effect on the shape it is reached with. -/
theorem steps_of_reaches (hs : LawfulEffect step) (hl : ∀ name a, step (.label name) a a) {n : Nat}
    {i : Instr} (h : Flow step start shapes (some start) code there)
    (hr : Reaches step start code n a) (hi : code[n]? = some i) : ∃ b, step i a b := by
  have hd := h.drop_of_reaches hs hr
  rw [drop_eq_cons hi] at hd
  cases hd with
  | label tail => exact ⟨_, hl _ _⟩
  | instr plain steps target tail => exact ⟨_, steps⟩

/-- Code whose end no path reaches is never left, and every instruction that control reaches has an
effect on the shape it is reached with. -/
theorem progress (hs : LawfulEffect step) (hl : ∀ name a, step (.label name) a a) {n : Nat}
    (h : Flow step start shapes (some start) code none) (hr : Reaches step start code n a) :
    ∃ i b, code[n]? = some i ∧ step i a b := by
  cases hi : code[n]? with
  | none =>
    have hd := h.drop_of_reaches hs hr
    rw [List.drop_eq_nil_of_le (List.getElem?_eq_none_iff.mp hi)] at hd
    cases hd
  | some i =>
    obtain ⟨b, steps⟩ := h.steps_of_reaches hs hl hr hi
    exact ⟨i, b, rfl, steps⟩

end Flow

end JavaMinus.Jvm
