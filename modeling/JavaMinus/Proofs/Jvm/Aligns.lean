import JavaMinus.Proofs.Jvm.Pieces
import JavaMinus.Proofs.Tac.Labels

/-!
# Which code stands for which

Selected code lies beside the body that it was selected from (`Aligns`): an instruction beside its
code, and an allocation with its constructor call beside theirs. So wherever the body has a label,
the code has it too, beside it; and where the body places its labels once, and none of them is a label
of a comparison, the code places all of its labels once, since comparisons are numbered through.
-/

namespace JavaMinus.Jvm

open Tac

namespace Instr

/-- The label that the instruction places. -/
def label? : Instr → Option String
  | .label name => some name
  | _ => none

end Instr

/-- The labels that code places, in order. -/
def labelsOf (code : List Instr) : List String := code.filterMap Instr.label?

theorem labelsOf_append (code rest : List Instr) :
    labelsOf (code ++ rest) = labelsOf code ++ labelsOf rest := List.filterMap_append

theorem labelsOf_cons_plain {i : Instr} (h : i.label? = none) (rest : List Instr) :
    labelsOf (i :: rest) = labelsOf rest := List.filterMap_cons_none h

/-- Plain code places no label. -/
theorem labelsOf_of_plain {code : List Instr} (h : ∀ i ∈ code, i.isPlain = true) :
    labelsOf code = [] := by
  refine List.filterMap_eq_nil_iff.mpr fun i hi => ?_
  have := h i hi
  cases i <;> first | rfl | cases this

/-- A label that is placed once is found where it stands. -/
theorem idxOf?_label {code : List Instr} {name : String} {k : Nat} (once : (labelsOf code).Nodup)
    (h : code[k]? = some (.label name)) : code.idxOf? (.label name) = some k := by
  obtain ⟨hk, hcode⟩ := List.getElem?_eq_some_iff.mp h
  refine List.idxOf?_eq_some_iff.mpr ⟨hk, hcode, fun j hj heq => ?_⟩
  have hj' : code[j]? = some (.label name) := List.getElem?_eq_some_iff.mpr ⟨by omega, heq⟩
  have := index_unique once hj' h rfl rfl
  omega

/-- The labels of the `n`th comparison. -/
def comparisonLabels (n : Nat) : List String := [whenTrue n, whenDone n]

/-- The labels of a piece after `n` comparisons. -/
def Piece.labels (n : Nat) : Piece → List String
  | .instr i => if needsLabels i then comparisonLabels n else i.label?.toList
  | .newObject .. => []

theorem comparisonLabels_unique {n k : Nat} {name : String} (hn : name ∈ comparisonLabels n)
    (hk : name ∈ comparisonLabels k) : n = k := by
  simp only [comparisonLabels, List.mem_cons, List.not_mem_nil, or_false] at hn hk
  rcases hn with rfl | rfl <;> rcases hk with h | h
  · exact numbered_inj h
  · exact absurd h (whenTrue_ne_whenDone n k)
  · exact absurd h.symm (whenTrue_ne_whenDone k n)
  · exact numbered_inj h

namespace MethodContext

variable {x : MethodContext} {n : Nat} {code : List Instr}

/-- Selection places the label of an instruction, or those of a comparison. -/
theorem Selects.labels {p : Piece} (h : x.Selects n p code) : labelsOf code = p.labels n := by
  cases h with
  | assign value_ dest_ =>
    rw [labelsOf_append, labelsOf_of_plain value_.plain, labelsOf_of_plain dest_.plain]
    rfl
  | binary left_ right_ op_ dest_ =>
    rw [labelsOf_append, labelsOf_append, labelsOf_append, labelsOf_of_plain left_.plain, labelsOf_of_plain right_.plain, labelsOf_of_plain dest_.plain]
    cases op_ with
    | arith relational _ =>
      rw [Piece.labels, needsLabels, relational]
      rfl
    | compare relational jump_ =>
      rw [Piece.labels, needsLabels, if_pos relational]
      cases jump_ <;> rfl
  | not operand_ dest_ =>
    rw [labelsOf_append, labelsOf_append, labelsOf_of_plain operand_.plain, labelsOf_of_plain dest_.plain]
    rfl
  | call on_ args_ _ _ dest_ =>
    rw [labelsOf_append, labelsOf_append, labelsOf_cons_plain rfl, labelsOf_of_plain on_.plain, labelsOf_of_plain args_.plain,
      labelsOf_of_plain dest_.plain]
    rfl
  | newArray length_ allocation_ dest_ =>
    rw [labelsOf_append, labelsOf_cons_plain (by cases allocation_ <;> rfl), labelsOf_of_plain length_.plain,
      labelsOf_of_plain dest_.plain]
    rfl
  | arrayLength array_ dest_ =>
    rw [labelsOf_append, labelsOf_cons_plain rfl, labelsOf_of_plain array_.plain, labelsOf_of_plain dest_.plain]
    rfl
  | arrayStore _ array_ index_ value_ =>
    rw [labelsOf_append, labelsOf_append, labelsOf_append, labelsOf_of_plain array_.plain, labelsOf_of_plain index_.plain,
      labelsOf_of_plain value_.plain]
    rfl
  | fieldRead object_ _ dest_ =>
    rw [labelsOf_append, labelsOf_cons_plain rfl, labelsOf_of_plain object_.plain, labelsOf_of_plain dest_.plain]
    rfl
  | fieldWrite object_ value_ _ =>
    rw [labelsOf_append, labelsOf_append, labelsOf_of_plain object_.plain, labelsOf_of_plain value_.plain]
    rfl
  | retNone => rfl
  | ret _ value_ =>
    rw [labelsOf_append, labelsOf_of_plain value_.plain]
    rfl
  | compare left_ right_ jump_ =>
    rw [labelsOf_append, labelsOf_append, labelsOf_of_plain left_.plain, labelsOf_of_plain right_.plain]
    cases jump_ <;> rfl
  | truthy value_ =>
    rw [labelsOf_append, labelsOf_of_plain value_.plain]
    rfl
  | jump target => rfl
  | label name => rfl
  | newObject dest_ =>
    rw [labelsOf_cons_plain rfl, labelsOf_cons_plain rfl, labelsOf_cons_plain rfl, labelsOf_of_plain dest_.plain]
    rfl

/-! ## Bodies and their code -/

/-- Code that was selected from a body after `n` comparisons, piece by piece. -/
inductive Aligns (x : MethodContext) : Nat → List Tac.Instr → List Instr → Prop
  | nil (n : Nat) : Aligns x n [] []
  | instr {n : Nat} {i : Tac.Instr} {body : List Tac.Instr} {code rest : List Instr}
      (here : x.Selects n (.instr i) code)
      (behind : Aligns x (n + (Piece.instr i).comparisons) body rest) :
      Aligns x n (i :: body) (code ++ rest)
  | allocation {n : Nat} {dest : Operand} {className : String} {i : Tac.Instr}
      {body : List Tac.Instr} {code rest : List Instr}
      (here : x.Selects n (.newObject dest className) code) (init : initialises dest i = true)
      (behind : Aligns x n body rest) :
      Aligns x n (.newObject dest className :: i :: body) (code ++ rest)

/-- What is selected is aligned. -/
theorem aligns_of_selectsAll {body : List Tac.Instr} {codes : List (List Instr)}
    (h : x.SelectsAll n (pieces body) codes) : x.Aligns n body codes.flatten := by
  fun_induction pieces body generalizing n codes with
  | case1 =>
    cases h
    exact .nil n
  | case2 i =>
    cases h with
    | cons head tail =>
      cases tail
      exact .instr head (.nil _)
  | case3 dest className i rest init ih =>
    cases h with
    | cons head tail => exact .allocation head init (ih tail)
  | case4 dest className i rest _ ih =>
    cases h with
    | cons head tail => exact .instr head (ih tail)
  | case5 i j rest _ ih =>
    cases h with
    | cons head tail => exact .instr head (ih tail)

theorem label?_of_initialises {dest : Operand} {i : Tac.Instr} (h : initialises dest i = true) :
    i.label? = none := by
  cases i <;> first | rfl | cases h

/-- The labels of an allocation with its constructor call are those behind it. -/
theorem labelsOf_allocation {dest : Operand} {className : String} {i : Tac.Instr}
    (h : initialises dest i = true) (body : List Tac.Instr) :
    Tac.labelsOf (.newObject dest className :: i :: body) = Tac.labelsOf body := by
  rw [labelsOf_cons, labelsOf_cons, label?_of_initialises h]
  rfl

/-- Code has the labels of its body and those of comparisons. -/
theorem Aligns.mem_labels {body : List Tac.Instr} (h : x.Aligns n body code) {name : String}
    (hname : name ∈ labelsOf code) :
    name ∈ Tac.labelsOf body ∨ ∃ k, n ≤ k ∧ name ∈ comparisonLabels k := by
  induction h with
  | nil => cases hname
  | @instr n i body code rest here behind ih =>
    rw [labelsOf_append, List.mem_append, here.labels, Piece.labels] at hname
    rw [labelsOf_cons, List.mem_append]
    rcases hname with hname | hname
    · split at hname
      · exact .inr ⟨n, Nat.le_refl n, hname⟩
      · exact .inl (.inl hname)
    · rcases ih hname with h | ⟨k, hk, h⟩
      · exact .inl (.inr h)
      · exact .inr ⟨k, by omega, h⟩
  | allocation here init _ ih =>
    rw [labelsOf_append, here.labels] at hname
    rw [labelsOf_allocation init]
    exact ih hname

/-- Code places its labels once if its body does, and has no label of a comparison itself. -/
theorem Aligns.labels_nodup {body : List Tac.Instr} (h : x.Aligns n body code)
    (once : (Tac.labelsOf body).Nodup)
    (plain : ∀ name ∈ Tac.labelsOf body, ∀ k, name ∉ comparisonLabels k) :
    (labelsOf code).Nodup := by
  induction h with
  | nil => exact List.nodup_nil
  | @instr n i body code rest here behind ih =>
    rw [labelsOf_cons] at once plain
    obtain ⟨hfirst, hrest, apart⟩ := List.nodup_append.mp once
    have plainBehind : ∀ name ∈ Tac.labelsOf body, ∀ k, name ∉ comparisonLabels k :=
      fun name hname => plain name (List.mem_append_right _ hname)
    rw [labelsOf_append, here.labels, Piece.labels]
    split
    · next hneeds =>
      -- The labels of this comparison are those of no later one.
      have hcount : (Piece.instr i).comparisons = 1 := if_pos hneeds
      have pair : (comparisonLabels n).Nodup := by
        simpa [comparisonLabels] using whenTrue_ne_whenDone n n
      refine List.nodup_append.mpr ⟨pair, ih hrest plainBehind, ?_⟩
      rintro name hn name' hname rfl
      rcases behind.mem_labels hname with h | ⟨k, hk, h⟩
      · exact plainBehind name h n hn
      · have := comparisonLabels_unique hn h
        omega
    · refine List.nodup_append.mpr ⟨hfirst, ih hrest plainBehind, ?_⟩
      rintro name hn name' hname rfl
      rcases behind.mem_labels hname with h | ⟨k, hk, h⟩
      · exact apart name hn name h rfl
      · exact plain name (List.mem_append_left _ hn) k h
  | allocation here init _ ih =>
    rw [labelsOf_allocation init] at once plain
    rw [labelsOf_append, here.labels]
    exact ih once plain

/-- Where the body has a label, the code has it too, with what is behind. -/
theorem Aligns.at_label {body : List Tac.Instr} (h : x.Aligns n body code) {k : Nat} {name : String}
    (hk : body[k]? = some (.label name)) :
    ∃ l n', code[l]? = some (.label name) ∧ x.Aligns n' (body.drop k) (code.drop l) := by
  induction h generalizing k with
  | nil => cases hk
  | @instr n i body code rest here behind ih =>
    cases k with
    | zero =>
      cases hk
      refine ⟨0, n, ?_, .instr here behind⟩
      cases here
      rfl
    | succ k =>
      obtain ⟨l, n', hl, haligns⟩ := ih hk
      refine ⟨code.length + l, n', ?_, ?_⟩
      · rw [List.getElem?_append_right (Nat.le_add_right _ _), Nat.add_sub_cancel_left]
        exact hl
      · rw [List.drop_append, List.drop_of_length_le (Nat.le_add_right _ _), List.nil_append,
          Nat.add_sub_cancel_left]
        exact haligns
  | @allocation n dest className i body code rest here init behind ih =>
    match k, hk with
    | 1, hk =>
      have hi : i = .label name := by simpa using hk
      subst hi
      cases init
    | k + 2, hk =>
      obtain ⟨l, n', hl, haligns⟩ := ih hk
      refine ⟨code.length + l, n', ?_, ?_⟩
      · rw [List.getElem?_append_right (Nat.le_add_right _ _), Nat.add_sub_cancel_left]
        exact hl
      · rw [List.drop_append, List.drop_of_length_le (Nat.le_add_right _ _), List.nil_append,
          Nat.add_sub_cancel_left]
        exact haligns

end MethodContext

end JavaMinus.Jvm
