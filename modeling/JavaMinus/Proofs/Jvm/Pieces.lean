import JavaMinus.Proofs.Jvm.Flow
import JavaMinus.Proofs.Jvm.Selects
import JavaMinus.Proofs.Tac.Typed

/-!
# Passes over selected code

What a pass over selected code (`Flow`) owes to the pieces that it was selected from. Every piece
starts and ends with the shape that the code starts with, or is not reached at all (`Idle`), so
passes over pieces (`Passes`) join to a pass over the body (`Passes.of_pieces`).

Only comparisons meet a label with anything on the stack: where the two ways of a comparison join,
its result is there. `shapeAt` gives that label the shape of the result and every other label the
shape that code starts with.
-/

namespace JavaMinus.Jvm

open Tac

variable {α : Type}

/-- The labels of a comparison differ from those at which its result lies on the stack. -/
theorem whenTrue_ne_whenDone (n m : Nat) : whenTrue n ≠ whenDone m := by
  intro h
  have ht : (whenTrue n).toList[4]? = some 't' := by
    rw [whenTrue, String.toList_append, List.getElem?_append_left (by decide)]
    rfl
  have hd : (whenDone m).toList[4]? = some 'e' := by
    rw [whenDone, String.toList_append, List.getElem?_append_left (by decide)]
    rfl
  rw [h, hd] at ht
  cases ht

/-- No label of this list is one at which the result of a comparison lies on the stack. -/
def IsPlainLabel (name : String) : Prop := ∀ k, name ≠ whenDone k

/-- The shape at labels: that of a result where a comparison ends, and that of the start elsewhere. -/
noncomputable def shapeAt (start result : α) (name : String) : α :=
  open Classical in if ∃ k, name = whenDone k then result else start

theorem shapeAt_whenDone (start result : α) (n : Nat) : shapeAt start result (whenDone n) = result :=
  if_pos ⟨n, rfl⟩

theorem shapeAt_plain {start result : α} {name : String} (h : IsPlainLabel name) :
    shapeAt start result name = start :=
  if_neg fun ⟨k, hk⟩ => h k hk

/-- Between pieces the stack has the shape that code starts with, where control is there at all. -/
def Idle (start : α) (here : Option α) : Prop := ∀ a, here = some a → a = start

theorem idle_none (start : α) : Idle start none := fun _ h => by cases h

theorem idle_some (start : α) : Idle start (some start) := fun _ h => by cases h; rfl

/-- Between pieces there are two cases. -/
theorem Idle.cases {start : α} {here : Option α} (h : Idle start here) :
    here = none ∨ here = some start := by
  cases here with
  | none => exact .inl rfl
  | some a => exact .inr (by rw [h a rfl])

variable {step : Instr → α → α → Prop} {start result a : α} {here there : Option α}

/-- A comparison leaves its result, whether control reaches it or not. -/
theorem Flow.of_compare {jump : Instr} {n : Nat} (plain : jump.isLabel = false)
    (target : jump.target? = some (whenTrue n)) (falls : jump.isTerminator = false)
    (tests : step jump a start) (pushes : ∀ v, step (.const v) start result)
    (goes : step (.goto (whenDone n)) result result) (hh : here = some a ∨ here = none) :
    Flow step start (shapeAt start result) here [jump, .const 0, .goto (whenDone n),
      .label (whenTrue n), .const 1, .label (whenDone n)] (some result) := by
  have htrue : shapeAt start result (whenTrue n) = start :=
    shapeAt_plain fun m => whenTrue_ne_whenDone n m
  have hdone := shapeAt_whenDone start result n
  have done : Flow step start (shapeAt start result) (some result) [.label (whenDone n)]
      (some result) := by
    have h : Flow step start (shapeAt start result) (some (shapeAt start result (whenDone n)))
        [.label (whenDone n)] (some (shapeAt start result (whenDone n))) := .label (.nil _)
    rwa [hdone] at h
  have hit : Flow step start (shapeAt start result) none
      [.label (whenTrue n), .const 1, .label (whenDone n)] (some result) := by
    refine .unreached htrue ?_
    rw [htrue]
    exact .instr rfl (pushes 1) (fun _ h => by cases h) done
  rcases hh with rfl | rfl
  · refine .instr plain tests (fun name hn => ?_) ?_
    · rw [target] at hn
      cases hn
      exact htrue
    · rw [falls]
      refine .instr rfl (pushes 0) (fun _ h => by cases h) (.instr rfl goes (fun name hn => ?_) hit)
      cases hn
      exact hdone
  · exact .skip plain tests (.skip rfl (pushes 0) (.skip rfl goes hit))

/-- Code that a pass comes to idle and leaves idle. -/
def Passes (step : Instr → α → α → Prop) (start : α) (shapes : String → α) (code : List Instr) : Prop :=
  ∀ here, Idle start here → ∃ there, Idle start there ∧ Flow step start shapes here code there

section
variable {shapes : String → α} {code rest : List Instr}

/-- Straight code that leaves the stack as it was. -/
theorem Straight.passes (h : Straight step start code start) : Passes step start shapes code := by
  intro here hh
  refine ⟨here, hh, ?_⟩
  rw [← List.append_nil code]
  rcases hh.cases with rfl | rfl
  · exact h.unreached (.nil _)
  · exact h.flow (.nil _)

/-- Straight code with a jump or a return behind it, which leaves the stack as it was. -/
theorem Straight.passes_last {i : Instr} (h : Straight step start code a) (plain : i.isLabel = false)
    (steps : step i a start) (target : ∀ name, i.target? = some name → shapes name = start) :
    Passes step start shapes (code ++ [i]) := by
  intro here hh
  rcases hh.cases with rfl | rfl
  · exact ⟨none, idle_none start, h.unreached (.skip plain steps (.nil _))⟩
  · refine ⟨_, ?_, h.flow (.instr plain steps target (.nil _))⟩
    split
    · exact idle_none start
    · exact idle_some start

/-- Straight code, a comparison of what it leaves, and code that takes the result. -/
theorem Straight.passes_compare {jump : Instr} {n : Nat} (h : Straight step start code a)
    (plain : jump.isLabel = false) (target : jump.target? = some (whenTrue n))
    (falls : jump.isTerminator = false) (tests : step jump a start)
    (pushes : ∀ v, step (.const v) start result) (goes : step (.goto (whenDone n)) result result)
    (hr : Straight step result rest start) :
    Passes step start (shapeAt start result) (code ++ [jump, .const 0, .goto (whenDone n),
      .label (whenTrue n), .const 1, .label (whenDone n)] ++ rest) := by
  intro here hh
  have ends : Flow step start (shapeAt start result) (some result) rest (some start) := by
    have h : Flow step start (shapeAt start result) (some result) (rest ++ []) (some start) :=
      hr.flow (.nil _)
    rwa [List.append_nil] at h
  refine ⟨some start, idle_some start, Flow.append ?_ ends⟩
  rcases hh.cases with rfl | rfl
  · exact h.unreached (.of_compare plain target falls tests pushes goes (.inr rfl))
  · exact h.flow (.of_compare plain target falls tests pushes goes (.inl rfl))

/-- A label where the stack is as it was at the start. -/
theorem passes_label {name : String} (hname : shapes name = start) :
    Passes step start shapes [.label name] := by
  intro here hh
  refine ⟨some (shapes name), by rw [hname]; exact idle_some start, ?_⟩
  rcases hh.cases with rfl | rfl
  · exact .unreached hname (.nil _)
  · have h : Flow step start shapes (some (shapes name)) [.label name] (some (shapes name)) :=
      .label (.nil _)
    rwa [hname] at h ⊢

end

/-! ## Code that stands on its own -/

/-- Code that a pass comes to idle and leaves idle, and that itself leads to each of its labels. -/
structure SelfContained (step : Instr → α → α → Prop) (start : α) (shapes : String → α)
    (code : List Instr) : Prop where
  passes : Passes step start shapes code
  reached : ∀ {k : Nat} {name : String}, code[k]? = some (.label name) →
    Reaches step start code k (shapes name)

section
variable {shapes : String → α} {code rest : List Instr}

/-- Straight code has no label at any place. -/
theorem Straight.getElem?_ne_label {b : α} (h : Straight step a code b) (k : Nat) (name : String) :
    code[k]? ≠ some (.label name) := fun hk => by
  cases h.isLabel_eq_false _ (List.mem_of_getElem? hk)

theorem Straight.selfContained (h : Straight step start code start) :
    SelfContained step start shapes code where
  passes := h.passes
  reached hk := absurd hk (h.getElem?_ne_label _ _)

theorem Straight.selfContained_last {i : Instr} (h : Straight step start code a)
    (plain : i.isLabel = false) (steps : step i a start)
    (target : ∀ name, i.target? = some name → shapes name = start) :
    SelfContained step start shapes (code ++ [i]) where
  passes := h.passes_last plain steps target
  reached hk := by
    rcases List.mem_append.mp (List.mem_of_getElem? hk) with hm | hm
    · cases h.isLabel_eq_false _ hm
    · rw [← List.mem_singleton.mp hm] at plain
      cases plain

theorem selfContained_label {name : String} (hname : shapes name = start) :
    SelfContained step start shapes [.label name] where
  passes := passes_label hname
  reached {k _} hk := by
    match k with
    | 0 =>
      cases hk
      rw [hname]
      exact .start

/-- Both labels of a comparison are reached: the first by its jump, the second behind the first. -/
theorem Straight.selfContained_compare {jump : Instr} {n : Nat} (h : Straight step start code a)
    (plain : jump.isLabel = false) (target : jump.target? = some (whenTrue n))
    (falls : jump.isTerminator = false) (tests : step jump a start)
    (pushes : ∀ v, step (.const v) start result) (goes : step (.goto (whenDone n)) result result)
    (stays : step (.label (whenTrue n)) start start) (hr : Straight step result rest start) :
    SelfContained step start (shapeAt start result) (code ++ [jump, .const 0, .goto (whenDone n),
      .label (whenTrue n), .const 1, .label (whenDone n)] ++ rest) where
  passes := h.passes_compare plain target falls tests pushes goes hr
  reached {k name} hk := by
    have place (j : Nat) : (code ++ [jump, .const 0, .goto (whenDone n), .label (whenTrue n), .const 1,
        .label (whenDone n)] ++ rest)[code.length + j]? = ([jump, .const 0, .goto (whenDone n),
          .label (whenTrue n), .const 1, .label (whenDone n)] ++ rest)[j]? := by
      rw [List.append_assoc, List.getElem?_append_right (Nat.le_add_right _ _),
        Nat.add_sub_cancel_left]
    have compared : Reaches step start (code ++ [jump, .const 0, .goto (whenDone n),
        .label (whenTrue n), .const 1, .label (whenDone n)] ++ rest) code.length a := by
      have ends := h.reaches_end ([jump, .const 0, .goto (whenDone n), .label (whenTrue n), .const 1,
        .label (whenDone n)] ++ rest)
      rw [← List.append_assoc] at ends
      exact ends
    have isTrue := compared.jump (place 0) target tests (place 3)
    have isDone := (isTrue.next (place 3) rfl stays).next (place 4) rfl (pushes 1)
    rcases Nat.lt_or_ge k code.length with hlt | hge
    · rw [List.append_assoc, List.getElem?_append_left hlt] at hk
      exact absurd hk (h.getElem?_ne_label k name)
    · obtain ⟨j, rfl⟩ := Nat.exists_eq_add_of_le hge
      rw [place] at hk
      match j with
      | 0 =>
        cases hk
        cases plain
      | 1 | 2 | 4 => cases hk
      | 3 =>
        cases hk
        rw [shapeAt_plain fun m => whenTrue_ne_whenDone n m]
        exact isTrue
      | 5 =>
        cases hk
        rw [shapeAt_whenDone]
        exact isDone
      | j + 6 => exact absurd hk (hr.getElem?_ne_label j name)

end

/-- Where a pass ends behind a jump or a return, control does not pass the end. -/
theorem Flow.none_of_last {shapes : String → α} {code : List Instr} {i : Instr}
    (h : Flow step start shapes here code there) (hlast : code.getLast? = some i)
    (hi : i.isTerminator = true) : there = none := by
  have last : ∀ {j : Instr} {rest : List Instr}, (j :: rest).getLast? = some i →
      rest.getLast? = some i ∨ (rest = [] ∧ j = i) := by
    intro j rest hj
    cases rest with
    | nil => exact .inr ⟨rfl, by simpa using hj⟩
    | cons k rest => exact .inl (by simpa using hj)
  induction h with
  | nil => cases hlast
  | @label name rest there tail ih =>
    rcases last hlast with h | ⟨rfl, rfl⟩
    · exact ih h
    · cases hi
  | @unreached name rest there atStart tail ih =>
    rcases last hlast with h | ⟨rfl, rfl⟩
    · exact ih h
    · cases hi
  | @instr j a b rest there plain steps target tail ih =>
    rcases last hlast with h | ⟨rfl, rfl⟩
    · exact ih h
    · rw [hi] at tail
      cases tail
      rfl
  | @skip j a b rest there plain steps tail ih =>
    rcases last hlast with h | ⟨rfl, rfl⟩
    · exact ih h
    · cases tail
      rfl

/-! ## Pieces of a body -/

theorem mem_pieces {body : List Tac.Instr} {i : Tac.Instr} (h : .instr i ∈ pieces body) :
    i ∈ body := by
  fun_induction pieces body with
  | case1 => simp at h
  | case2 j => simpa using h
  | case3 dest className j rest hinit ih =>
    rcases List.mem_cons.mp h with h | h
    · cases h
    · exact List.mem_cons_of_mem _ (List.mem_cons_of_mem _ (ih h))
  | case4 dest className j rest hinit ih =>
    rcases List.mem_cons.mp h with h | h
    · cases h
      exact List.mem_cons_self
    · exact List.mem_cons_of_mem _ (ih h)
  | case5 j k rest hne ih =>
    rcases List.mem_cons.mp h with h | h
    · cases h
      exact List.mem_cons_self
    · exact List.mem_cons_of_mem _ (ih h)

/-- Passes over the pieces of a body join to a pass over the body. -/
theorem Passes.of_pieces {x : MethodContext} {shapes : String → α} {n : Nat} {ps : List Piece}
    {codes : List (List Instr)} (hs : x.SelectsAll n ps codes)
    (hp : ∀ p ∈ ps, ∀ {n : Nat} {code : List Instr}, x.Selects n p code →
      Passes step start shapes code) : Passes step start shapes codes.flatten := by
  intro here hh
  induction hs generalizing here with
  | nil => exact ⟨here, hh, .nil here⟩
  | cons head _ ih =>
    obtain ⟨next, hn, hf⟩ := hp _ List.mem_cons_self head here hh
    obtain ⟨there, ht, hr⟩ := ih (fun p hm => hp p (List.mem_cons_of_mem _ hm)) next hn
    exact ⟨there, ht, by rw [List.flatten_cons]; exact hf.append hr⟩

/-- A body that ends with a return is selected to code that ends with one. -/
theorem MethodContext.SelectsAll.getLast? {x : MethodContext} {n : Nat} {ps : List Piece}
    {codes : List (List Instr)} {i : Tac.Instr} (h : x.SelectsAll n ps codes)
    (hlast : ps.getLast? = some (.instr i)) (hi : i.isReturn = true) :
    ∃ kind, codes.flatten.getLast? = some (.ret kind) := by
  induction h with
  | nil => cases hlast
  | @cons n p rest code codes head tail ih =>
    rw [List.flatten_cons, List.getLast?_append]
    cases tail with
    | nil =>
      obtain rfl : p = .instr i := by simpa using hlast
      cases head with
      | retNone => exact ⟨none, rfl⟩
      | @ret value kind v held value_ => exact ⟨some kind, by simp⟩
      | _ => cases hi
    | cons _ _ =>
      obtain ⟨kind, hk⟩ := ih (by simpa using hlast)
      exact ⟨kind, by rw [hk]; rfl⟩

/-- A last return of a body is its last piece. -/
theorem getLast?_pieces {body : List Tac.Instr} {i : Tac.Instr} (h : body.getLast? = some i)
    (hi : i.isReturn = true) : (pieces body).getLast? = some (.instr i) := by
  fun_induction pieces body with
  | case1 => cases h
  | case2 j => simpa using h
  | case3 dest className j rest hinit ih =>
    cases rest with
    | nil =>
      obtain rfl : j = i := by simpa using h
      cases j <;> first | cases hinit | cases hi
    | cons k rest =>
      have ih := ih (by simpa using h)
      rw [List.getLast?_cons, ih]
      rfl
  | case4 dest className j rest hinit ih =>
    have ih := ih (by simpa using h)
    rw [List.getLast?_cons, ih]
    rfl
  | case5 j k rest hne ih =>
    have ih := ih (by simpa using h)
    rw [List.getLast?_cons, ih]
    rfl

/-! ## Labels of typed code -/

/-- Labels of statements are none at which selection keeps a result. -/
theorem isPlainLabel_of_isBlockLabel {name : String} (h : IsBlockLabel name) :
    IsPlainLabel name := by
  intro k hk
  have hd : name.toList[0]? = some 'c' := by
    rw [hk, whenDone, String.toList_append, List.getElem?_append_left (by decide)]
    rfl
  have hb : ∀ (pre : String) (n : Nat) (ch : Char), pre.toList[0]? = some ch → ch ≠ 'c' →
      name ≠ pre ++ toString n := by
    intro pre n ch hpre hne heq
    rw [heq, String.toList_append, List.getElem?_append_left
      (List.getElem?_eq_some_iff.mp hpre).1, hpre] at hd
    exact hne (Option.some.inj hd)
  cases h with
  | thenPart n => exact hb "then_" n 't' rfl (by decide) rfl
  | branchEnd n => exact hb "endif_" n 'e' rfl (by decide) rfl
  | loopTest n => exact hb "whilecond_" n 'w' rfl (by decide) rfl
  | loopBody n => exact hb "whileloop_" n 'w' rfl (by decide) rfl
  | loopEnd n => exact hb "whileend_" n 'w' rfl (by decide) rfl

/-- The labels of typed code are those of statements. -/
theorem plainLabels_of_typed {s : Scope} {temps : List Ty} {code : List Tac.Instr}
    (h : Code.Typed s temps code) : ∀ i ∈ code, ∀ name,
      i.target? = some name ∨ i.label? = some name → IsPlainLabel name := by
  induction h with
  | nil => simp
  | instr head _ ih =>
    refine List.forall_mem_cons.mpr ⟨fun name hn => ?_, ih⟩
    cases head with
    | branch label | jump label =>
      rcases hn with hn | hn
      · cases hn
        exact isPlainLabel_of_isBlockLabel label
      · cases hn
    | label label =>
      rcases hn with hn | hn
      · cases hn
      · cases hn
        exact isPlainLabel_of_isBlockLabel label
    | _ => rcases hn with hn | hn <;> cases hn
  | allocation _ _ _ ih =>
    refine List.forall_mem_cons.mpr ⟨?_, List.forall_mem_cons.mpr ⟨?_, ih⟩⟩ <;>
      (rintro name (hn | hn) <;> cases hn)

end JavaMinus.Jvm
