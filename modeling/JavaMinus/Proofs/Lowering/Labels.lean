import Mathlib.Data.List.Nodup
import JavaMinus.Proofs.Lowering.Always
import JavaMinus.Proofs.Tac.Labels

/-!
# Every label is placed once

A branch and a loop number their labels by counters that only go up, so the labels in the code of a
statement are numbered from where the counters stood to where they come to
(`Lower.NumbersLabels`), and no two of them are the same. The stems of the five families of labels tell
them apart (`Label.Family.label_inj`).
-/

namespace JavaMinus

open Tac Lower

/-! ## Families of labels -/

namespace Label

/-- What a label is for. -/
inductive Family where
  | thenPart
  | branchEnd
  | loopTest
  | loopBody
  | loopEnd
deriving DecidableEq

namespace Family

/-- What the labels of a family start with. -/
def stem : Family → String
  | .thenPart => "then_"
  | .branchEnd => "endif_"
  | .loopTest => "whilecond_"
  | .loopBody => "whileloop_"
  | .loopEnd => "whileend_"

/-- The label of a family with a number. -/
def label (k : Family) (n : Nat) : String := k.stem ++ toString n

/-- The counter that numbers the labels of a family. -/
def counter : Family → Counters → Nat
  | .thenPart, c | .branchEnd, c => c.branches
  | .loopTest, c | .loopBody, c | .loopEnd, c => c.loops

/-- Labels are the same only if their families and numbers are. -/
theorem label_inj {k k' : Family} {n n' : Nat} (h : k.label n = k'.label n') : k = k' ∧ n = n' := by
  have hk : k = k' := by
    have hchars := congrArg String.toList h
    unfold label at hchars
    rw [String.toList_append, String.toList_append] at hchars
    cases k <;> cases k' <;> first | rfl | simp [stem] at hchars
  subst hk
  exact ⟨rfl, numbered_inj h⟩

end Family

end Label

namespace Lower

/-! ## Layouts -/

variable {s : Scope} {c : Counters}

/-- The layout of a branch: the test, the else part in line, and the then part behind its label. -/
theorem branch_eq_done {condition : Expr} {thenPart elsePart : Lower Unit} {c' : Counters}
    {code : List Instr} (h : (branch s condition thenPart elsePart).run c = .done () code c') :
    ∃ c₀ test c₁ elses c₂ thens, freshBranch.run c = .done c.branches [] c₀ ∧
      (condition.lowerCondition s (Label.thenPart c.branches)).run c₀ = .done () test c₁ ∧
      elsePart.run c₁ = .done () elses c₂ ∧ thenPart.run c₂ = .done () thens c' ∧
      code = test ++ elses ++ [.jump (Label.branchEnd c.branches)] ++
        [.label (Label.thenPart c.branches)] ++ thens ++ [.label (Label.branchEnd c.branches)] := by
  obtain ⟨k, code₀, c₀, rest₀, h₀, hrest₀, rfl⟩ := run_bind_eq_done.mp h
  obtain ⟨_, test, c₁, rest₁, h₁, hrest₁, rfl⟩ := run_bind_eq_done.mp hrest₀
  obtain ⟨_, elses, c₂, rest₂, h₂, hrest₂, rfl⟩ := run_bind_eq_done.mp hrest₁
  obtain ⟨_, jump, c₃, rest₃, h₃, hrest₃, rfl⟩ := run_bind_eq_done.mp hrest₂
  obtain ⟨_, label, c₄, rest₄, h₄, hrest₄, rfl⟩ := run_bind_eq_done.mp hrest₃
  obtain ⟨_, thens, c₅, rest₅, h₅, hrest₅, rfl⟩ := run_bind_eq_done.mp hrest₄
  cases h₀
  cases h₃
  cases h₄
  cases hrest₅
  exact ⟨_, test, c₁, elses, c₂, thens, rfl, h₁, h₂, h₅, by simp only [List.append_assoc, List.nil_append]⟩

/-- The layout of a loop: the test under its label, the exit, and the body behind its label. -/
theorem loop_eq_done {condition : Expr} {body : Lower Unit} {c' : Counters} {code : List Instr}
    (h : (loop s condition body).run c = .done () code c') :
    ∃ c₀ test c₁ inner, freshLoop.run c = .done c.loops [] c₀ ∧
      (condition.lowerCondition s (Label.loopBody c.loops)).run c₀ = .done () test c₁ ∧
      body.run c₁ = .done () inner c' ∧
      code = [.label (Label.loopTest c.loops)] ++ test ++ [.jump (Label.loopEnd c.loops)] ++
        [.label (Label.loopBody c.loops)] ++ inner ++ [.jump (Label.loopTest c.loops)] ++
        [.label (Label.loopEnd c.loops)] := by
  obtain ⟨k, code₀, c₀, rest₀, h₀, hrest₀, rfl⟩ := run_bind_eq_done.mp h
  obtain ⟨_, label, c₁, rest₁, h₁, hrest₁, rfl⟩ := run_bind_eq_done.mp hrest₀
  obtain ⟨_, test, c₂, rest₂, h₂, hrest₂, rfl⟩ := run_bind_eq_done.mp hrest₁
  obtain ⟨_, jump, c₃, rest₃, h₃, hrest₃, rfl⟩ := run_bind_eq_done.mp hrest₂
  obtain ⟨_, label', c₄, rest₄, h₄, hrest₄, rfl⟩ := run_bind_eq_done.mp hrest₃
  obtain ⟨_, inner, c₅, rest₅, h₅, hrest₅, rfl⟩ := run_bind_eq_done.mp hrest₄
  obtain ⟨_, back, c₆, rest₆, h₆, hrest₆, rfl⟩ := run_bind_eq_done.mp hrest₅
  cases h₀
  cases h₁
  cases h₃
  cases h₄
  cases h₆
  cases hrest₆
  exact ⟨_, test, _, inner, rfl, h₂, h₅, by simp only [List.append_assoc, List.nil_append]⟩

/-! ## Numbered labels -/

open Label (Family)

/-- The labels in the code are numbered from where the counters stood to where they come to, and no
two of them are the same. -/
structure NumbersLabels (c : Counters) (code : List Instr) (c' : Counters) : Prop where
  le : ∀ k : Family, k.counter c ≤ k.counter c'
  once : (labelsOf code).Nodup
  between : ∀ name ∈ labelsOf code, ∃ (k : Family) (n : Nat), name = k.label n ∧ k.counter c ≤ n ∧
    n < k.counter c'

theorem labelsOf_append (code rest : List Instr) :
    labelsOf (code ++ rest) = labelsOf code ++ labelsOf rest := List.filterMap_append

namespace NumbersLabels

variable {c₁ c₂ : Counters} {code rest : List Instr}

theorem nil (c : Counters) : NumbersLabels c [] c :=
  ⟨fun _ => Nat.le_refl _, List.nodup_nil, fun _ h => by cases h⟩

/-- What follows has greater numbers. -/
theorem append (h : NumbersLabels c code c₁) (h' : NumbersLabels c₁ rest c₂) :
    NumbersLabels c (code ++ rest) c₂ where
  le k := Nat.le_trans (h.le k) (h'.le k)
  once := by
    rw [labelsOf_append]
    refine List.nodup_append.mpr ⟨h.once, h'.once, fun name hname name' hname' heq => ?_⟩
    obtain ⟨k, n, rfl, -, hn⟩ := h.between name hname
    obtain ⟨k', n', rfl, hn', -⟩ := h'.between name' hname'
    obtain ⟨rfl, rfl⟩ := Family.label_inj heq
    omega
  between name hname := by
    rw [labelsOf_append] at hname
    rcases List.mem_append.mp hname with hname | hname
    · obtain ⟨k, n, hk, hge, hlt⟩ := h.between name hname
      exact ⟨k, n, hk, hge, Nat.lt_of_lt_of_le hlt (h'.le k)⟩
    · obtain ⟨k, n, hk, hge, hlt⟩ := h'.between name hname
      exact ⟨k, n, hk, Nat.le_trans (h.le k) hge, hlt⟩

/-- The order of the labels does not matter. -/
theorem perm (h : NumbersLabels c code c₁) (hp : (labelsOf code).Perm (labelsOf rest)) :
    NumbersLabels c rest c₁ :=
  ⟨h.le, hp.nodup_iff.mp h.once, fun name hname => h.between name (hp.mem_iff.mpr hname)⟩

end NumbersLabels

/-- Instructions that are no labels number none. -/
theorem closed_numbersLabels : Closed (fun i => i.label? = none) NumbersLabels where
  nil := .nil
  append := .append
  fresh c := ⟨fun k => by cases k <;> exact Nat.le_refl _, List.nodup_nil, fun _ h => by cases h⟩
  emit c i hi := by
    have hnone : labelsOf [i] = [] := List.filterMap_cons_none hi
    exact ⟨fun _ => Nat.le_refl _, by rw [hnone]; exact List.nodup_nil,
      fun _ h => by rw [hnone] at h; cases h⟩

/-- Straight instructions are no labels. -/
theorem straight_numbersLabels : Closed (fun i => i.isStraight = true) NumbersLabels :=
  closed_numbersLabels.mono fun i hi => by cases i <;> first | rfl | cases hi

/-- The jump of a condition is no label. -/
theorem numbersLabels_condition (e : Expr) (target : String) :
    (e.lowerCondition s target).Always NumbersLabels :=
  always_lowerCondition straight_numbersLabels s e fun _ => always_emit closed_numbersLabels rfl

/-- Labels of one number and of different families, which is the number that is drawn. -/
theorem numbersLabels_drawn {families : List Family} {n : Nat} {c₀ : Counters}
    (hle : ∀ k : Family, k.counter c ≤ k.counter c₀) (honce : families.Nodup)
    (hn : ∀ k ∈ families, k.counter c = n ∧ k.counter c₀ = n + 1) :
    NumbersLabels c (families.map fun k => .label (k.label n)) c₀ := by
  have hlabels : labelsOf (families.map fun k => .label (k.label n)) = families.map fun k => k.label n := by
    rw [labelsOf, List.filterMap_map]
    exact congrFun List.filterMap_eq_map' families
  refine ⟨hle, ?_, fun name hname => ?_⟩
  · rw [hlabels]
    exact List.Nodup.map (fun _ _ h => (Family.label_inj h).1) honce
  · rw [hlabels] at hname
    obtain ⟨k, hk, rfl⟩ := List.mem_map.mp hname
    obtain ⟨hc, hc₀⟩ := hn k hk
    exact ⟨k, n, rfl, Nat.le_of_eq hc, by omega⟩

/-- A branch places two labels of its own number. -/
theorem numbersLabels_branch {condition : Expr} {thenPart elsePart : Lower Unit}
    (ht : thenPart.Always NumbersLabels) (he : elsePart.Always NumbersLabels) :
    (branch s condition thenPart elsePart).Always NumbersLabels := by
  intro c _ code c' hrun
  obtain ⟨c₀, test, c₁, elses, c₂, thens, hfresh, htest, helses, hthens, rfl⟩ := branch_eq_done hrun
  have own : NumbersLabels c ([Family.thenPart, .branchEnd].map fun k => .label (k.label c.branches))
      c₀ := by
    cases hfresh
    refine numbersLabels_drawn (fun k => ?_) (by decide) fun k hk => ?_
    · cases k <;> simp [Family.counter]
    · cases k <;> simp [Family.counter] at hk ⊢
  have parts := ((numbersLabels_condition condition _ _ _ _ _ htest).append
    (he _ _ _ _ helses)).append (ht _ _ _ _ hthens)
  refine (own.append parts).perm (List.perm_iff_count.mpr fun name => ?_)
  have hown : labelsOf ([Family.thenPart, .branchEnd].map fun k => .label (k.label c.branches)) =
      labelsOf [.label (Label.thenPart c.branches)] ++ labelsOf [.label (Label.branchEnd c.branches)] :=
    rfl
  have hjump : labelsOf [.jump (Label.branchEnd c.branches)] = [] := rfl
  simp only [labelsOf_append, List.count_append, hown, hjump, List.count_nil]
  omega

/-- A loop places three labels of its own number. -/
theorem numbersLabels_loop {condition : Expr} {body : Lower Unit} (hb : body.Always NumbersLabels) :
    (loop s condition body).Always NumbersLabels := by
  intro c _ code c' hrun
  obtain ⟨c₀, test, c₁, inner, hfresh, htest, hinner, rfl⟩ := loop_eq_done hrun
  have own : NumbersLabels c ([Family.loopTest, .loopBody, .loopEnd].map fun k =>
      .label (k.label c.loops)) c₀ := by
    cases hfresh
    refine numbersLabels_drawn (fun k => ?_) (by decide) fun k hk => ?_
    · cases k <;> simp [Family.counter]
    · cases k <;> simp [Family.counter] at hk ⊢
  have parts := (numbersLabels_condition condition _ _ _ _ _ htest).append (hb _ _ _ _ hinner)
  refine (own.append parts).perm (List.perm_iff_count.mpr fun name => ?_)
  have hown : labelsOf ([Family.loopTest, .loopBody, .loopEnd].map fun k => .label (k.label c.loops)) =
      labelsOf [.label (Label.loopTest c.loops)] ++ (labelsOf [.label (Label.loopBody c.loops)] ++
        labelsOf [.label (Label.loopEnd c.loops)]) := rfl
  have hjump (target : String) : labelsOf [.jump target] = [] := rfl
  simp only [labelsOf_append, List.count_append, hown, hjump, List.count_nil]
  omega

end Lower

mutual
/-- The labels in the code of a statement are numbered by the counters. -/
theorem Stmt.lower_numbersLabels (s : Scope) : ∀ stmt : Stmt, (stmt.lower s).Always NumbersLabels
  | .block body _ => lowerAll_numbersLabels s body
  | .branch _ thenBranch none _ =>
    numbersLabels_branch (lower_numbersLabels s thenBranch) (always_pure closed_numbersLabels ())
  | .branch _ thenBranch (some elseBranch) _ =>
    numbersLabels_branch (lower_numbersLabels s thenBranch) (lower_numbersLabels s elseBranch)
  | .loop _ body _ => numbersLabels_loop (lower_numbersLabels s body)
  | .expr e _ => e.lowerDiscarded_always straight_numbersLabels s
  | .assign name value _ => always_assign straight_numbersLabels s name value
  | .assignElement name index value _ => always_assignElement straight_numbersLabels s name index value
  | .ret value _ => always_ret straight_numbersLabels s value fun _ => always_emit closed_numbersLabels rfl
theorem Stmt.lowerAll_numbersLabels (s : Scope) :
    ∀ body : List Stmt, (Stmt.lowerAll s body).Always NumbersLabels
  | [] => always_pure closed_numbersLabels ()
  | stmt :: rest =>
    .bind closed_numbersLabels (lower_numbersLabels s stmt) fun _ => lowerAll_numbersLabels s rest
end

/-- No label stands twice in the code of statements. -/
theorem Stmt.labels_nodup_of_lowerAll {s : Scope} {body : List Stmt} {c c' : Counters}
    {code : List Instr} (h : (Stmt.lowerAll s body).run c = .done () code c') :
    (labelsOf code).Nodup :=
  (Stmt.lowerAll_numbersLabels s body c () code c' h).once

end JavaMinus
