import Mathlib.Logic.Relation
import JavaMinus.Proofs.Runtime.Heap

/-!
# Running a list of instructions

Code of either kind runs in the same way: an instruction acts on a state, and then control passes to
the next instruction, or to the place of a label, or out of the method (`Action`). A machine is a
list of instructions with what each of them does and where labels are (`Machine`). Where an
instruction does not act the machine stands still; so a run that returns raised no exception.
-/

namespace JavaMinus.Runtime

/-- What an instruction does: it changes the state, and may jump or return. -/
inductive Action (σ : Type) where
  | next (state : σ)
  | jump (target : String) (state : σ)
  | ret (value : Option Value) (state : σ)

/-- Two actions pass control in the same way, and leave related states. -/
inductive Action.Like {σ τ : Type} (related : σ → τ → Prop) : Action σ → Action τ → Prop
  | next {s : σ} {t : τ} (states : related s t) : Like related (.next s) (.next t)
  | jump {s : σ} {t : τ} (target : String) (states : related s t) :
      Like related (.jump target s) (.jump target t)
  | ret {s : σ} {t : τ} (value : Option Value) (states : related s t) :
      Like related (.ret value s) (.ret value t)

/-- Instructions in a row, what they do, and the indices of labels. -/
structure Machine (ι σ : Type) where
  code : List ι
  place? : String → Option Nat
  act : ι → σ → Option (Action σ)

namespace Machine

variable {ι σ : Type} {m : Machine ι σ}

/-- One step: the instruction at an index acts, and control passes on. -/
inductive Step (m : Machine ι σ) : Nat × σ → Nat × σ → Prop
  | next {n : Nat} {i : ι} {s t : σ} (here : m.code[n]? = some i)
      (acts : m.act i s = some (.next t)) : Step m (n, s) (n + 1, t)
  | jump {n k : Nat} {i : ι} {s t : σ} {target : String} (here : m.code[n]? = some i)
      (acts : m.act i s = some (.jump target t)) (placed : m.place? target = some k) :
      Step m (n, s) (k, t)

/-- Control passes from one point to another in some number of steps. -/
abbrev Steps (m : Machine ι σ) : Nat × σ → Nat × σ → Prop := Relation.ReflTransGen m.Step

/-- The instruction at a point returns. -/
inductive Returns (m : Machine ι σ) : Nat × σ → Option Value → σ → Prop
  | intro {n : Nat} {i : ι} {s t : σ} {value : Option Value} (here : m.code[n]? = some i)
      (acts : m.act i s = some (.ret value t)) : Returns m (n, s) value t

/-- A run from a point returns a value and leaves a state. -/
def RunsTo (m : Machine ι σ) (c : Nat × σ) (value : Option Value) (s : σ) : Prop :=
  ∃ d, m.Steps c d ∧ m.Returns d value s

/-- From a point the machine comes to do an action, with its next instruction at the given index. -/
def Does (m : Machine ι σ) (c : Nat × σ) (behind : Nat) : Action σ → Prop
  | .next s => m.Steps c (behind, s)
  | .jump target s => ∀ k, m.place? target = some k → m.Steps c (k, s)
  | .ret value s => m.RunsTo c value s

/-- There is one next point at most, and none behind a return. -/
theorem Step.unique {c d e : Nat × σ} (h : m.Step c d) (h' : m.Step c e) : d = e := by
  cases h with
  | next here acts =>
    cases h' with
    | next here' acts' =>
      rw [here] at here'
      cases here'
      rw [acts] at acts'
      cases acts'
      rfl
    | jump here' acts' _ =>
      rw [here] at here'
      cases here'
      rw [acts] at acts'
      cases acts'
  | jump here acts placed =>
    cases h' with
    | next here' acts' =>
      rw [here] at here'
      cases here'
      rw [acts] at acts'
      cases acts'
    | jump here' acts' placed' =>
      rw [here] at here'
      cases here'
      rw [acts] at acts'
      cases acts'
      rw [placed] at placed'
      cases placed'
      rfl

theorem Returns.not_step {c d : Nat × σ} {value : Option Value} {s : σ} (h : m.Returns c value s) :
    ¬ m.Step c d := by
  cases h with
  | intro here acts =>
    intro h
    cases h with
    | next here' acts' | jump here' acts' _ =>
      rw [here] at here'
      cases here'
      rw [acts] at acts'
      cases acts'

theorem Returns.unique {c : Nat × σ} {v v' : Option Value} {s s' : σ} (h : m.Returns c v s)
    (h' : m.Returns c v' s') : v = v' ∧ s = s' := by
  cases h with
  | intro here acts =>
    cases h' with
    | intro here' acts' =>
      rw [here] at here'
      cases here'
      rw [acts] at acts'
      cases acts'
      exact ⟨rfl, rfl⟩

/-- A run gives one result. -/
theorem RunsTo.unique {c : Nat × σ} {v v' : Option Value} {s s' : σ} (h : m.RunsTo c v s)
    (h' : m.RunsTo c v' s') : v = v' ∧ s = s' := by
  obtain ⟨d, hd, hr⟩ := h
  obtain ⟨d', hd', hr'⟩ := h'
  induction hd using Relation.ReflTransGen.head_induction_on with
  | refl =>
    rcases Relation.ReflTransGen.cases_head hd' with rfl | ⟨e, hstep, -⟩
    · exact hr.unique hr'
    · exact absurd hstep hr.not_step
  | head hstep _ ih =>
    rcases Relation.ReflTransGen.cases_head hd' with rfl | ⟨e, hstep', hrest⟩
    · exact absurd hstep hr'.not_step
    · cases hstep.unique hstep'
      exact ih hrest

section
variable {i : ι} (hlast : m.code.getLast? = some i) (hi : ∀ s t, m.act i s ≠ some (.next t))
  (hplace : ∀ target k, m.place? target = some k → k < m.code.length)
include hlast hi hplace

/-- A step leads to an instruction of code whose last one never passes control on, if every label has
one. -/
theorem lt_length_of_step {c d : Nat × σ} (h : m.Step c d) : d.1 < m.code.length := by
  cases h with
  | @next k j _ _ here acts =>
    have hk : k < m.code.length := (List.getElem?_eq_some_iff.mp here).1
    refine Nat.lt_of_le_of_ne hk fun hend => ?_
    rw [List.getLast?_eq_getElem?, ← hend, Nat.add_sub_cancel, here] at hlast
    cases hlast
    exact hi _ _ acts
  | jump _ _ placed => exact hplace _ _ placed

/-- So no run comes behind the code. -/
theorem lt_length_of_steps {c d : Nat × σ} (hc : c.1 < m.code.length) (h : m.Steps c d) :
    d.1 < m.code.length := by
  rcases Relation.ReflTransGen.cases_tail h with rfl | ⟨e, -, hstep⟩
  · exact hc
  · exact lt_length_of_step hlast hi hplace hstep

end

/-! ## Straight code -/

/-- Instructions that act in turn, without a jump or a return. -/
def runAll (act : ι → σ → Option (Action σ)) : List ι → σ → Option σ
  | [], s => some s
  | i :: rest, s =>
    match act i s with
    | some (.next t) => runAll act rest t
    | _ => none

variable {act : ι → σ → Option (Action σ)}

theorem runAll_append {code rest : List ι} {s t : σ} (h : runAll act code s = some t) :
    runAll act (code ++ rest) s = runAll act rest t := by
  induction code generalizing s with
  | nil =>
    cases h
    rfl
  | cons i code ih =>
    rw [List.cons_append, runAll]
    rw [runAll] at h
    split at h
    · exact ih h
    · cases h

theorem runAll_cons {i : ι} {rest : List ι} {s t : σ} (h : act i s = some (.next t)) :
    runAll act (i :: rest) s = runAll act rest t := by
  rw [runAll, h]

/-- A run of straight code acts by its first instruction, and then runs the others. -/
theorem runAll_cons_eq_some {i : ι} {rest : List ι} {s t : σ} :
    runAll act (i :: rest) s = some t ↔ ∃ u, act i s = some (.next u) ∧ runAll act rest u = some t := by
  constructor
  · intro h
    rw [runAll] at h
    split at h
    · next u hu => exact ⟨u, hu, h⟩
    · cases h
  · rintro ⟨u, hu, h⟩
    rw [runAll_cons hu]
    exact h

/-- A run of two codes in a row runs the first, and then the second. -/
theorem runAll_append_eq_some {code rest : List ι} {s t : σ} :
    runAll act (code ++ rest) s = some t ↔
      ∃ u, runAll act code s = some u ∧ runAll act rest u = some t := by
  constructor
  · intro h
    induction code generalizing s with
    | nil => exact ⟨s, rfl, h⟩
    | cons i code ih =>
      obtain ⟨first, hfirst, hrest⟩ := runAll_cons_eq_some.mp h
      obtain ⟨u, hu, ht⟩ := ih hrest
      exact ⟨u, runAll_cons_eq_some.mpr ⟨first, hfirst, hu⟩, ht⟩
  · rintro ⟨u, hu, h⟩
    rw [runAll_append hu]
    exact h

/-- The machine runs straight code that stands in its code. -/
theorem steps_of_runAll {before code after : List ι} {s t : σ}
    (hcode : m.code = before ++ code ++ after) (h : runAll m.act code s = some t) :
    m.Steps (before.length, s) (before.length + code.length, t) := by
  induction code generalizing before s with
  | nil =>
    cases h
    exact .refl
  | cons i rest ih =>
    rw [runAll] at h
    split at h
    · next next hnext =>
      have here : m.code[before.length]? = some i := by
        rw [hcode, List.append_assoc, List.getElem?_append_right (Nat.le_refl _)]
        simp
      have first : m.Step (before.length, s) (before.length + 1, next) := .next here hnext
      have hcode' : m.code = (before ++ [i]) ++ rest ++ after := by rw [hcode]; simp
      have tail := ih hcode' h
      rw [List.length_append, List.length_singleton] at tail
      refine .head first ?_
      rw [List.length_cons, Nat.add_comm rest.length 1, ← Nat.add_assoc]
      exact tail
    · cases h

theorem RunsTo.of_steps {c d : Nat × σ} {value : Option Value} {s : σ} (h : m.Steps c d)
    (hr : m.RunsTo d value s) : m.RunsTo c value s := by
  obtain ⟨e, he, hr⟩ := hr
  exact ⟨e, h.trans he, hr⟩

/-- What is done from a point is done from every point that control passes from to it. -/
theorem Does.of_steps {c d : Nat × σ} {behind : Nat} {a : Action σ} (h : m.Does d behind a)
    (hs : m.Steps c d) : m.Does c behind a := by
  cases a with
  | next s => exact hs.trans h
  | jump target s => exact fun k hk => hs.trans (h k hk)
  | ret value s => exact RunsTo.of_steps hs h

/-- Behind straight code an instruction does what it does. -/
theorem does_of_runAll {before code after : List ι} {i : ι} {s t : σ} {a : Action σ}
    (hcode : m.code = before ++ (code ++ [i]) ++ after) (h : runAll m.act code s = some t)
    (ha : m.act i t = some a) : m.Does (before.length, s) (before.length + (code ++ [i]).length) a := by
  have hstraight : m.code = before ++ code ++ ([i] ++ after) := by rw [hcode]; simp
  have steps := steps_of_runAll hstraight h
  have here : m.code[before.length + code.length]? = some i := by
    rw [hstraight, ← List.length_append, List.getElem?_append_right (Nat.le_refl _)]
    simp
  cases a with
  | next u =>
    rw [List.length_append, List.length_singleton, ← Nat.add_assoc]
    exact steps.tail (.next here ha)
  | jump target u => exact fun k hk => steps.tail (.jump here ha hk)
  | ret value u => exact ⟨_, steps, .intro here ha⟩

/-- One instruction does what it does. -/
theorem does_of_act {before after : List ι} {i : ι} {s : σ} {a : Action σ}
    (hcode : m.code = before ++ [i] ++ after) (ha : m.act i s = some a) :
    m.Does (before.length, s) (before.length + 1) a := by
  have hstraight : m.code = before ++ ([] ++ [i]) ++ after := hcode
  exact does_of_runAll hstraight rfl ha

end Machine

end JavaMinus.Runtime
