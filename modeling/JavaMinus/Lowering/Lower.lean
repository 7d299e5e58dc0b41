import JavaMinus.Lowering.Error
import JavaMinus.Tac.ClassUnit

/-!
# Computations that lower

Lowering draws numbers from three counters and writes instructions. `Lower α` is a computation that
does both and yields an `α`, or stops with an error. The instructions written are a result, not a
state: what a computation writes does not depend on what was written before it, and the code of a
sequence is the concatenation of the codes of its parts (`Lower.run_bind`).

Counters are kept where a computation stops, so that they can still be read. So are the instructions
written by then (`Lower.unfinished`): they have no use, but whoever lowers still holds them.
-/

namespace JavaMinus

open Tac

/-- The next free numbers of temporaries, of branch labels and of loop labels. -/
structure Counters where
  temps : Nat := 0
  branches : Nat := 0
  loops : Nat := 0
deriving DecidableEq, Inhabited

/-- How a lowering computation ends. -/
inductive Lowered (α : Type) where
  | done (value : α) (code : List Instr) (counters : Counters)
  | failed (error : LoweringError) (counters : Counters)

/-- The counters where the computation ended. -/
def Lowered.counters {α : Type} : Lowered α → Counters
  | .done _ _ c => c
  | .failed _ c => c

/-- A computation that lowers. -/
structure Lower (α : Type) where
  run : Counters → Lowered α
  /-- What a computation that stops with an error has written by then. -/
  unfinished : Counters → List Instr := fun _ => []

namespace Lower

/-- Yield a value and write nothing. -/
def done {α : Type} (a : α) : Lower α where
  run c := .done a [] c

/-- Run one computation, then the next on its value; the codes follow each other. -/
def andThen {α β : Type} (x : Lower α) (f : α → Lower β) : Lower β where
  run c :=
    match x.run c with
    | .failed e c => .failed e c
    | .done a code c =>
      match (f a).run c with
      | .failed e c => .failed e c
      | .done b more c => .done b (code ++ more) c
  unfinished c :=
    match x.run c with
    | .failed .. => x.unfinished c
    | .done a code c => code ++ (f a).unfinished c

instance : Monad Lower where
  pure := done
  bind := andThen

/-- Stop with an error. -/
def fail {α : Type} (e : LoweringError) : Lower α where
  run c := .failed e c

/-- Write an instruction. -/
def emit (i : Instr) : Lower Unit where
  run c := .done () [i] c

/-- The outcome of inference as a computation. -/
def ofTyping {α : Type} : Except TypeError α → Lower α
  | .ok a => done a
  | .error e => fail (.typing e)

/-- The value of an option, or an error. -/
def ofOption {α : Type} (e : LoweringError) : Option α → Lower α
  | some a => done a
  | none => fail e

/-- A temporary that was not used before. -/
def fresh (ty : Ty) : Lower Operand where
  run c := .done (.temp c.temps ty.plain) [] { c with temps := c.temps + 1 }

/-- The number of a branch statement. -/
def freshBranch : Lower Nat where
  run c := .done c.branches [] { c with branches := c.branches + 1 }

/-- The number of a loop statement. -/
def freshLoop : Lower Nat where
  run c := .done c.loops [] { c with loops := c.loops + 1 }

/-- Start counting anew. -/
def reset : Lower Unit where
  run _ := .done () [] {}

/-- The code that a computation writes, as a value. -/
def codeOf (x : Lower Unit) : Lower (List Instr) where
  run c :=
    match x.run c with
    | .failed e c => .failed e c
    | .done _ code c => .done code [] c
  unfinished := x.unfinished

@[simp] theorem run_pure {α : Type} (a : α) (c : Counters) :
    (pure a : Lower α).run c = .done a [] c := rfl

/-- The code of a sequence is the concatenation of the codes of its parts. -/
theorem run_bind {α β : Type} (x : Lower α) (f : α → Lower β) (c : Counters) :
    (x >>= f).run c = match x.run c with
      | .failed e c => .failed e c
      | .done a code c => match (f a).run c with
        | .failed e c => .failed e c
        | .done b more c => .done b (code ++ more) c := rfl

/-- Yielding a value first changes nothing. -/
theorem pure_bind {α β : Type} (a : α) (f : α → Lower β) : (pure a >>= f) = f a := by
  refine congrArg (Lower.mk · (f a).unfinished) (funext fun c => ?_)
  change (match (f a).run c with
    | .failed e c => Lowered.failed e c
    | .done b more c => .done b ([] ++ more) c) = (f a).run c
  cases (f a).run c <;> rfl

theorem ofTyping_ok {α : Type} (a : α) : (ofTyping (.ok a) : Lower α) = pure a := rfl

theorem ofOption_some {α : Type} (e : LoweringError) (a : α) :
    (ofOption e (some a) : Lower α) = pure a := rfl

/-- A sequence succeeds exactly when its parts do. -/
theorem run_bind_eq_done {α β : Type} {x : Lower α} {f : α → Lower β} {c c' : Counters} {b : β}
    {code : List Instr} :
    (x >>= f).run c = .done b code c' ↔ ∃ a code₁ c₁ code₂, x.run c = .done a code₁ c₁ ∧
      (f a).run c₁ = .done b code₂ c' ∧ code = code₁ ++ code₂ := by
  rw [run_bind]
  constructor
  · intro h
    split at h
    · cases h
    · split at h
      · cases h
      · rename_i a code₁ c₁ h₁ _ b' code₂ c₂ h₂
        cases h
        exact ⟨a, code₁, c₁, code₂, h₁, h₂, rfl⟩
  · rintro ⟨a, code₁, c₁, code₂, h₁, h₂, rfl⟩
    simp [h₁, h₂]

/-- The value of an option is there, and nothing is written or drawn for it. -/
theorem run_ofOption_eq_done {α : Type} {e : LoweringError} {o : Option α} {c c' : Counters} {a : α}
    {code : List Instr} (h : (ofOption e o).run c = .done a code c') :
    o = some a ∧ code = [] ∧ c' = c := by
  cases o with
  | none => cases h
  | some b =>
    cases h
    exact ⟨rfl, rfl, rfl⟩

@[simp] theorem run_emit (i : Instr) (c : Counters) : (emit i).run c = .done () [i] c := rfl

@[simp] theorem run_fail {α : Type} (e : LoweringError) (c : Counters) :
    (fail e : Lower α).run c = .failed e c := rfl

@[simp] theorem run_fresh (ty : Ty) (c : Counters) : (fresh ty).run c =
    .done (.temp c.temps ty.plain) [] { c with temps := c.temps + 1 } := rfl

end Lower

end JavaMinus
