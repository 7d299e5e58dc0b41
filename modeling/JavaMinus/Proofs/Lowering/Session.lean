import JavaMinus.Binding
import JavaMinus.Lowering.Program
import JavaMinus.Syntax.Build

/-!
# A lowerer has no memory

A lowerer keeps its counters and the body that it was writing, and an error leaves both as they happen
to be. No outcome shows it: counting starts anew with every program, and a body is dropped before the
code of a method is written, so what is taken out as that code was all written for it
(`performs_codeOf`). The outcomes of a session are those of lowering every program by itself
(`lowerSession_eq_map`).

`Performs` is the relation that carries this: a step of the lowerer ends like a computation that lowers
from the same counters, whatever the body holds.
-/

namespace JavaMinus

open Lower

namespace Lowering

variable {α β : Type} {step : Lowering α} {next : α → Lowering β} {x : Lower α} {f : α → Lower β}
  {t : SymbolTable} {policy : Policy}

/-- From every lowerer the step ends as the computation does from its counters. -/
def Performs (step : Lowering α) (x : Lower α) : Prop :=
  ∀ l : Lowerer, outcome (step l) = x.run l.counters

theorem performs_pure (a : α) : Performs (pure a) (pure a : Lower α) := fun _ => rfl

/-- A computation that writes nothing where it succeeds is performed by writing it. -/
theorem performs_write (h : ∀ c a code c', x.run c = .done a code c' → code = []) :
    Performs (write x) x := by
  intro l
  unfold write
  split
  · next a code c hx =>
    rw [hx, h _ _ _ _ hx]
    rfl
  · next e c hx =>
    rw [hx]
    rfl

/-- What follows an error is not run, and what follows a value goes on from the lowerer as it is. -/
theorem run_bind (step : Lowering α) (next : α → Lowering β) (l : Lowerer) :
    (step >>= next) l = match step l with
      | (.ok a, l') => next a l'
      | (.error e, l') => (.error e, l') := by
  change (match step l with | (o, l') => ExceptT.bindCont next o l') = _
  obtain ⟨_ | _, _⟩ := step l <;> rfl

theorem Performs.bind (hx : Performs step x) (hf : ∀ a, Performs (next a) (f a)) :
    Performs (step >>= next) (x >>= f) := by
  intro l
  rw [run_bind, Lower.run_bind, ← hx l]
  obtain ⟨e | a, l'⟩ := step l
  · rfl
  · have hnext := hf a l'
    dsimp only [outcome] at hnext ⊢
    rw [hnext]
    cases (f a).run l'.counters <;> rfl

/-- A body that is dropped before the code is written holds just that code when it is taken out. -/
theorem performs_codeOf (x : Lower Unit) : Performs (codeOf x) (Lower.codeOf x) := by
  intro l
  have dropped : codeOf x l = (do
      write x
      modifyGet fun l => (l.body, { l with body := [] }) : Lowering (List Tac.Instr))
        { l with body := [] } := rfl
  rw [dropped, run_bind]
  unfold write Lower.codeOf
  dsimp only
  cases x.run l.counters <;> rfl

/-! ## Methods and programs -/

theorem performs_ofOption (e : LoweringError) (o : Option α) :
    Performs (write (ofOption e o)) (ofOption e o) :=
  performs_write fun _ _ _ _ h => (run_ofOption_eq_done h).2.1

theorem performs_closeMethod (m : Tac.Method) :
    Performs (write (closeMethod m)) (closeMethod m) := by
  refine performs_write fun c a written c' h => ?_
  unfold closeMethod at h
  split at h
  · cases h
    rfl
  · split at h
    · cases h
      rfl
    · cases h

theorem performs_method (signature : Signature) (m : MethodDecl) :
    Performs (method t policy signature m) (m.lower t policy signature) :=
  .bind (performs_codeOf _) fun _ => performs_closeMethod _

theorem performs_methods : ∀ (rest : List MethodDecl) (index : Nat),
    Performs (methods t policy index rest) (lowerMethods t policy index rest)
  | [], _ => performs_pure _
  | m :: rest, index => by
    rw [methods, lowerMethods]
    exact .bind (performs_ofOption _ _) fun signature => .bind (performs_method signature m) fun _ =>
      .bind (performs_methods rest (index + 1)) fun _ => performs_pure _

theorem performs_program (p : Program) : Performs (program t policy p) (p.lower t policy) :=
  .bind (performs_write fun _ _ _ _ h => by cases h; rfl) fun _ =>
    .bind (performs_methods _ 0) fun _ => performs_pure _

end Lowering

variable (t : SymbolTable) (policy : Policy)

/-- Counting starts anew with the program, so where it stood does not matter. -/
theorem Program.run_lower (p : Program) (c : Counters) :
    (p.lower t policy).run c = (p.lower t policy).run {} := rfl

/-- A lowerer in whatever state makes of a program what is made of the program by itself. -/
theorem Lowerer.lower_fst (l : Lowerer) (p : Program) :
    (l.lower t policy p).1 = (p.lower t policy).run {} :=
  (Lowering.performs_program p l).trans (p.run_lower t policy l.counters)

/-- **A lowerer has no memory.** Whatever counters and body a lowerer holds, and whether the programs in
front were lowered or stopped with an error, it makes of every program what a new lowerer makes of it:
the class or the error, and the counters. That is also what the program gives by itself. -/
theorem lowerSession_eq_map (l : Lowerer) (programs : List Program) :
    lowerSession t policy l programs =
        programs.map (fun p => (Lowerer.lower t policy {} p).1) ∧
      ∀ p : Program, (Lowerer.lower t policy {} p).1 = (p.lower t policy).run {} := by
  refine ⟨?_, Lowerer.lower_fst t policy {}⟩
  induction programs generalizing l with
  | nil => rfl
  | cons p rest ih =>
    rw [lowerSession, List.map_cons, Lowerer.lower_fst, Lowerer.lower_fst, ih]

/-- A program that stops in the second statement of its second method. -/
def halting : Program where
  classDecl := {
    name := "Halting"
    methods := [
      { name := "sum"
        returnType := .scalar .int
        params := [⟨"n", .scalar .int, {}⟩]
        body := [Build.ret (Build.binary .add (Build.ident "n") (Build.int 1))] },
      { name := "store"
        returnType := .scalar .void
        params := [⟨"n", .scalar .int, {}⟩]
        body := [
          Build.assign "n" (Build.binary .mul (Build.ident "n") (Build.ident "n")),
          Build.assign "n" (Build.binary .add (Build.int 1) (Build.ident "m"))] }] }

/-- The error leaves two numbers drawn and the code of the first statement in the body. -/
example : (Lowerer.lower halting.symbolTable {} {} halting).2 = {
    counters := { temps := 2 }
    body := [
      .binary (.temp 1 Ty.int) .mul (.var "n" Ty.int) (.var "n" Ty.int),
      .assign (.var "n" Ty.int) (.temp 1 Ty.int)] } := by
  decide

end JavaMinus
