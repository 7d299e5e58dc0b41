import JavaMinus.Pipeline
import JavaMinus.Proofs.Lowering.Bare
import JavaMinus.Proofs.Lowering.Program
import JavaMinus.Syntax.Build

/-!
# Parentheses and spans carry no meaning

Two programs that are the same without parentheses and spans have the same errors, up to the places of
the errors, and when they have none they are compiled to the same unit and the same texts, or stopped
by the same error (`Program.compile_of_bare_eq`).
-/

namespace JavaMinus

open Tac Lower

/-- Errors other than those of inference have no place to differ in. -/
theorem LoweringError.eq_of_bare {e e' : LoweringError} (h : e.bare = e'.bare)
    (he : ∀ cause, e' ≠ .typing cause) : e = e' := by
  cases e' with
  | typing cause => exact absurd rfl (he cause)
  | _ => cases e <;> first | exact h | cases h

namespace Program

variable {p q : Program} {policy : Policy}

/-- The lowering of a program without errors is not stopped by inference. -/
theorem ne_typing_of_toUnit {e : LoweringError} (h : p.check p.symbolTable policy = [])
    (he : p.toUnit p.symbolTable policy = .error (.lowering e)) (cause : TypeError) :
    e ≠ .typing cause := by
  have unit := toUnit_of_accepted (accepted_of_check (p := p) h fun m _ =>
    ⟨Scope.names_true _, fun stmt _ => stmt.allocates_true⟩)
  rw [he] at unit
  rintro rfl
  rcases unit with h | ⟨_, -, -, -, h⟩ <;> cases h

/-- A program without errors has the same class without parentheses and spans. -/
theorem toUnit_bare (h : p.check p.symbolTable policy = []) :
    p.bare.toUnit p.symbolTable policy = p.toUnit p.symbolTable policy := by
  have alike := p.lower_bare p.symbolTable policy {}
  have untyped := fun e => ne_typing_of_toUnit (e := e) h
  unfold toUnit at untyped ⊢
  generalize (p.bare.lower p.symbolTable policy).run {} = here at alike ⊢
  generalize (p.lower p.symbolTable policy).run {} = there at alike untyped ⊢
  cases alike with
  | done unit code c => rfl
  | failed he c => rw [LoweringError.eq_of_bare he (untyped _ rfl)]

theorem compile_bare {config : Config} (h : p.check p.symbolTable config.policy = []) :
    p.bare.compile config = p.compile config := by
  unfold compile compileWith
  rw [symbolTable_bare, check_bare, h, List.map_nil, toUnit_bare h]

/-- **Parentheses and spans carry no meaning.** Two programs that are the same once parentheses are
replaced by what they enclose and spans are erased have the same errors, one by one and up to their
places, under every policy. When there are none, compiling gives the same result: the same unit, the
same listing and the same assembly, or the same error. -/
theorem compile_of_bare_eq {p q : Program} (h : p.bare = q.bare) :
    (∀ policy : Policy, (p.check p.symbolTable policy).map CheckError.bare =
      (q.check q.symbolTable policy).map CheckError.bare) ∧
    ∀ config : Config, p.check p.symbolTable config.policy = [] →
      p.compile config = q.compile config := by
  have table : p.symbolTable = q.symbolTable := by
    rw [← symbolTable_bare p, h, symbolTable_bare]
  have errors (policy : Policy) : (p.check p.symbolTable policy).map CheckError.bare =
      (q.check q.symbolTable policy).map CheckError.bare := by
    rw [← check_bare, ← check_bare, h, table]
  refine ⟨errors, fun config hp => ?_⟩
  have hq : q.check q.symbolTable config.policy = [] := by
    have := errors config.policy
    rw [hp] at this
    exact List.map_eq_nil_iff.mp this.symm
  rw [← compile_bare hp, h, compile_bare hq]

/-- A method that waits on itself, written with something around the expressions whose shape matters:
a condition, a call that is dropped, a receiver, the call in a comparison and the length of an array. -/
def waiting (wrap : Expr → Expr) : Program where
  classDecl := {
    name := "Gate"
    fields := [Build.var "bars" (.array .int)]
    methods := [{
      name := "wait"
      returnType := .scalar .boolean
      params := [Build.var "left" (.scalar .int)]
      body := [
        Build.assign "bars" (Build.newIntArray (wrap (Build.int 3))),
        Build.loop (wrap (Build.binary .lt (wrap (Build.ident "left")) (Build.length (Build.ident "bars"))))
          (Build.exprStmt (wrap (Build.call (wrap Build.self) "wait" [wrap (Build.int 1)]))),
        Build.ret (Build.binary .eq (wrap (Build.selfCall "wait" [Build.int 2])) (Build.boolean true))] }] }

/-- Two parentheses around each of them, placed somewhere, change nothing. -/
theorem compile_of_bare_eq_waiting :
    let wrapped := waiting fun e => (Build.paren (Build.paren e)).withSpan ⟨4, 9, 2, 1⟩
    wrapped.bare = (waiting id).bare ∧ wrapped.check wrapped.symbolTable {} = [] ∧
      ∀ config : Config, config.policy = {} → wrapped.compile config = (waiting id).compile config := by
  intro wrapped
  have same : wrapped.bare = (waiting id).bare := rfl
  have accepted : wrapped.check wrapped.symbolTable {} = [] := by decide
  exact ⟨same, accepted, fun config h => (compile_of_bare_eq same).2 config (h ▸ accepted)⟩

end Program

end JavaMinus
