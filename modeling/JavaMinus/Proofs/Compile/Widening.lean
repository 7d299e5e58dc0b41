import JavaMinus.Pipeline
import JavaMinus.Proofs.Lowering.Lenient
import JavaMinus.Proofs.Lowering.Program
import JavaMinus.Syntax.Build

/-!
# Policies only widen acceptance

What a policy grants decides which programs are accepted and nothing else
(`Program.compile_of_policy_le`): a program that a policy accepts is accepted by every more lenient
one, its expressions stand at the same sites with the same types, and it is compiled to the same unit
and the same text, or stopped by the same error.
-/

namespace JavaMinus

open Tac Lower

variable {t : SymbolTable} {p q : Policy}

namespace MethodDecl

theorem checkBody_under (hq : p ≤ q) {index : Nat} {m : MethodDecl}
    (h : m.checkBody t p index = []) : m.checkBody t q index = [] := by
  unfold checkBody at h ⊢
  split at h
  · exact Scope.checkStmts_under (s := ⟨t, _, p⟩) hq m.body h
  · cases h

/-- An accepted method has the same code under a more lenient policy. -/
theorem lower_under (hq : p ≤ q) {index : Nat} {m : MethodDecl} {signature : Signature}
    (ht : t.methodAt? index m.name = some signature) (h : m.checkBody t p index = []) :
    m.lower t q signature = m.lower t p signature := by
  rw [checkBody, ht] at h
  have hbody : Stmt.lowerAll ⟨t, signature, q⟩ m.body = Stmt.lowerAll ⟨t, signature, p⟩ m.body :=
    Stmt.lowerAll_under (s := ⟨t, signature, p⟩) hq m.body h
  unfold lower
  dsimp only
  rw [hbody]
  rfl

end MethodDecl

/-- Accepted methods are accepted, and have the same code, under a more lenient policy. -/
theorem checkMethods_under (hq : p ≤ q) : ∀ (ms : List MethodDecl) {index : Nat} {seen : List String},
    checkMethods t p index seen ms = [] →
      checkMethods t q index seen ms = [] ∧ lowerMethods t q index ms = lowerMethods t p index ms
  | [], _, _, _ => by rw [checkMethods, lowerMethods, lowerMethods]; exact ⟨rfl, rfl⟩
  | m :: rest, index, seen, h => by
    rw [checkMethods] at h ⊢
    obtain ⟨h, hrest⟩ := List.append_eq_nil_iff.mp h
    obtain ⟨hname, h⟩ := List.append_eq_nil_iff.mp h
    obtain ⟨hdecl, hbody⟩ := List.append_eq_nil_iff.mp h
    obtain ⟨hchecked, hlowered⟩ := checkMethods_under hq rest hrest
    refine ⟨?_, ?_⟩
    · rw [hname, hchecked, MethodDecl.check, hdecl, MethodDecl.checkBody_under hq hbody]
      rfl
    · rw [lowerMethods, lowerMethods, hlowered]
      refine bind_congr fun _ signature _ _ hs => ?_
      have ht : t.methodAt? index m.name = some signature := by
        cases hm : t.methodAt? index m.name with
        | none => rw [hm] at hs; cases hs
        | some m => rw [hm] at hs; cases hs; rfl
      rw [MethodDecl.lower_under hq ht hbody]

namespace Program

variable {program : Program}

theorem check_under (hq : p ≤ q) (h : program.check t p = []) : program.check t q = [] := by
  unfold check at h ⊢
  obtain ⟨hdecl, hmethods⟩ := List.append_eq_nil_iff.mp h
  rw [hdecl, (checkMethods_under hq _ hmethods).1]
  rfl

/-- An accepted program is lowered to the same class under a more lenient policy. -/
theorem toUnit_under (hq : p ≤ q) (h : program.check t p = []) :
    program.toUnit t q = program.toUnit t p := by
  have hmethods := (checkMethods_under hq _ (List.append_eq_nil_iff.mp h).2).2
  unfold toUnit lower
  rw [hmethods]

/-- **Policies only widen acceptance.** A program that is accepted under a policy is accepted under
every more lenient one. Its expressions, none left out, stand at the same sites and have the same
types, and compiling gives the same result: the same unit and the same texts, or the same error. -/
theorem compile_of_policy_le (program : Program) {p q : Policy} (hq : p ≤ q)
    (h : program.check program.symbolTable p = []) :
    program.check program.symbolTable q = [] ∧
    (∀ m ∈ program.classDecl.methods, ∀ stmt ∈ m.body,
      (stmt.placed (program.scopeOf p m)).map Prod.snd =
        (stmt.nodes.flatMap fun inner => Expr.nodesAll inner.expressions) ∧
      stmt.placed (program.scopeOf q m) = stmt.placed (program.scopeOf p m) ∧
      ∀ x ∈ stmt.placed (program.scopeOf p m),
        x.2.infer (program.scopeOf q m) x.1 = x.2.infer (program.scopeOf p m) x.1) ∧
    program.toUnit program.symbolTable q = program.toUnit program.symbolTable p ∧
    ∀ config : Config,
      program.compile { config with policy := q } = program.compile { config with policy := p } := by
  have hunit := toUnit_under hq h
  refine ⟨check_under hq h, fun m hm stmt hs => ?_, hunit, fun config => ?_⟩
  · have hstmt : (program.scopeOf p m).checkStmt stmt = [] :=
      Scope.checkStmts_of_mem_nodesAll m.body (program.check_method h hm).2.2 stmt
        (Stmt.mem_nodesAll hs stmt.mem_nodes_self)
    exact ⟨Stmt.placed_nodes hstmt, Stmt.placed_under (s := program.scopeOf p m) hq hstmt,
      fun x => Stmt.infer_eq_under (s := program.scopeOf p m) hq hstmt⟩
  · unfold compile compileWith
    dsimp only
    rw [h, check_under hq h, hunit]

/-- A method that passes its receiver where the superclass is expected. -/
def climbing : Program where
  classDecl := {
    name := "Leaf"
    superClass := some "Tree"
    methods := [{
      name := "climb"
      returnType := .scalar .int
      params := [Build.var "tree" (.scalar (.named "Tree"))]
      body := [Build.ret (Build.selfCall "climb" [Build.self])] }] }

/-- The upcast needs no good faith, and granting some changes nothing. -/
theorem compile_of_policy_le_climbing : Policy.strict ≤ {} ∧
    climbing.check climbing.symbolTable .strict = [] ∧
    climbing.check climbing.symbolTable {} = [] ∧
    climbing.toUnit climbing.symbolTable {} = climbing.toUnit climbing.symbolTable .strict ∧
    ∀ config : Config, climbing.compile { config with policy := {} } =
      climbing.compile { config with policy := .strict } := by
  have accepted : climbing.check climbing.symbolTable .strict = [] := by decide
  have hle : Policy.strict ≤ {} := by decide
  obtain ⟨more, -, unit, texts⟩ := compile_of_policy_le climbing hle accepted
  exact ⟨hle, accepted, more, unit, texts⟩

end Program

end JavaMinus
