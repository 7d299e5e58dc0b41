import JavaMinus.Proofs.Typing.Renamed

/-!
# Typing asks a scope by name only

Typing and checking never look at a declaration by its place. They ask a scope what a name stands for,
and of a method that is called they use its head: its name, result, parameters and modifiers, and not
its locals. So two scopes that answer every such question alike (`Scope.Answers`) give every expression
the same type and every statement the same errors (`Expr.infer_of_answers`,
`Scope.checkStmts_of_answers`), whatever the order in which they keep what is declared.
-/

namespace JavaMinus

/-- What a call uses of a method. -/
def Signature.head (m : Signature) : Signature := { m with locals := [] }

/-- Two scopes give one answer to every question that typing asks. -/
structure Scope.Answers (s s' : Scope) : Prop where
  policy : s.policy = s'.policy
  className : s.table.className = s'.table.className
  superClass : s.table.superClass = s'.table.superClass
  method : s.method.head = s'.method.head
  resolve? : ∀ name, s.resolve? name = s'.resolve? name
  isImported : ∀ name, s.table.isImported name = s'.table.isImported name
  method? : ∀ name, (s.table.method? name).map Signature.head =
    (s'.table.method? name).map Signature.head

variable {s s' : Scope} {span : Span}

namespace Scope.Answers

/-- Each name keeps its meaning. -/
theorem renamed (h : s.Answers s') : s.Renamed id s' where
  policy := h.policy.symm
  className := h.className.symm
  superClass := h.superClass.symm
  method := show s'.method.head.shape = s.method.head.shape by rw [h.method]
  isImported name := (h.isImported name).symm
  method? name := by
    have shapes := congrArg (Option.map Signature.shape) (h.method? name)
    rw [Option.map_map, Option.map_map] at shapes
    exact shapes.symm
  resolve? x _ := congrArg (Option.map Variable.reading) (h.resolve? x).symm

theorem isStatic (h : s.Answers s') : s.isStatic = s'.isStatic := h.renamed.isStatic.symm

theorem returnType (h : s.Answers s') : s.returnType = s'.returnType := h.renamed.returnType.symm

theorem methodName (h : s.Answers s') : s.method.name = s'.method.name := h.renamed.methodName.symm

theorem assignable (h : s.Answers s') (target value : Ty) :
    s.assignable target value = s'.assignable target value :=
  (h.renamed.assignable target value).symm

end Scope.Answers

/-! ## Expressions -/

/-- Scopes with one answer to every question give one type. -/
theorem Expr.infer_of_answers (h : s.Answers s') (e : Expr) (site : Site) :
    e.infer s site = e.infer s' site := by
  have same := e.infer_rename h.renamed site fun x _ => s.keeps_id x
  rw [e.rename_id] at same
  exact same.symm

/-! ## Statements -/

namespace Scope

theorem targetType_of_answers (h : s.Answers s') (name : String) :
    s.targetType name span = s'.targetType name span := by
  rw [targetType, targetType, h.resolve?, h.isStatic]

theorem checkCondition_of_answers (h : s.Answers s') (condition : Expr) :
    s.checkCondition condition = s'.checkCondition condition := by
  rw [checkCondition, checkCondition, condition.infer_of_answers h]

theorem checkStored_of_answers (h : s.Answers s') (name : String) (expected : Ty) (value : Expr) :
    s.checkStored name expected value = s'.checkStored name expected value := by
  rw [checkStored, checkStored, value.infer_of_answers h]
  simp only [h.assignable]

theorem checkReturned_of_answers (h : s.Answers s') (actual : Ty) :
    s.checkReturned actual span = s'.checkReturned actual span := by
  rw [checkReturned, checkReturned, h.returnType, h.assignable, h.methodName]

theorem checkReturn_of_answers (h : s.Answers s') (value : Option Expr) :
    s.checkReturn value span = s'.checkReturn value span := by
  cases value with
  | none => exact checkReturned_of_answers h Ty.void
  | some e =>
    rw [checkReturn, checkReturn, h.returnType, e.infer_of_answers h]
    simp only [checkReturned_of_answers h]

mutual
/-- Scopes with one answer to every question report the same errors of a statement. -/
theorem checkStmt_of_answers (h : s.Answers s') : ∀ stmt : Stmt,
    s.checkStmt stmt = s'.checkStmt stmt
  | .block body _ => by
    rw [checkStmt, checkStmt]
    exact checkStmts_of_answers h body
  | .branch condition thenBranch none _ => by
    rw [checkStmt, checkStmt, checkCondition_of_answers h, checkStmt_of_answers h thenBranch]
  | .branch condition thenBranch (some elseBranch) _ => by
    rw [checkStmt, checkStmt, checkCondition_of_answers h, checkStmt_of_answers h thenBranch,
      checkStmt_of_answers h elseBranch]
  | .loop condition body _ => by
    rw [checkStmt, checkStmt, checkCondition_of_answers h, checkStmt_of_answers h body]
  | .expr e _ => by rw [checkStmt, checkStmt, e.infer_of_answers h]
  | .assign target value span => by
    rw [checkStmt, checkStmt, checkAssign, checkAssign, targetType_of_answers h]
    simp only [checkStored_of_answers h]
  | .assignElement target index value span => by
    rw [checkStmt, checkStmt, checkAssignElement, checkAssignElement, targetType_of_answers h,
      index.infer_of_answers h]
    simp only [checkStored_of_answers h]
  | .ret value span => by
    rw [checkStmt, checkStmt]
    exact checkReturn_of_answers h value
theorem checkStmts_of_answers (h : s.Answers s') : ∀ body : List Stmt,
    s.checkStmts body = s'.checkStmts body
  | [] => rfl
  | stmt :: rest => by
    rw [checkStmts, checkStmts, checkStmt_of_answers h stmt, checkStmts_of_answers h rest]
end

end Scope

end JavaMinus
