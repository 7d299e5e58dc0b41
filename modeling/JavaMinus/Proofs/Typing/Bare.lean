import JavaMinus.Check.Program
import JavaMinus.Proofs.Syntax.Bare

/-!
# Checking looks through parentheses

A program and what is left of it without parentheses and spans have the same types and the same
errors, up to the spans of the errors (`Expr.infer_bare`, `Program.check_bare`). Every place where
checking asks for the shape of an expression asks it of the expression inside the parentheses, and no
decision depends on a span.
-/

namespace JavaMinus

/-- The error without its place. -/
def TypeError.bare : TypeError → TypeError
  | .undefinedVariable name _ => .undefinedVariable name {}
  | .undefinedClass name _ => .undefinedClass name {}
  | .invalidOperand op expected actual _ => .invalidOperand op expected actual {}
  | .arrayInArithmetic op _ => .arrayInArithmetic op {}
  | .incompatibleOperands op left right _ => .incompatibleOperands op left right {}
  | .unknownProperty property _ => .unknownProperty property {}
  | .lengthOnNonArray actual _ => .lengthOnNonArray actual {}
  | .mixedArrayLiteral expected actual _ => .mixedArrayLiteral expected actual {}
  | .nestedArray _ => .nestedArray {}
  | .nonLiteralArrayLength _ => .nonLiteralArrayLength {}
  | .indexNotInt actual _ => .indexNotInt actual {}
  | .indexOnNonArray actual _ => .indexOnNonArray actual {}
  | .indexOnCallResult _ => .indexOnCallResult {}
  | .undefinedMethod name _ => .undefinedMethod name {}
  | .argumentCountMismatch method expected actual varargs _ =>
    .argumentCountMismatch method expected actual varargs {}
  | .argumentTypeMismatch method position expected actual _ =>
    .argumentTypeMismatch method position expected actual {}
  | .invalidReceiver method receiver _ => .invalidReceiver method receiver {}
  | .unresolvedCallType method _ => .unresolvedCallType method {}
  | .voidValue method _ => .voidValue method {}
  | .selfInStatic _ => .selfInStatic {}
  | .fieldInStatic name _ => .fieldInStatic name {}

/-- The error without its place. -/
def CheckError.bare : CheckError → CheckError
  | .typing cause => .typing cause.bare
  | .duplicateImport name _ => .duplicateImport name {}
  | .duplicateField name _ => .duplicateField name {}
  | .duplicateMethod name _ => .duplicateMethod name {}
  | .duplicateVariable name method _ => .duplicateVariable name method {}
  | .varargsNotLast method param _ => .varargsNotLast method param {}
  | .varargsVariable name _ => .varargsVariable name {}
  | .varargsReturn method _ => .varargsReturn method {}
  | .reservedParameterName method _ => .reservedParameterName method {}
  | .returnCount method optional actual _ => .returnCount method optional actual {}
  | .returnNotLast method _ => .returnNotLast method {}
  | .invalidCondition actual _ => .invalidCondition actual {}
  | .assignMismatch target expected actual _ => .assignMismatch target expected actual {}
  | .returnMismatch method expected actual _ => .returnMismatch method expected actual {}

/-- An outcome whose error has lost its place. -/
def bareOutcome {α : Type} (outcome : Except TypeError α) : Except TypeError α :=
  outcome.mapError TypeError.bare

/-- The place of an error is lost in a sequence as it is lost in its parts. -/
theorem bind_bareOutcome {α β : Type} {outcome : Except TypeError α} {f g : α → Except TypeError β}
    (h : ∀ a, g a = bareOutcome (f a)) :
    (bareOutcome outcome >>= g) = bareOutcome (outcome >>= f) := by
  cases outcome with
  | ok a => exact h a
  | error e => rfl

variable {s : Scope} {method : String}

/-! ## Calls -/

theorem Scope.ownMethod_bare (span : Span) :
    s.ownMethod method {} = bareOutcome (s.ownMethod method span) := by
  unfold ownMethod
  split
  · rfl
  · split <;> rfl

namespace CallTarget

theorem onValue_bare (span : Span) {ty : Ty} :
    onValue s ty method {} = bareOutcome (onValue s ty method span) := by
  unfold onValue
  split
  · rfl
  · split
    · exact Scope.ownMethod_bare span
    · split <;> rfl

theorem onClassName_bare (span : Span) {name : String} {nameSpan : Span} :
    onClassName s name {} method {} = bareOutcome (onClassName s name nameSpan method span) := by
  unfold onClassName
  rw [Scope.ownMethod_bare span]
  split
  · rfl
  · split
    · cases s.ownMethod method span with
      | error e => rfl
      | ok target =>
        cases target with
        | declared m =>
          show (if m.isStatic then _ else _) = bareOutcome (if m.isStatic then _ else _)
          split <;> rfl
        | _ => rfl
    · rfl

theorem bind_onValue_bare (span : Span) {outcome : Except TypeError Ty} :
    ((bareOutcome outcome).bind fun ty => onValue s ty method {}) =
      bareOutcome (outcome.bind fun ty => onValue s ty method span) :=
  bind_bareOutcome fun _ => onValue_bare span

/-- A call has the same target whatever stands around its receiver. -/
theorem resolve_bare (span : Span) {outcome : Except TypeError Ty} : ∀ receiver : Expr,
    resolve s receiver.bare (bareOutcome outcome) method {} =
      bareOutcome (resolve s receiver outcome method span)
  | .paren e _ => resolve_bare span e
  | .self selfSpan => by
    show (if s.isStatic then .error (.selfInStatic {}) else s.ownMethod method {}) =
      bareOutcome (if s.isStatic then .error (.selfInStatic selfSpan) else s.ownMethod method span)
    split
    · rfl
    · exact Scope.ownMethod_bare span
  | .ident name nameSpan => by
    show (if (s.resolve? name).isNone then onClassName s name {} method {}
        else (bareOutcome outcome).bind fun ty => onValue s ty method {}) =
      bareOutcome (if (s.resolve? name).isNone then onClassName s name nameSpan method span
        else outcome.bind fun ty => onValue s ty method span)
    split
    · exact onClassName_bare span
    · exact bind_onValue_bare span
  | .intLit .. | .boolLit .. | .binary .. | .not .. | .arrayLit .. | .index .. | .newArray ..
  | .newObject .. | .member .. | .call .. => bind_onValue_bare span

theorem checkCount_bare (span : Span) {target : CallTarget} {count : Nat} :
    target.checkCount s method count {} = bareOutcome (target.checkCount s method count span) := by
  cases target with
  | declared m =>
    rw [checkCount, checkCount]
    split <;> rfl
  | _ => rfl

theorem misfit_bare {m : Signature} {direct : Bool} : ∀ {arguments : List (Span × Ty)} {i : Nat},
    misfit s m method direct i (arguments.map fun a => ({}, a.2)) =
      bareOutcome (misfit s m method direct i arguments)
  | [], _ => rfl
  | (span, actual) :: rest, i => by
    rw [List.map_cons, misfit, misfit]
    split
    · exact misfit_bare
    · split
      · exact misfit_bare
      · split
        · exact misfit_bare
        · rfl

theorem checkTypes_bare {target : CallTarget} {args : List Expr} {actuals : List Ty} :
    target.checkTypes s method ((Expr.bareAll args).map Expr.span) actuals =
      bareOutcome (target.checkTypes s method (args.map Expr.span) actuals) := by
  have spans : ((Expr.bareAll args).map Expr.span).zip actuals =
      ((args.map Expr.span).zip actuals).map fun a => ({}, a.2) := by
    rw [Expr.bareAll_eq_map, List.map_map]
    induction args generalizing actuals with
    | nil => rfl
    | cons e es ih =>
      cases actuals with
      | nil => rfl
      | cons ty tys =>
        rw [List.map_cons, List.map_cons, List.zip_cons_cons, List.zip_cons_cons, List.map_cons, ih]
        simp
  cases target with
  | declared m =>
    rw [checkTypes, checkTypes, spans]
    split
    · rfl
    · exact misfit_bare
  | _ => rfl

theorem valueType_bare (span : Span) {site : Site} {target : CallTarget} :
    target.valueType site method {} = bareOutcome (target.valueType site method span) := by
  unfold valueType
  split
  · cases target.isDeclared <;> rfl
  · rfl

end CallTarget

/-! ## Expressions -/

namespace Expr

theorem checkOperand_bare (span : Span) {op : String} {expected actual : Ty} :
    checkOperand op expected actual {} = bareOutcome (checkOperand op expected actual span) := by
  unfold checkOperand
  split <;> rfl

theorem checkScalar_bare (span : Span) {op : BinaryOp} {actual : Ty} :
    checkScalar op actual {} = bareOutcome (checkScalar op actual span) := by
  unfold checkScalar
  split <;> rfl

theorem fixedOperandType_bare {op : BinaryOp} {l r : Ty} {leftSpan rightSpan : Span} :
    fixedOperandType op l r {} {} = bareOutcome (fixedOperandType op l r leftSpan rightSpan) := by
  unfold fixedOperandType
  rw [checkScalar_bare leftSpan, checkScalar_bare rightSpan,
    checkOperand_bare leftSpan, checkOperand_bare rightSpan]
  refine bind_bareOutcome fun _ => bind_bareOutcome fun _ => ?_
  exact bind_bareOutcome fun _ => bind_bareOutcome fun _ => rfl

theorem equalityType_bare (span : Span) {op : BinaryOp} {l r : Ty} :
    equalityType s op l r {} = bareOutcome (equalityType s op l r span) := by
  unfold equalityType
  split <;> rfl

mutual
/-- An expression has the same type, or is refused for the same reason, without parentheses and
spans. -/
theorem infer_bare (s : Scope) : ∀ (e : Expr) (site : Site),
    e.bare.infer s site = bareOutcome (e.infer s site)
  | .intLit .., _ | .boolLit .., _ | .arrayLit [] _, _ => rfl
  | .ident name _, _ => by
    rw [bare, infer, infer]
    split
    · split <;> rfl
    · rfl
  | .self _, _ => by
    rw [bare, infer, infer]
    split <;> rfl
  | .binary op left right _, _ => by
    rw [bare, infer, infer, isCall_bare, span_bare, span_bare]
    split
    · split
      · rw [infer_bare s right]
        refine bind_bareOutcome fun r => ?_
        rw [infer_bare s left]
        exact bind_bareOutcome fun l => equalityType_bare left.span
      · rw [infer_bare s left]
        refine bind_bareOutcome fun l => ?_
        rw [infer_bare s right]
        exact bind_bareOutcome fun r => equalityType_bare left.span
    · rw [infer_bare s left]
      refine bind_bareOutcome fun l => ?_
      rw [infer_bare s right]
      exact bind_bareOutcome fun r => fixedOperandType_bare
  | .not e _, _ => by
    rw [bare, infer, infer, infer_bare s e, span_bare]
    refine bind_bareOutcome fun ty => ?_
    split <;> rfl
  | .arrayLit (first :: rest) _, _ => by
    rw [bare, bareAll, infer, infer, infer_bare s first]
    refine bind_bareOutcome fun element => ?_
    rw [checkElements_bare s rest]
    cases element.isArray with
    | true => rfl
    | false => exact bind_bareOutcome fun _ => rfl
  | .index array place _, _ => by
    rw [bare, infer, infer, isCall_bare, span_bare, span_bare]
    split
    · rfl
    · rw [infer_bare s array]
      refine bind_bareOutcome fun ty => ?_
      split
      · rfl
      · rw [infer_bare s place]
        refine bind_bareOutcome fun position => ?_
        split <;> rfl
  | .newArray element length _, _ => by
    rw [bare, infer, infer, isIntLiteral_bare, span_bare, TypeRef.ty_bare]
    split
    · rfl
    · split <;> rfl
  | .newObject className _, _ => by
    rw [bare, infer, infer]
    split <;> rfl
  | .member object property _, _ => by
    rw [bare, infer, infer, span_bare]
    split
    · rfl
    · rw [infer_bare s object]
      refine bind_bareOutcome fun ty => ?_
      split <;> rfl
  | .call receiver method args span, _ => by
    rw [bare, infer, infer, infer_bare s receiver, CallTarget.resolve_bare span]
    refine bind_bareOutcome fun target => ?_
    rw [length_bareAll, CallTarget.checkCount_bare span]
    refine bind_bareOutcome fun _ => ?_
    rw [inferArgs_bare s args]
    refine bind_bareOutcome fun actuals => ?_
    rw [CallTarget.checkTypes_bare]
    exact bind_bareOutcome fun _ => CallTarget.valueType_bare span
  | .paren inner _, site => by
    rw [bare, infer]
    exact infer_bare s inner site
theorem checkElements_bare (s : Scope) : ∀ (items : List Expr) (element : Ty),
    checkElements s element (bareAll items) = bareOutcome (checkElements s element items)
  | [], _ => rfl
  | item :: rest, element => by
    rw [bareAll, checkElements, checkElements, infer_bare s item, span_bare]
    refine bind_bareOutcome fun ty => ?_
    rw [checkElements_bare s rest]
    cases ty.agrees element <;> rfl
theorem inferArgs_bare (s : Scope) : ∀ (es : List Expr) (sites : Nat → Site) (i : Nat),
    inferArgs s sites i (bareAll es) = bareOutcome (inferArgs s sites i es)
  | [], _, _ => rfl
  | e :: es, sites, i => by
    rw [bareAll, inferArgs, inferArgs, infer_bare s e]
    refine bind_bareOutcome fun ty => ?_
    rw [inferArgs_bare s es]
    exact bind_bareOutcome fun tys => rfl
end

theorem callTarget_bare (s : Scope) (receiver : Expr) (method : String) (span : Span) :
    receiver.bare.callTarget s method {} = bareOutcome (receiver.callTarget s method span) := by
  rw [callTarget, callTarget, infer_bare]
  exact CallTarget.resolve_bare span receiver

end Expr

/-! ## Statements -/

/-- A list of errors is reported or not, and its places are lost either way. -/
theorem map_bare_ite {c : Prop} [Decidable c] (errors : List CheckError) :
    (if c then errors else []).map CheckError.bare =
      if c then errors.map CheckError.bare else [] := by
  split <;> rfl

namespace Scope

theorem orReport_bare {outcome : Except TypeError Ty} {next next' : Ty → List CheckError}
    (h : ∀ ty, next' ty = (next ty).map CheckError.bare) :
    orReport (bareOutcome outcome) next' = (orReport outcome next).map CheckError.bare := by
  cases outcome with
  | ok ty => exact h ty
  | error e => rfl

theorem targetType_bare (span : Span) {name : String} :
    s.targetType name {} = bareOutcome (s.targetType name span) := by
  unfold targetType
  split
  · split <;> rfl
  · rfl

theorem checkCondition_bare (condition : Expr) :
    s.checkCondition condition.bare = (s.checkCondition condition).map CheckError.bare := by
  unfold checkCondition
  rw [Expr.infer_bare, Expr.span_bare]
  refine orReport_bare fun ty => ?_
  split <;> rfl

theorem checkStored_bare (name : String) (expected : Ty) (value : Expr) :
    s.checkStored name expected value.bare =
      (s.checkStored name expected value).map CheckError.bare := by
  unfold checkStored
  rw [Expr.infer_bare, Expr.span_bare]
  refine orReport_bare fun ty => ?_
  split <;> rfl

theorem checkReturned_bare (span : Span) {actual : Ty} :
    s.checkReturned actual {} = (s.checkReturned actual span).map CheckError.bare := by
  unfold checkReturned
  dsimp only
  split <;> split <;> rfl

theorem checkAssignElement_bare (span : Span) (target : String) (index value : Expr) :
    s.checkAssignElement target index.bare value.bare {} =
      (s.checkAssignElement target index value span).map CheckError.bare := by
  unfold checkAssignElement
  rw [targetType_bare span, Expr.infer_bare, Expr.span_bare]
  refine orReport_bare fun ty => ?_
  split
  · rfl
  · rw [List.map_append, checkStored_bare]
    refine congrArg (· ++ _) (orReport_bare fun position => ?_)
    split <;> rfl

mutual
/-- A statement has the same errors, up to their places, without parentheses and spans. -/
theorem checkStmt_bare (s : Scope) : ∀ stmt : Stmt,
    s.checkStmt stmt.bare = (s.checkStmt stmt).map CheckError.bare
  | .block body _ => by
    rw [Stmt.bare, checkStmt, checkStmt]
    exact checkStmts_bare s body
  | .branch condition thenBranch none _ => by
    rw [Stmt.bare, checkStmt, checkStmt, List.map_append, checkCondition_bare,
      checkStmt_bare s thenBranch]
  | .branch condition thenBranch (some elseBranch) _ => by
    rw [Stmt.bare, checkStmt, checkStmt, List.map_append, List.map_append, checkCondition_bare,
      checkStmt_bare s thenBranch, checkStmt_bare s elseBranch]
  | .loop condition body _ => by
    rw [Stmt.bare, checkStmt, checkStmt, List.map_append, checkCondition_bare,
      checkStmt_bare s body]
  | .expr e _ => by
    rw [Stmt.bare, checkStmt, checkStmt, Expr.infer_bare]
    exact orReport_bare fun _ => rfl
  | .assign target value span => by
    rw [Stmt.bare, checkStmt, checkStmt, checkAssign, checkAssign, targetType_bare span]
    exact orReport_bare fun ty => checkStored_bare target ty value
  | .assignElement target index value span => by
    rw [Stmt.bare, checkStmt, checkStmt]
    exact checkAssignElement_bare span target index value
  | .ret none span => by
    rw [Stmt.bare, checkStmt, checkStmt]
    exact checkReturned_bare span
  | .ret (some e) span => by
    rw [Stmt.bare, Option.map_some, checkStmt, checkStmt, checkReturn, checkReturn,
      Expr.infer_bare]
    exact orReport_bare fun _ => checkReturned_bare span
theorem checkStmts_bare (s : Scope) : ∀ body : List Stmt,
    s.checkStmts (Stmt.bareAll body) = (s.checkStmts body).map CheckError.bare
  | [] => rfl
  | stmt :: rest => by
    rw [Stmt.bareAll, checkStmts, checkStmts, List.map_append, checkStmt_bare s stmt,
      checkStmts_bare s rest]
end

end Scope

/-! ## Declarations -/

theorem checkImports_bare : ∀ (imports : List Import) (seen : List String),
    checkImports seen (imports.map Import.bare) = (checkImports seen imports).map CheckError.bare
  | [], _ => rfl
  | i :: rest, seen => by
    rw [List.map_cons, checkImports, checkImports, List.map_append, map_bare_ite,
      ← checkImports_bare rest]
    rfl

theorem checkFields_bare : ∀ (fields : List VarDecl) (seen : List String),
    checkFields seen (fields.map VarDecl.bare) = (checkFields seen fields).map CheckError.bare
  | [], _ => rfl
  | f :: rest, seen => by
    rw [List.map_cons, checkFields, checkFields, List.map_append, List.map_append, map_bare_ite,
      map_bare_ite, ← checkFields_bare rest]
    rfl

theorem checkFresh_bare (method : String) (seen : List String) (d : VarDecl) :
    checkFresh method seen d.bare = (checkFresh method seen d).map CheckError.bare := by
  rw [checkFresh, checkFresh, map_bare_ite]
  rfl

theorem checkParams_bare (method : String) : ∀ (params : List VarDecl) (seen : List String),
    checkParams method seen (params.map VarDecl.bare) =
      (checkParams method seen params).map CheckError.bare
  | [], _ => rfl
  | p :: rest, seen => by
    rw [List.map_cons, checkParams, checkParams, List.map_append, List.map_append, List.map_append,
      map_bare_ite, map_bare_ite, checkFresh_bare, ← checkParams_bare method rest, List.isEmpty_map]
    rfl

theorem checkLocals_bare (method : String) : ∀ (locals : List VarDecl) (seen : List String),
    checkLocals method seen (locals.map VarDecl.bare) =
      (checkLocals method seen locals).map CheckError.bare
  | [], _ => rfl
  | d :: rest, seen => by
    rw [List.map_cons, checkLocals, checkLocals, List.map_append, List.map_append, map_bare_ite,
      checkFresh_bare, ← checkLocals_bare method rest]
    rfl

namespace MethodDecl

theorem checkSignature_bare (m : MethodDecl) :
    m.bare.checkSignature = m.checkSignature.map CheckError.bare := by
  unfold checkSignature
  rw [List.map_append, List.map_append, map_bare_ite, ← checkParams_bare, ← checkLocals_bare,
    bare, VarDecl.map_name_bare]
  rfl

/-- A misplaced return has no place left to be shown at. -/
theorem span_find?_bare (m : MethodDecl) :
    ((m.bare.body.find? Stmt.isReturn).map Stmt.span).getD {} = {} := by
  cases h : m.bare.body.find? Stmt.isReturn with
  | none => rfl
  | some stmt =>
    have hm := List.mem_of_find?_eq_some h
    rw [bare, Stmt.bareAll_eq_map] at hm
    obtain ⟨stmt, -, rfl⟩ := List.mem_map.mp hm
    exact stmt.span_bare

theorem checkReturns_bare (m : MethodDecl) :
    m.bare.checkReturns = m.checkReturns.map CheckError.bare := by
  have count : Stmt.returnCount m.bare.body = Stmt.returnCount m.body :=
    Stmt.returnCount_bareAll m.body
  have ends : m.bare.endsWithReturn = m.endsWithReturn := by
    unfold endsWithReturn
    rw [bare, Stmt.bareAll_eq_map, List.getLast?_map]
    cases m.body.getLast? with
    | none => rfl
    | some stmt => exact stmt.isReturn_bare
  unfold checkReturns returnCountFits
  rw [count, ends]
  show (if !(_ || (m.returnOptional && _)) then _ else if _ then
    [CheckError.returnNotLast m.name (((m.bare.body.find? _).map _).getD {})] else []) = _
  rw [span_find?_bare]
  split
  · rfl
  · split <;> rfl

variable {t : SymbolTable} {policy : Policy}

theorem checkBody_bare (index : Nat) (m : MethodDecl) :
    m.bare.checkBody t policy index = (m.checkBody t policy index).map CheckError.bare := by
  have name : m.bare.name = m.name := rfl
  unfold checkBody
  rw [name]
  cases t.methodAt? index m.name with
  | none => rfl
  | some signature => exact Scope.checkStmts_bare _ m.body

theorem check_bare (index : Nat) (m : MethodDecl) :
    m.bare.check t policy index = (m.check t policy index).map CheckError.bare := by
  rw [check, check, List.map_append, List.map_append, checkSignature_bare, checkReturns_bare,
    checkBody_bare]

end MethodDecl

variable {t : SymbolTable} {policy : Policy}

theorem checkMethods_bare : ∀ (methods : List MethodDecl) (index : Nat) (seen : List String),
    checkMethods t policy index seen (methods.map MethodDecl.bare) =
      (checkMethods t policy index seen methods).map CheckError.bare
  | [], _, _ => rfl
  | m :: rest, index, seen => by
    rw [List.map_cons, checkMethods, checkMethods, List.map_append, List.map_append, map_bare_ite,
      MethodDecl.check_bare, ← checkMethods_bare rest]
    rfl

/-- A program has the same errors, up to their places, without parentheses and spans. -/
theorem Program.check_bare (p : Program) (t : SymbolTable) (policy : Policy) :
    p.bare.check t policy = (p.check t policy).map CheckError.bare := by
  rw [check, check, List.map_append, List.map_append, ← checkImports_bare, ← checkFields_bare,
    ← checkMethods_bare]
  rfl

end JavaMinus
