import JavaMinus.Check.Program
import JavaMinus.Proofs.Syntax.Renamed

/-!
# Typing does not look at the names of variables

Typing and checking ask a scope what a name stands for, and use of the variable found its type and
whether it is a field. Of a method that is called they use neither its locals nor the names of its
parameters (`Signature.shape`). So two scopes that answer these questions alike, each about its own
names (`Scope.Renamed`), give the same type to an expression and to the expression with the other names
(`Expr.infer_rename`), and errors of the same codes to a statement (`Scope.checkStmt_rename`).

A name that is no local variable of the method has to be kept (`Scope.Keeps`): it may stand for a field,
an import or the class.
-/

namespace JavaMinus

/-! ## Shapes -/

/-- What a call uses of a method: neither its locals nor the names of its parameters. -/
def Signature.shape (m : Signature) : Signature :=
  { m with parameters := m.parameters.map (Symbol.rename fun _ => ""), locals := [] }

/-- A target with what the call uses of it. -/
def CallTarget.shape : CallTarget → CallTarget
  | .declared m => .declared m.shape
  | target => target

namespace Signature

variable (m : Signature)

theorem shape_rename (f : String → String) : (m.rename f).shape = m.shape := by
  rw [shape, shape, rename, List.map_map]
  rfl

theorem varargsParameter?_shape :
    m.shape.varargsParameter? = m.varargsParameter?.map (Symbol.rename fun _ => "") := by
  rw [varargsParameter?, varargsParameter?, shape, List.getLast?_map]
  cases m.parameters.getLast? with
  | none => rfl
  | some p => cases h : p.ty.isVarargs <;> simp [Symbol.rename, Option.filter, h]

theorem isSome_varargsParameter?_shape :
    m.shape.varargsParameter?.isSome = m.varargsParameter?.isSome := by
  rw [varargsParameter?_shape, Option.isSome_map]

theorem length_parameters_shape : m.shape.parameters.length = m.parameters.length :=
  List.length_map _

theorem parameterType?_shape (i : Nat) : m.shape.parameterType? i = m.parameterType? i := by
  have plain : (m.shape.parameters[i]?.map fun p => p.ty.plain) =
      m.parameters[i]?.map fun p => p.ty.plain := by
    rw [shape, List.getElem?_map, Option.map_map]
    rfl
  rw [parameterType?, parameterType?, varargsParameter?_shape, plain, length_parameters_shape]
  cases m.varargsParameter? <;> rfl

theorem passesVarargsArray_shape (tys : List Ty) :
    m.shape.passesVarargsArray tys = m.passesVarargsArray tys := by
  rw [passesVarargsArray, passesVarargsArray, varargsParameter?_shape, length_parameters_shape]
  cases m.varargsParameter? <;> cases tys.getLast? <;> rfl

theorem acceptsCount_shape (count : Nat) : m.shape.acceptsCount count = m.acceptsCount count := by
  rw [acceptsCount, acceptsCount, isSome_varargsParameter?_shape, length_parameters_shape]

theorem fixedCount_shape : m.shape.fixedCount = m.fixedCount := by
  rw [fixedCount, fixedCount, isSome_varargsParameter?_shape, length_parameters_shape]

end Signature

namespace CallTarget

variable {s : Scope} {method : String} {span : Span} (target : CallTarget)

theorem isStatic_shape : target.shape.isStatic = target.isStatic := by
  cases target <;> rfl

theorem resultType_shape (site : Site) : target.shape.resultType site = target.resultType site := by
  cases target <;> rfl

theorem argumentSite_shape : target.shape.argumentSite = target.argumentSite := by
  cases target with
  | declared m => exact funext fun i => congrArg Site.argument (m.parameterType?_shape i)
  | _ => rfl

theorem checkCount_shape (count : Nat) :
    target.shape.checkCount s method count span = target.checkCount s method count span := by
  cases target with
  | declared m =>
    show (declared m.shape).checkCount s method count span = _
    rw [checkCount, checkCount, m.acceptsCount_shape, m.fixedCount_shape,
      m.isSome_varargsParameter?_shape]
  | _ => rfl

theorem misfit_shape (m : Signature) (direct : Bool) : ∀ (arguments : List (Span × Ty)) (i : Nat),
    misfit s m.shape method direct i arguments = misfit s m method direct i arguments
  | [], _ => rfl
  | (span, actual) :: rest, i => by
    rw [misfit, misfit, m.parameterType?_shape, m.isSome_varargsParameter?_shape,
      m.length_parameters_shape, misfit_shape m direct rest]

theorem checkTypes_shape (spans : List Span) (actuals : List Ty) :
    target.shape.checkTypes s method spans actuals = target.checkTypes s method spans actuals := by
  cases target with
  | declared m =>
    show (declared m.shape).checkTypes s method spans actuals = _
    rw [checkTypes, checkTypes, m.passesVarargsArray_shape, misfit_shape]
  | _ => rfl

theorem valueType_shape (site : Site) :
    target.shape.valueType site method span = target.valueType site method span := by
  cases target <;> rfl

/-- A sequence that goes on with the shape of a target alone. -/
theorem bind_map_shape {α : Type} {outcome : Except TypeError CallTarget}
    {next : CallTarget → Except TypeError α} (h : ∀ target, next target.shape = next target) :
    (outcome.map shape >>= next) = (outcome >>= next) := by
  cases outcome with
  | error e => rfl
  | ok target => exact h target

end CallTarget

/-! ## Scopes -/

/-- What is used of the variable that a name stands for. -/
def Variable.reading (v : Variable) : Ty × Bool := (v.ty, v.isField)

/-- A renaming keeps a name, unless it is that of a local variable or parameter. -/
def Scope.Keeps (s : Scope) (f : String → String) (x : String) : Prop :=
  (s.resolve? x).all Variable.isField = true → f x = x

theorem Scope.keeps_id (s : Scope) (x : String) : s.Keeps id x := fun _ => rfl

/-- The second scope answers about the names that a renaming gives as the first does about those that it
takes. -/
structure Scope.Renamed (f : String → String) (s s' : Scope) : Prop where
  policy : s'.policy = s.policy
  className : s'.table.className = s.table.className
  superClass : s'.table.superClass = s.table.superClass
  method : s'.method.shape = s.method.shape
  isImported : ∀ name, s'.table.isImported name = s.table.isImported name
  method? : ∀ name, (s'.table.method? name).map Signature.shape =
    (s.table.method? name).map Signature.shape
  resolve? : ∀ x, s.Keeps f x →
    (s'.resolve? (f x)).map Variable.reading = (s.resolve? x).map Variable.reading

variable {f : String → String} {s s' : Scope} {method : String} {span : Span}

namespace Scope.Renamed

theorem isStatic (h : s.Renamed f s') : s'.isStatic = s.isStatic :=
  show s'.method.shape.isStatic = s.method.shape.isStatic by rw [h.method]

theorem returnType (h : s.Renamed f s') : s'.returnType = s.returnType :=
  show s'.method.shape.returnType.plain = s.method.shape.returnType.plain by rw [h.method]

theorem methodName (h : s.Renamed f s') : s'.method.name = s.method.name :=
  show s'.method.shape.name = s.method.shape.name by rw [h.method]

theorem classType (h : s.Renamed f s') : s'.table.classType = s.table.classType :=
  congrArg Ty.scalar h.className

theorem isSuper (h : s.Renamed f s') (name : String) : s'.table.isSuper name = s.table.isSuper name :=
  congrArg (· == some name) h.superClass

theorem trustsSuperclass (h : s.Renamed f s') : s'.trustsSuperclass = s.trustsSuperclass := by
  rw [Scope.trustsSuperclass, Scope.trustsSuperclass, h.superClass, h.policy]

theorem knowsClass (h : s.Renamed f s') (name : String) : s'.knowsClass name = s.knowsClass name := by
  rw [Scope.knowsClass, Scope.knowsClass, h.className, h.isSuper, h.isImported]

theorem assignable (h : s.Renamed f s') (target value : Ty) :
    s'.assignable target value = s.assignable target value := by
  rw [Scope.assignable, Scope.assignable, h.className, h.isSuper, h.isImported, h.isImported,
    h.policy]

/-- A name stands for nothing in both scopes, and then it is kept, or for variables of one type that are
fields in both or in neither. -/
theorem cases_resolve? (h : s.Renamed f s') {x : String} (hx : s.Keeps f x) :
    (s.resolve? x = none ∧ s'.resolve? (f x) = none ∧ f x = x) ∨
      ∃ v v', s.resolve? x = some v ∧ s'.resolve? (f x) = some v' ∧ v'.ty = v.ty ∧
        v'.isField = v.isField ∧ (v.isField = true → f x = x) := by
  have same := h.resolve? x hx
  unfold Scope.Keeps at hx
  cases hv : s.resolve? x with
  | none =>
    rw [hv] at same hx
    exact .inl ⟨rfl, Option.map_eq_none_iff.mp same, hx rfl⟩
  | some v =>
    rw [hv] at same hx
    obtain ⟨v', hv', hreading⟩ := Option.map_eq_some_iff.mp same
    exact .inr ⟨v, v', rfl, hv', congrArg Prod.fst hreading, congrArg Prod.snd hreading, hx⟩

end Scope.Renamed

/-! ## Calls -/

theorem Scope.ownMethod_renamed (h : s.Renamed f s') (method : String) (span : Span) :
    (s'.ownMethod method span).map CallTarget.shape =
      (s.ownMethod method span).map CallTarget.shape := by
  have found := h.method? method
  unfold ownMethod
  rw [h.trustsSuperclass]
  cases hm : s.table.method? method with
  | none =>
    rw [hm] at found
    rw [Option.map_eq_none_iff.mp found]
  | some m =>
    rw [hm] at found
    obtain ⟨m', hm', same⟩ := Option.map_eq_some_iff.mp found
    rw [hm']
    exact congrArg (fun shape => Except.ok (CallTarget.declared shape)) same

namespace CallTarget

theorem onValue_renamed (h : s.Renamed f s') (ty : Ty) :
    (onValue s' ty method span).map shape = (onValue s ty method span).map shape := by
  unfold onValue
  rw [h.className, h.isImported, h.isSuper]
  split
  · rfl
  · split
    · exact Scope.ownMethod_renamed h method span
    · split <;> rfl

/-- The static methods that the class offers through its own name depend on shapes alone. -/
theorem onClassName_renamed (h : s.Renamed f s') (name : String) (nameSpan : Span) :
    (onClassName s' name nameSpan method span).map shape =
      (onClassName s name nameSpan method span).map shape := by
  have own := Scope.ownMethod_renamed h method span
  unfold onClassName
  rw [h.isImported, h.className, h.classType]
  split
  · rfl
  · split
    · cases ho : s.ownMethod method span with
      | error e =>
        cases ho' : s'.ownMethod method span with
        | error e' =>
          rw [ho, ho'] at own
          rw [show e' = e from Except.error.inj own]
        | ok target' => rw [ho, ho'] at own; cases own
      | ok target =>
        cases ho' : s'.ownMethod method span with
        | error e' => rw [ho, ho'] at own; cases own
        | ok target' =>
          rw [ho, ho'] at own
          have same : target'.shape = target.shape := Except.ok.inj own
          have static : target'.isStatic = target.isStatic := by
            rw [← target'.isStatic_shape, same, target.isStatic_shape]
          cases target <;> cases target' <;> first | rfl | cases same | skip
          next m m' =>
            dsimp only
            rw [show m'.isStatic = m.isStatic from static]
            split
            · exact congrArg Except.ok same
            · rfl
    · rfl

/-- A call is bound alike when its receiver has one type. -/
theorem resolve_rename (h : s.Renamed f s') (receiver : Expr)
    (hn : ∀ x ∈ receiver.names, s.Keeps f x) (outcome : Except TypeError Ty) :
    (resolve s' (receiver.rename f) outcome method span).map shape =
      (resolve s receiver outcome method span).map shape := by
  have value : (outcome.bind fun ty => onValue s' ty method span).map shape =
      (outcome.bind fun ty => onValue s ty method span).map shape := by
    cases outcome with
    | error e => rfl
    | ok ty => exact onValue_renamed h ty
  rw [← Expr.names_unparenthesized] at hn
  unfold resolve
  rw [Expr.unparenthesized_rename, h.isStatic]
  generalize receiver.unparenthesized = e at hn ⊢
  cases e with
  | self selfSpan =>
    dsimp only [Expr.rename]
    split
    · rfl
    · exact Scope.ownMethod_renamed h method span
  | ident name nameSpan =>
    dsimp only [Expr.rename]
    rcases h.cases_resolve? (hn name List.mem_cons_self) with ⟨hv, hv', same⟩ | ⟨v, v', hv, hv', -⟩
    · rw [hv, hv', same]
      exact onClassName_renamed h name nameSpan
    · rw [hv, hv']
      exact value
  | _ => exact value

variable (target : CallTarget)

theorem checkCount_renamed (h : s.Renamed f s') (count : Nat) :
    target.checkCount s' method count span = target.checkCount s method count span := by
  cases target with
  | declared m => rw [checkCount, checkCount, h.trustsSuperclass]
  | _ => rfl

theorem misfit_renamed (h : s.Renamed f s') (m : Signature) (direct : Bool) :
    ∀ (arguments : List (Span × Ty)) (i : Nat),
      misfit s' m method direct i arguments = misfit s m method direct i arguments
  | [], _ => rfl
  | (span, actual) :: rest, i => by
    rw [misfit, misfit, misfit_renamed h m direct rest]
    simp only [h.assignable]

theorem checkTypes_renamed (h : s.Renamed f s') (spans : List Span) (actuals : List Ty) :
    target.checkTypes s' method spans actuals = target.checkTypes s method spans actuals := by
  cases target with
  | declared m => rw [checkTypes, checkTypes, h.trustsSuperclass, misfit_renamed h]
  | _ => rfl

end CallTarget

/-! ## Expressions -/

namespace Expr

theorem equalityType_renamed (h : s.Renamed f s') (op : BinaryOp) (l r : Ty) :
    equalityType s' op l r span = equalityType s op l r span := by
  rw [equalityType, equalityType, h.assignable, h.assignable]

mutual
/-- An expression has the same type under other names. -/
theorem infer_rename (h : s.Renamed f s') : ∀ (e : Expr) (site : Site),
    (∀ x ∈ e.names, s.Keeps f x) → (e.rename f).infer s' site = e.infer s site
  | .intLit .., _, _ | .boolLit .., _, _ | .arrayLit [] _, _, _ => rfl
  | .newArray element length span, _, _ => by
    rw [rename, infer, infer, isIntLiteral_rename, span_rename]
  | .ident name _, _, hn => by
    rw [rename, infer, infer, h.isStatic]
    rcases h.cases_resolve? (hn name List.mem_cons_self) with
      ⟨hv, hv', same⟩ | ⟨v, v', hv, hv', hty, hfield, same⟩
    · rw [hv, hv', same]
    · rw [hv, hv']
      dsimp only
      rw [hfield, hty]
      cases hf : v.isField with
      | true => rw [same hf]
      | false => rfl
  | .self _, _, _ => by rw [rename, infer, infer, h.isStatic, h.classType]
  | .newObject className _, _, _ => by rw [rename, infer, infer, h.knowsClass]
  | .binary op left right _, _, hn => by
    obtain ⟨hl, hr⟩ := List.forall_mem_append.mp hn
    have leftAt := fun site => infer_rename h left site hl
    have rightAt := fun site => infer_rename h right site hr
    rw [rename, infer, infer]
    simp only [leftAt, rightAt, equalityType_renamed h, isCall_rename, span_rename]
  | .not e _, _, hn => by rw [rename, infer, infer, infer_rename h e _ hn, span_rename]
  | .arrayLit (first :: rest) _, _, hn => by
    obtain ⟨hfirst, hrest⟩ := List.forall_mem_append.mp hn
    rw [rename, renameAll, infer, infer, infer_rename h first _ hfirst]
    simp only [fun element => checkElements_rename h rest element hrest]
  | .index array place _, _, hn => by
    obtain ⟨ha, hp⟩ := List.forall_mem_append.mp hn
    rw [rename, infer, infer, infer_rename h array _ ha, isCall_rename, span_rename, span_rename,
      infer_rename h place _ hp]
  | .member object property _, _, hn => by
    rw [rename, infer, infer, infer_rename h object _ hn, span_rename]
  | .call receiver method args span, site, hn => by
    obtain ⟨hr, ha⟩ := List.forall_mem_append.mp hn
    have argsAt := fun sites i => inferArgs_rename h args sites i ha
    rw [rename, infer, infer, infer_rename h receiver _ hr, length_renameAll, map_span_renameAll]
    simp only [CallTarget.checkCount_renamed _ h, argsAt, CallTarget.checkTypes_renamed _ h]
    rw [← CallTarget.bind_map_shape, CallTarget.resolve_rename h receiver hr,
      CallTarget.bind_map_shape]
    all_goals
      intro target
      simp only [CallTarget.checkCount_shape, CallTarget.argumentSite_shape,
        CallTarget.checkTypes_shape, CallTarget.valueType_shape]
  | .paren inner _, site, hn => by
    rw [rename, infer, infer]
    exact infer_rename h inner site hn
theorem checkElements_rename (h : s.Renamed f s') : ∀ (items : List Expr) (element : Ty),
    (∀ x ∈ namesAll items, s.Keeps f x) →
      checkElements s' element (renameAll f items) = checkElements s element items
  | [], _, _ => rfl
  | item :: rest, element, hn => by
    obtain ⟨hitem, hrest⟩ := List.forall_mem_append.mp hn
    rw [renameAll, checkElements, checkElements, infer_rename h item _ hitem, span_rename]
    simp only [checkElements_rename h rest element hrest]
theorem inferArgs_rename (h : s.Renamed f s') : ∀ (es : List Expr) (sites : Nat → Site) (i : Nat),
    (∀ x ∈ namesAll es, s.Keeps f x) →
      inferArgs s' sites i (renameAll f es) = inferArgs s sites i es
  | [], _, _, _ => rfl
  | e :: es, sites, i, hn => by
    obtain ⟨he, hes⟩ := List.forall_mem_append.mp hn
    rw [renameAll, inferArgs, inferArgs, infer_rename h e _ he, inferArgs_rename h es _ _ hes]
end

/-- A call is bound alike under other names. -/
theorem callTarget_rename (h : s.Renamed f s') (receiver : Expr) (method : String) (span : Span)
    (hn : ∀ x ∈ receiver.names, s.Keeps f x) :
    ((receiver.rename f).callTarget s' method span).map CallTarget.shape =
      (receiver.callTarget s method span).map CallTarget.shape := by
  rw [callTarget, callTarget, infer_rename h receiver _ hn]
  exact CallTarget.resolve_rename h receiver hn _

end Expr

/-! ## Statements -/

namespace Scope

theorem targetType_rename (h : s.Renamed f s') {name : String} (hn : s.Keeps f name) :
    s'.targetType (f name) span = s.targetType name span := by
  rw [targetType, targetType, h.isStatic]
  rcases h.cases_resolve? hn with ⟨hv, hv', same⟩ | ⟨v, v', hv, hv', hty, hfield, same⟩
  · rw [hv, hv', same]
  · rw [hv, hv']
    dsimp only
    rw [hfield, hty]
    cases hf : v.isField with
    | true => rw [same hf]
    | false => rfl

theorem checkCondition_rename (h : s.Renamed f s') {condition : Expr}
    (hn : ∀ x ∈ condition.names, s.Keeps f x) :
    s'.checkCondition (condition.rename f) = s.checkCondition condition := by
  rw [checkCondition, checkCondition, condition.infer_rename h _ hn, condition.span_rename]

/-- The code of an error of an outcome, or the codes of the errors behind it. -/
theorem map_code_orReport {outcome : Except TypeError Ty} {next next' : Ty → List CheckError}
    (h : ∀ ty, (next' ty).map CheckError.code = (next ty).map CheckError.code) :
    (orReport outcome next').map CheckError.code = (orReport outcome next).map CheckError.code := by
  cases outcome with
  | error e => rfl
  | ok ty => exact h ty

theorem checkStored_rename (h : s.Renamed f s') {value : Expr}
    (hn : ∀ x ∈ value.names, s.Keeps f x) (name name' : String) (expected : Ty) :
    (s'.checkStored name' expected (value.rename f)).map CheckError.code =
      (s.checkStored name expected value).map CheckError.code := by
  rw [checkStored, checkStored, value.infer_rename h _ hn]
  refine map_code_orReport fun actual => ?_
  rw [h.assignable]
  split <;> rfl

theorem checkAssignElement_rename (h : s.Renamed f s') {name : String} {index value : Expr}
    (hn : s.Keeps f name) (hi : ∀ x ∈ index.names, s.Keeps f x)
    (hv : ∀ x ∈ value.names, s.Keeps f x) :
    (s'.checkAssignElement (f name) (index.rename f) (value.rename f) span).map CheckError.code =
      (s.checkAssignElement name index value span).map CheckError.code := by
  rw [checkAssignElement, checkAssignElement, targetType_rename h hn]
  refine map_code_orReport fun ty => ?_
  split
  · rfl
  · rw [List.map_append, List.map_append, index.infer_rename h _ hi, index.span_rename,
      checkStored_rename h hv]

theorem checkReturned_renamed (h : s.Renamed f s') (actual : Ty) :
    s'.checkReturned actual span = s.checkReturned actual span := by
  rw [checkReturned, checkReturned, h.returnType, h.assignable, h.methodName]

mutual
/-- The errors of a statement have the same codes under other names. -/
theorem checkStmt_rename (h : s.Renamed f s') : ∀ stmt : Stmt, (∀ x ∈ stmt.names, s.Keeps f x) →
    (s'.checkStmt (stmt.rename f)).map CheckError.code = (s.checkStmt stmt).map CheckError.code
  | .block body _, hn => by
    rw [Stmt.rename, checkStmt, checkStmt]
    exact checkStmts_rename h body hn
  | .branch condition thenBranch none _, hn => by
    obtain ⟨hc, ht⟩ := List.forall_mem_append.mp hn
    rw [Stmt.rename, checkStmt, checkStmt, checkCondition_rename h hc, List.map_append,
      List.map_append, checkStmt_rename h thenBranch ht]
  | .branch condition thenBranch (some elseBranch) _, hn => by
    obtain ⟨hc, hn⟩ := List.forall_mem_append.mp hn
    obtain ⟨ht, he⟩ := List.forall_mem_append.mp hn
    rw [Stmt.rename, checkStmt, checkStmt, checkCondition_rename h hc]
    simp only [List.map_append, checkStmt_rename h thenBranch ht, checkStmt_rename h elseBranch he]
  | .loop condition body _, hn => by
    obtain ⟨hc, hb⟩ := List.forall_mem_append.mp hn
    rw [Stmt.rename, checkStmt, checkStmt, checkCondition_rename h hc, List.map_append,
      List.map_append, checkStmt_rename h body hb]
  | .expr e _, hn => by rw [Stmt.rename, checkStmt, checkStmt, e.infer_rename h _ hn]
  | .assign target value span, hn => by
    obtain ⟨ht, hv⟩ := List.forall_mem_cons.mp hn
    rw [Stmt.rename, checkStmt, checkStmt, checkAssign, checkAssign, targetType_rename h ht]
    exact map_code_orReport fun ty => checkStored_rename h hv target (f target) ty
  | .assignElement target index value span, hn => by
    obtain ⟨ht, hn⟩ := List.forall_mem_cons.mp hn
    obtain ⟨hi, hv⟩ := List.forall_mem_append.mp hn
    rw [Stmt.rename, checkStmt, checkStmt]
    exact checkAssignElement_rename h ht hi hv
  | .ret none span, _ => congrArg (List.map CheckError.code) (checkReturned_renamed h Ty.void)
  | .ret (some e) span, hn => by
    obtain ⟨he, -⟩ := List.forall_mem_append.mp hn
    rw [Stmt.rename, checkStmt, checkStmt, Option.map_some, checkReturn, checkReturn,
      e.infer_rename h _ he, h.returnType]
    simp only [checkReturned_renamed h]
theorem checkStmts_rename (h : s.Renamed f s') : ∀ body : List Stmt,
    (∀ x ∈ Stmt.namesAll body, s.Keeps f x) →
      (s'.checkStmts (Stmt.renameAll f body)).map CheckError.code =
        (s.checkStmts body).map CheckError.code
  | [], _ => rfl
  | stmt :: rest, hn => by
    obtain ⟨hs, hr⟩ := List.forall_mem_append.mp hn
    rw [Stmt.renameAll, checkStmts, checkStmts, List.map_append, List.map_append,
      checkStmt_rename h stmt hs, checkStmts_rename h rest hr]
end

end Scope

end JavaMinus
