import JavaMinus.Binding
import JavaMinus.Check.Program
import JavaMinus.Syntax.Build

/-!
# Where errors point

Every error points at a node of the program: an import, a field, or what is inside a method. An error
that is reported while a method is checked points inside the declaration of that method, and the errors
of a method stand together (`Program.points_of_check`). No table and no policy makes it otherwise.

Inference stops at one error, which points inside the expression (`Expr.infer_points`); checking
collects errors, and each points inside the statement or the declaration that it is reported of.
-/

namespace JavaMinus

/-! ## Places -/

/-- The places of expressions and of all expressions inside them. -/
def Expr.placesAll (es : List Expr) : List Span := (Expr.nodesAll es).map Expr.span

/-- The places of an expression and of all expressions inside it. -/
def Expr.places (e : Expr) : List Span := e.nodes.map Expr.span

/-- The places of a statement and of the expressions that it holds itself. -/
def Stmt.ownPlaces (s : Stmt) : List Span := s.span :: Expr.placesAll s.expressions

/-- The places of a statement and of all statements and expressions inside it. -/
def Stmt.places (s : Stmt) : List Span := s.nodes.flatMap Stmt.ownPlaces

/-- The places of statements and of all that is inside them. -/
def Stmt.placesAll (body : List Stmt) : List Span := (Stmt.nodesAll body).flatMap Stmt.ownPlaces

/-- The places in the declaration of a method: its own, those of its return type, of its parameters and
of its locals, and those of its body. -/
def MethodDecl.places (m : MethodDecl) : List Span :=
  m.span :: m.returnType.span ::
    (m.params.map VarDecl.span ++ m.locals.map VarDecl.span ++ Stmt.placesAll m.body)

/-- The places of a program's imports and fields, and those in its methods. -/
def Program.places (p : Program) : List Span :=
  p.imports.map Import.span ++ p.classDecl.fields.map VarDecl.span ++
    p.classDecl.methods.flatMap MethodDecl.places

namespace Expr

theorem span_mem_places (e : Expr) : e.span ∈ e.places :=
  List.mem_map_of_mem e.mem_nodes_self

theorem places_unparenthesized (e : Expr) : e.unparenthesized.places ⊆ e.places :=
  List.map_subset _ fun _ => mem_nodes_unparenthesized

theorem places_subset_placesAll {e : Expr} {es : List Expr} (h : e ∈ es) :
    e.places ⊆ placesAll es :=
  List.map_subset _ fun _ => mem_nodesAll h

/-- Where expressions stand themselves is among their places. -/
theorem map_span_subset_placesAll (es : List Expr) : es.map Expr.span ⊆ placesAll es := by
  intro span h
  obtain ⟨e, he, rfl⟩ := List.mem_map.mp h
  exact places_subset_placesAll he e.span_mem_places

end Expr

namespace Stmt

theorem ownPlaces_subset_places (stmt : Stmt) : stmt.ownPlaces ⊆ stmt.places :=
  fun _ h => List.mem_flatMap.mpr ⟨stmt, stmt.mem_nodes_self, h⟩

theorem span_mem_places (stmt : Stmt) : stmt.span ∈ stmt.places :=
  stmt.ownPlaces_subset_places List.mem_cons_self

/-- The places of an expression that a statement holds itself are among those of the statement. -/
theorem places_of_mem_expressions {stmt : Stmt} {e : Expr} (h : e ∈ stmt.expressions) :
    e.places ⊆ stmt.places :=
  fun _ hx => stmt.ownPlaces_subset_places
    (List.mem_cons_of_mem _ (Expr.places_subset_placesAll h hx))

end Stmt

/-! ## Typing errors -/

/-- Where the outcome is an error, it points at one of the places. -/
def Points {α : Type} (places : List Span) (outcome : Except TypeError α) : Prop :=
  ∀ e, outcome = .error e → e.span ∈ places

namespace Points

variable {α β : Type} {places more : List Span} {x : Except TypeError α}
  {f : α → Except TypeError β}

theorem mono (h : Points places x) (hle : places ⊆ more) : Points more x :=
  fun e he => hle (h e he)

theorem ok (a : α) : Points places (.ok a) := nofun

theorem error {e : TypeError} (h : e.span ∈ places) : Points (α := α) places (.error e) := by
  rintro _ ⟨⟩
  exact h

theorem bind (hx : Points places x) (hf : ∀ a, Points places (f a)) : Points places (x >>= f) := by
  cases x with
  | ok a => exact hf a
  | error e => exact fun e' he => hx e' (by cases he; rfl)

/-- A test that has an error for its outcome where it fails. -/
theorem ite {c : Prop} [Decidable c] {y : Except TypeError α} (hx : Points places x)
    (hy : Points places y) : Points places (if c then x else y) := by
  split
  · exact hx
  · exact hy

end Points

namespace CallTarget

variable {s : Scope} {places : List Span} {method : String} {span : Span}

/-- A call on the class itself points at the call. -/
theorem points_ownMethod (h : span ∈ places) : Points places (s.ownMethod method span) := by
  unfold Scope.ownMethod
  split
  · exact .ok _
  · exact .ite (.ok _) (.error h)

theorem points_onValue {receiver : Ty} (h : span ∈ places) :
    Points places (onValue s receiver method span) :=
  .ite (.error h) (.ite (points_ownMethod h) (.ite (.ok _) (.error h)))

/-- A call on a name points at the call, or at the name where it is none of a class. -/
theorem points_onClassName {name : String} {nameSpan : Span} (h : span ∈ places)
    (hn : nameSpan ∈ places) : Points places (onClassName s name nameSpan method span) := by
  refine .ite (.ok _) (.ite ?_ (.error hn))
  have own : Points places (s.ownMethod method span) := points_ownMethod h
  split
  · exact .ite (.ok _) (.error h)
  · exact .error h
  · next e he => exact .error (own e he)

/-- The target of a call points at the call or inside its receiver. -/
theorem points_resolve {receiver : Expr} {receiverType : Except TypeError Ty} (h : span ∈ places)
    (hr : receiver.places ⊆ places) (ht : Points places receiverType) :
    Points places (resolve s receiver receiverType method span) := by
  have inside : receiver.unparenthesized.span ∈ places :=
    hr (receiver.places_unparenthesized (Expr.span_mem_places _))
  have value : Points places (receiverType.bind fun ty => onValue s ty method span) :=
    ht.bind fun ty => points_onValue h
  unfold resolve
  split
  · next selfSpan hself =>
    rw [hself] at inside
    exact .ite (.error inside) (points_ownMethod h)
  · next name nameSpan hname =>
    rw [hname] at inside
    exact .ite (points_onClassName h inside) value
  · exact value

theorem points_checkCount {count : Nat} {target : CallTarget} (h : span ∈ places) :
    Points places (target.checkCount s method count span) := by
  cases target with
  | declared m => exact .ite (.ok _) (.error h)
  | _ => exact .ok _

/-- An argument that does not fit is pointed at. -/
theorem points_misfit {m : Signature} {direct : Bool} :
    ∀ {i : Nat} {arguments : List (Span × Ty)}, (∀ a ∈ arguments, a.1 ∈ places) →
      Points places (misfit s m method direct i arguments)
  | _, [], _ => .ok _
  | i, (span, actual) :: rest, h => by
    obtain ⟨first, h⟩ := List.forall_mem_cons.mp h
    have later : Points places (misfit s m method direct (i + 1) rest) := points_misfit h
    unfold misfit
    split
    · exact later
    · exact .ite later (.ite later (.error first))

theorem points_checkTypes {target : CallTarget} {spans : List Span} {actuals : List Ty}
    (h : spans ⊆ places) : Points places (target.checkTypes s method spans actuals) := by
  cases target with
  | declared m =>
    refine .ite (.ok _) (points_misfit fun a ha => h ?_)
    exact (List.of_mem_zip ha).1
  | _ => exact .ok _

theorem points_valueType {target : CallTarget} {site : Site} (h : span ∈ places) :
    Points places (target.valueType site method span) := by
  unfold valueType
  refine .ite (.error ?_) (.ok _)
  cases target <;> exact h

end CallTarget

namespace Expr

variable {s : Scope} {places : List Span}

theorem points_fixedOperandType {op : BinaryOp} {l r : Ty} {leftSpan rightSpan : Span}
    (hl : leftSpan ∈ places) (hr : rightSpan ∈ places) :
    Points places (fixedOperandType op l r leftSpan rightSpan) :=
  .bind (.ite (.error hl) (.ok _)) fun _ => .bind (.ite (.error hr) (.ok _)) fun _ =>
    .bind (.ite (.ok _) (.error hl)) fun _ => .bind (.ite (.ok _) (.error hr)) fun _ => .ok _

theorem points_equalityType {op : BinaryOp} {l r : Ty} {span : Span} (h : span ∈ places) :
    Points places (equalityType s op l r span) :=
  .ite (.ok _) (.error h)

mutual
/-- Inference points inside the expression. -/
theorem infer_points (s : Scope) : ∀ (e : Expr) (site : Site), Points e.places (infer s site e)
  | .intLit .., _ | .boolLit .., _ => .ok _
  | .ident name span, _ => by
    have here : span ∈ (Expr.ident name span).places := List.mem_singleton_self span
    rw [infer]
    split
    · exact .ite (.error here) (.ok _)
    · exact .error here
  | .self span, _ => .ite (.error (List.mem_singleton_self span)) (.ok _)
  | .binary op left right span, _ => by
    have hl : left.places ⊆ (Expr.binary op left right span).places := by
      simp [places, nodes]
    have hr : right.places ⊆ (Expr.binary op left right span).places := by
      simp [places, nodes]
    have l (site : Site) := (infer_points s left site).mono hl
    have r (site : Site) := (infer_points s right site).mono hr
    have left_ := hl left.span_mem_places
    refine .ite (.ite ?_ ?_) ?_
    · exact (r _).bind fun _ => (l _).bind fun _ => points_equalityType left_
    · exact (l _).bind fun _ => (r _).bind fun _ => points_equalityType left_
    · exact (l _).bind fun _ => (r _).bind fun _ =>
        points_fixedOperandType left_ (hr right.span_mem_places)
  | .not operand span, _ => by
    have inside : operand.places ⊆ (Expr.not operand span).places := List.subset_cons_self _ _
    exact ((infer_points s operand _).mono inside).bind fun _ =>
      .ite (.ok _) (.error (inside operand.span_mem_places))
  | .arrayLit [] _, _ => .ok _
  | .arrayLit (first :: rest) span, _ => by
    have hf : first.places ⊆ (Expr.arrayLit (first :: rest) span).places := by
      simp [places, nodes, nodesAll]
    have hr : placesAll rest ⊆ (Expr.arrayLit (first :: rest) span).places := by
      simp [places, placesAll, nodes, nodesAll]
    rw [infer]
    refine ((infer_points s first _).mono hf).bind fun element => ?_
    have elements : Points (Expr.arrayLit (first :: rest) span).places (do
        checkElements s element rest
        return Ty.array element.name) :=
      ((checkElements_points s element rest).mono hr).bind fun _ => .ok _
    exact .ite (.error (span_mem_places _)) elements
  | .index array place span, _ => by
    have ha : array.places ⊆ (Expr.index array place span).places := by
      simp [places, nodes]
    have hp : place.places ⊆ (Expr.index array place span).places := by
      simp [places, nodes]
    rw [infer]
    refine .ite (.error (ha array.span_mem_places)) (((infer_points s array _).mono ha).bind fun ty => ?_)
    split
    · exact .error (ha array.span_mem_places)
    · exact ((infer_points s place _).mono hp).bind fun _ =>
        .ite (.ok _) (.error (hp place.span_mem_places))
  | .newArray element length span, _ => by
    have inside : length.places ⊆ (Expr.newArray element length span).places :=
      List.subset_cons_self _ _
    exact .ite (.error (inside length.span_mem_places)) (.ite (.error (span_mem_places _)) (.ok _))
  | .newObject _ span, _ => .ite (.ok _) (.error (List.mem_singleton_self span))
  | .member object property span, _ => by
    have inside : object.places ⊆ (Expr.member object property span).places :=
      List.subset_cons_self _ _
    refine .ite (.error (span_mem_places _)) ?_
    exact ((infer_points s object _).mono inside).bind fun _ =>
      .ite (.ok _) (.error (inside object.span_mem_places))
  | .call receiver method args span, _ => by
    have here : span ∈ (Expr.call receiver method args span).places := span_mem_places _
    have hr : receiver.places ⊆ (Expr.call receiver method args span).places := by
      simp [places, nodes]
    have ha : placesAll args ⊆ (Expr.call receiver method args span).places := by
      simp [places, placesAll, nodes]
    have spans : args.map Expr.span ⊆ (Expr.call receiver method args span).places :=
      List.Subset.trans (map_span_subset_placesAll args) ha
    refine .bind (CallTarget.points_resolve here hr ((infer_points s receiver _).mono hr))
      fun target => ?_
    refine .bind (CallTarget.points_checkCount here) fun _ => ?_
    refine .bind ((inferArgs_points s args _ 0).mono ha) fun actuals => ?_
    refine .bind (CallTarget.points_checkTypes spans) fun _ => ?_
    exact CallTarget.points_valueType here
  | .paren inner _, site => (infer_points s inner site).mono (List.subset_cons_self _ _)
theorem checkElements_points (s : Scope) (element : Ty) :
    ∀ items : List Expr, Points (placesAll items) (checkElements s element items)
  | [] => .ok _
  | item :: rest => by
    have hi : item.places ⊆ placesAll (item :: rest) := by simp [places, placesAll, nodesAll]
    have hr : placesAll rest ⊆ placesAll (item :: rest) := by simp [placesAll, nodesAll]
    refine ((infer_points s item _).mono hi).bind fun ty => ?_
    exact .ite (.error (hi item.span_mem_places)) ((checkElements_points s element rest).mono hr)
theorem inferArgs_points (s : Scope) :
    ∀ (es : List Expr) (site : Nat → Site) (i : Nat), Points (placesAll es) (inferArgs s site i es)
  | [], _, _ => .ok _
  | e :: es, site, i => by
    have he : e.places ⊆ placesAll (e :: es) := by simp [places, placesAll, nodesAll]
    have hes : placesAll es ⊆ placesAll (e :: es) := by simp [placesAll, nodesAll]
    exact ((infer_points s e _).mono he).bind fun _ =>
      ((inferArgs_points s es site (i + 1)).mono hes).bind fun _ => .ok _
end

end Expr

/-! ## Semantic errors -/

/-- Every error points at one of the places. -/
def PointsAll (places : List Span) (errors : List CheckError) : Prop :=
  ∀ e ∈ errors, e.span ∈ places

namespace PointsAll

variable {places more : List Span} {errors others : List CheckError}

theorem mono (h : PointsAll places errors) (hle : places ⊆ more) : PointsAll more errors :=
  fun e he => hle (h e he)

theorem nil : PointsAll places [] := nofun

theorem single {e : CheckError} (h : e.span ∈ places) : PointsAll places [e] :=
  List.forall_mem_singleton.mpr h

theorem append (h : PointsAll places errors) (h' : PointsAll places others) :
    PointsAll places (errors ++ others) :=
  List.forall_mem_append.mpr ⟨h, h'⟩

/-- An error that is reported where something holds. -/
theorem ite {c : Prop} [Decidable c] (h : PointsAll places errors) (h' : PointsAll places others) :
    PointsAll places (if c then errors else others) := by
  split
  · exact h
  · exact h'

/-- The error of a step that fails, or the errors of what follows it. -/
theorem orReport {outcome : Except TypeError Ty} {next : Ty → List CheckError}
    (h : Points places outcome) (hn : ∀ ty, PointsAll places (next ty)) :
    PointsAll places (Scope.orReport outcome next) := by
  cases outcome with
  | ok ty => exact hn ty
  | error e => exact single (h e rfl)

end PointsAll

namespace Scope

variable {s : Scope} {places : List Span} {span : Span}

theorem points_targetType {name : String} (h : span ∈ places) :
    Points places (s.targetType name span) := by
  unfold targetType
  split
  · exact .ite (.error h) (.ok _)
  · exact .error h

theorem points_checkCondition {condition : Expr} (h : condition.places ⊆ places) :
    PointsAll places (s.checkCondition condition) :=
  .orReport ((condition.infer_points s _).mono h) fun _ =>
    .ite .nil (.single (h condition.span_mem_places))

theorem points_checkStored {name : String} {expected : Ty} {value : Expr}
    (h : value.places ⊆ places) : PointsAll places (s.checkStored name expected value) :=
  .orReport ((value.infer_points s _).mono h) fun _ =>
    .ite .nil (.single (h value.span_mem_places))

theorem points_checkAssign {target : String} {value : Expr} (h : span ∈ places)
    (hv : value.places ⊆ places) : PointsAll places (s.checkAssign target value span) :=
  .orReport (points_targetType h) fun _ => points_checkStored hv

theorem points_checkAssignElement {target : String} {index value : Expr} (h : span ∈ places)
    (hi : index.places ⊆ places) (hv : value.places ⊆ places) :
    PointsAll places (s.checkAssignElement target index value span) := by
  refine .orReport (points_targetType h) fun ty => ?_
  split
  · exact .single h
  · refine .append ?_ (points_checkStored hv)
    exact .orReport ((index.infer_points s _).mono hi) fun _ =>
      .ite .nil (.single (hi index.span_mem_places))

theorem points_checkReturned {actual : Ty} (h : span ∈ places) :
    PointsAll places (s.checkReturned actual span) :=
  .ite .nil (.single h)

theorem points_checkReturn {value : Option Expr} (h : span ∈ places)
    (hv : ∀ e ∈ value, e.places ⊆ places) : PointsAll places (s.checkReturn value span) := by
  cases value with
  | none => exact points_checkReturned h
  | some e =>
    exact .orReport ((e.infer_points s _).mono (hv e rfl)) fun _ => points_checkReturned h

mutual
/-- The errors of a statement point inside it. -/
theorem checkStmt_points (s : Scope) : ∀ stmt : Stmt, PointsAll stmt.places (s.checkStmt stmt)
  | .block body _ =>
    (checkStmts_points s body).mono (by simp [Stmt.places, Stmt.placesAll, Stmt.nodes])
  | .branch condition thenBranch none _ =>
    .append (points_checkCondition (Stmt.places_of_mem_expressions List.mem_cons_self))
      ((checkStmt_points s thenBranch).mono (by simp [Stmt.places, Stmt.nodes]))
  | .branch condition thenBranch (some elseBranch) _ =>
    .append (.append (points_checkCondition (Stmt.places_of_mem_expressions List.mem_cons_self))
      ((checkStmt_points s thenBranch).mono (by simp [Stmt.places, Stmt.nodes])))
      ((checkStmt_points s elseBranch).mono (by simp [Stmt.places, Stmt.nodes]))
  | .loop condition body _ =>
    .append (points_checkCondition (Stmt.places_of_mem_expressions List.mem_cons_self))
      ((checkStmt_points s body).mono (by simp [Stmt.places, Stmt.nodes]))
  | .expr e _ =>
    .orReport ((e.infer_points s _).mono (Stmt.places_of_mem_expressions List.mem_cons_self))
      fun _ => .nil
  | .assign target value span =>
    points_checkAssign (Stmt.span_mem_places (.assign target value span))
      (Stmt.places_of_mem_expressions List.mem_cons_self)
  | .assignElement target index value span =>
    points_checkAssignElement (Stmt.span_mem_places (.assignElement target index value span))
      (Stmt.places_of_mem_expressions List.mem_cons_self)
      (Stmt.places_of_mem_expressions (List.mem_cons_of_mem _ List.mem_cons_self))
  | .ret value span =>
    points_checkReturn (Stmt.span_mem_places (.ret value span)) fun e he =>
      Stmt.places_of_mem_expressions (Option.mem_toList.mpr he)
/-- The errors of statements point inside them. -/
theorem checkStmts_points (s : Scope) :
    ∀ body : List Stmt, PointsAll (Stmt.placesAll body) (s.checkStmts body)
  | [] => .nil
  | stmt :: rest => .append
    ((checkStmt_points s stmt).mono (by simp [Stmt.places, Stmt.placesAll, Stmt.nodesAll]))
    ((checkStmts_points s rest).mono (by simp [Stmt.placesAll, Stmt.nodesAll]))
end

end Scope

/-! ## Declarations -/

theorem points_checkImports : ∀ (seen : List String) (is : List Import),
    PointsAll (is.map Import.span) (checkImports seen is)
  | _, [] => .nil
  | _, _ :: rest => .append (.ite (.single List.mem_cons_self) .nil)
    ((points_checkImports _ rest).mono (List.subset_cons_self _ _))

theorem points_checkFields : ∀ (seen : List String) (fs : List VarDecl),
    PointsAll (fs.map VarDecl.span) (checkFields seen fs)
  | _, [] => .nil
  | _, _ :: rest => .append (.append (.ite (.single List.mem_cons_self) .nil)
    (.ite (.single List.mem_cons_self) .nil))
    ((points_checkFields _ rest).mono (List.subset_cons_self _ _))

theorem points_checkParams {method : String} : ∀ (seen : List String) (ps : List VarDecl),
    PointsAll (ps.map VarDecl.span) (checkParams method seen ps)
  | _, [] => .nil
  | _, _ :: rest => .append (.append (.append (.ite (.single List.mem_cons_self) .nil)
    (.ite (.single List.mem_cons_self) .nil)) (.ite (.single List.mem_cons_self) .nil))
    ((points_checkParams _ rest).mono (List.subset_cons_self _ _))

theorem points_checkLocals {method : String} : ∀ (seen : List String) (ds : List VarDecl),
    PointsAll (ds.map VarDecl.span) (checkLocals method seen ds)
  | _, [] => .nil
  | _, _ :: rest => .append (.append (.ite (.single List.mem_cons_self) .nil)
    (.ite (.single List.mem_cons_self) .nil))
    ((points_checkLocals _ rest).mono (List.subset_cons_self _ _))

namespace MethodDecl

variable (m : MethodDecl)

theorem span_mem_places : m.span ∈ m.places := List.mem_cons_self

theorem params_subset_places : m.params.map VarDecl.span ⊆ m.places :=
  fun _ h => List.mem_cons_of_mem _ (List.mem_cons_of_mem _
    (List.mem_append_left _ (List.mem_append_left _ h)))

theorem locals_subset_places : m.locals.map VarDecl.span ⊆ m.places :=
  fun _ h => List.mem_cons_of_mem _ (List.mem_cons_of_mem _
    (List.mem_append_left _ (List.mem_append_right _ h)))

theorem placesAll_subset_places : Stmt.placesAll m.body ⊆ m.places :=
  fun _ h => List.mem_cons_of_mem _ (List.mem_cons_of_mem _ (List.mem_append_right _ h))

theorem checkSignature_points : PointsAll m.places m.checkSignature := by
  refine .append (.append (.ite (.single ?_) .nil) ?_) ?_
  · exact List.mem_cons_of_mem _ List.mem_cons_self
  · exact (points_checkParams _ m.params).mono m.params_subset_places
  · exact (points_checkLocals _ m.locals).mono m.locals_subset_places

/-- A misplaced return is shown where it stands in the body, or where the method does. -/
theorem checkReturns_points : PointsAll m.places m.checkReturns := by
  have shown : ((m.body.find? Stmt.isReturn).map Stmt.span).getD m.span ∈ m.places := by
    cases hf : m.body.find? Stmt.isReturn with
    | none => exact m.span_mem_places
    | some stmt =>
      refine m.placesAll_subset_places (List.mem_flatMap.mpr ⟨stmt, ?_, List.mem_cons_self⟩)
      exact Stmt.mem_nodesAll (List.mem_of_find?_eq_some hf) stmt.mem_nodes_self
  exact .ite (.single m.span_mem_places) (.ite (.single shown) .nil)

theorem checkBody_points (t : SymbolTable) (policy : Policy) (index : Nat) :
    PointsAll m.places (m.checkBody t policy index) := by
  unfold checkBody
  split
  · exact (Scope.checkStmts_points _ m.body).mono m.placesAll_subset_places
  · exact .single m.span_mem_places

/-- The errors of a method point inside its declaration. -/
theorem check_points (t : SymbolTable) (policy : Policy) (index : Nat) :
    PointsAll m.places (m.check t policy index) :=
  .append (.append m.checkSignature_points m.checkReturns_points) (m.checkBody_points t policy index)

end MethodDecl

/-! ## Programs -/

namespace Program

/-- What is reported of the method at a position: its repeated name, and what checking it finds. -/
def methodReport (p : Program) (t : SymbolTable) (policy : Policy) (index : Nat) (m : MethodDecl) :
    List CheckError :=
  (if m.name ∈ (p.classDecl.methods.take index).map MethodDecl.name then
    [.duplicateMethod m.name m.span] else []) ++ m.check t policy index

/-- The errors of a program, each with the position of the method that it is reported of, if it is
reported of one. -/
def attributed (p : Program) (t : SymbolTable) (policy : Policy) : List (Option Nat × CheckError) :=
  (checkImports [] p.imports ++ checkFields [] p.classDecl.fields).map (none, ·) ++
    p.classDecl.methods.zipIdx.flatMap fun (m, i) => (p.methodReport t policy i m).map (some i, ·)

variable (p : Program) (t : SymbolTable) (policy : Policy)

/-- The methods from a position on report what their methods do. The names seen so far are those of the
methods in front. -/
theorem checkMethods_eq_reports : ∀ (rest pre : List MethodDecl), p.classDecl.methods = pre ++ rest →
    checkMethods t policy pre.length (pre.map MethodDecl.name).reverse rest =
      (rest.zipIdx pre.length).flatMap fun (m, i) => p.methodReport t policy i m
  | [], _, _ => rfl
  | m :: rest, pre, hp => by
    have tail := checkMethods_eq_reports rest (pre ++ [m]) (by rw [hp, List.append_assoc]; rfl)
    rw [List.length_append, List.length_singleton, List.map_append, List.reverse_append] at tail
    have front : p.classDecl.methods.take pre.length = pre := by rw [hp, List.take_left]
    rw [checkMethods, List.zipIdx_cons, List.flatMap_cons, ← tail]
    change _ = p.methodReport t policy pre.length m ++ _
    unfold methodReport
    rw [front]
    simp only [List.mem_reverse]
    rfl

/-- The errors of a program are those of its declarations, and each of a method is attributed to it. -/
theorem check_eq_map_attributed :
    p.check t policy = (p.attributed t policy).map Prod.snd := by
  have methods := p.checkMethods_eq_reports t policy p.classDecl.methods [] rfl
  rw [check, attributed, List.map_append, List.map_map, List.map_flatMap]
  simp only [List.map_map, Function.comp_def, List.map_id']
  exact congrArg _ methods

/-- What is attributed to a method is reported of it. -/
theorem mem_methodReport_of_attributed {i : Nat} {e : CheckError}
    (h : (some i, e) ∈ p.attributed t policy) :
    ∃ m, p.classDecl.methods[i]? = some m ∧ e ∈ p.methodReport t policy i m := by
  rcases List.mem_append.mp h with h | h
  · obtain ⟨_, -, h⟩ := List.mem_map.mp h
    cases h
  · obtain ⟨⟨m, j⟩, hm, h⟩ := List.mem_flatMap.mp h
    obtain ⟨_, he, h⟩ := List.mem_map.mp h
    cases h
    exact ⟨m, List.mem_zipIdx_iff_getElem?.mp hm, he⟩

/-- What is attributed to no method points at an import or a field. -/
theorem span_mem_places_of_unattributed {e : CheckError} (h : (none, e) ∈ p.attributed t policy) :
    e.span ∈ p.places := by
  have declared : PointsAll p.places (checkImports [] p.imports ++ checkFields [] p.classDecl.fields) :=
    PointsAll.mono (.append ((points_checkImports [] p.imports).mono (List.subset_append_left _ _))
      ((points_checkFields [] p.classDecl.fields).mono (List.subset_append_right _ _)))
      (List.subset_append_left _ _)
  rcases List.mem_append.mp h with h | h
  · obtain ⟨e, he, h⟩ := List.mem_map.mp h
    cases h
    exact declared e he
  · obtain ⟨⟨_, _⟩, -, h⟩ := List.mem_flatMap.mp h
    obtain ⟨_, -, h⟩ := List.mem_map.mp h
    cases h

theorem methodReport_points (i : Nat) (m : MethodDecl) :
    PointsAll m.places (p.methodReport t policy i m) :=
  .append (.ite (.single m.span_mem_places) .nil) (m.check_points t policy i)

/-- Behind an error of a method stand errors of that method and of later ones. -/
theorem attributed_ascending : (p.attributed t policy).Pairwise fun first next =>
    ∀ i, first.1 = some i → ∃ j, next.1 = some j ∧ i ≤ j := by
  refine List.pairwise_append.mpr ⟨?_, List.pairwise_flatMap.mpr ⟨?_, ?_⟩, ?_⟩
  · exact List.pairwise_map.mpr (List.pairwise_of_forall fun _ _ _ h => by cases h)
  · rintro ⟨m, i⟩ -
    exact List.pairwise_map.mpr (List.pairwise_of_forall fun _ _ j h => ⟨i, rfl, by cases h; exact Nat.le_refl _⟩)
  · have positions : (p.classDecl.methods.zipIdx.map Prod.snd).Pairwise (· < ·) := by
      rw [List.zipIdx_map_snd]
      exact List.pairwise_lt_range'
    refine (List.pairwise_map.mp positions).imp fun {a b} hlt x hx y hy i hi => ?_
    obtain ⟨_, -, rfl⟩ := List.mem_map.mp hx
    obtain ⟨_, -, rfl⟩ := List.mem_map.mp hy
    cases hi
    exact ⟨b.2, rfl, Nat.le_of_lt hlt⟩
  · intro x hx _ _ i hi
    obtain ⟨_, -, rfl⟩ := List.mem_map.mp hx
    cases hi

/-- **Errors point at nodes.** Every error of a program has the place of an import, of a field, or of a
node inside a method. An error that is reported of a method, its repeated name included, has the place
of a node inside the declaration of that method, and no error of anything else stands between two
errors of one method. The table and the policy are any. -/
theorem points_of_check :
    (∀ e ∈ p.check t policy, e.span ∈ p.places) ∧
      p.check t policy = (p.attributed t policy).map Prod.snd ∧
      (∀ i e, (some i, e) ∈ p.attributed t policy → ∃ m, p.classDecl.methods[i]? = some m ∧
        e ∈ p.methodReport t policy i m ∧ e.span ∈ m.places) ∧
      ∀ i e e' pre between post,
        p.attributed t policy = pre ++ (some i, e) :: (between ++ (some i, e') :: post) →
          ∀ r ∈ between, r.1 = some i := by
  have inside (i : Nat) (e : CheckError) (h : (some i, e) ∈ p.attributed t policy) :
      ∃ m, p.classDecl.methods[i]? = some m ∧ e ∈ p.methodReport t policy i m ∧ e.span ∈ m.places := by
    obtain ⟨m, hm, he⟩ := p.mem_methodReport_of_attributed t policy h
    exact ⟨m, hm, he, p.methodReport_points t policy i m e he⟩
  refine ⟨fun e he => ?_, p.check_eq_map_attributed t policy, inside, ?_⟩
  · rw [check_eq_map_attributed] at he
    obtain ⟨⟨owner, e⟩, h, rfl⟩ := List.mem_map.mp he
    cases owner with
    | none => exact p.span_mem_places_of_unattributed t policy h
    | some i =>
      obtain ⟨m, hm, -, hspan⟩ := inside i e h
      exact List.mem_append_right _ (List.mem_flatMap.mpr ⟨m, List.mem_of_getElem? hm, hspan⟩)
  · intro i e e' pre between post h r hr
    have ascending := p.attributed_ascending t policy
    rw [h] at ascending
    obtain ⟨first, rest⟩ := List.pairwise_cons.mp (List.pairwise_append.mp ascending).2.1
    obtain ⟨j, hj, hij⟩ := first r (List.mem_append_left _ hr) i rfl
    obtain ⟨k, hk, hjk⟩ :=
      (List.pairwise_append.mp rest).2.2 r hr (some i, e') List.mem_cons_self j hj
    cases hk
    rw [hj, Nat.le_antisymm hij hjk]

/-- Two imports of one last segment, a field that is declared varargs, and two methods of one name: the
first assigns to nothing and does not return, the second returns what another method has. -/
def draft : Program where
  imports := [⟨["io", "Log"], .ofPosition 1 1⟩, ⟨["util", "Log"], .ofPosition 2 1⟩]
  classDecl := {
    name := "Draft"
    fields := [⟨"rows", .varargs .int, .ofPosition 4 3⟩]
    methods := [
      { name := "count"
        returnType := .scalar .int
        body := [.assign "n" (Build.int 1) (.ofPosition 6 5)]
        span := .ofPosition 5 3 },
      { name := "count"
        returnType := .scalar .int
        body := [.ret (some (.call (Build.ident "rows") "size" [] (.ofPosition 9 12))) (.ofPosition 9 5)]
        span := .ofPosition 8 3 }] }

/-- Each of its six errors is where the node is that it is reported of. -/
theorem points_of_check_draft :
    (draft.attributed draft.symbolTable .strict).map (fun r => (r.1, r.2.span.line, r.2.span.column)) =
        [(none, 2, 1), (none, 4, 3), (some 0, 5, 3), (some 0, 6, 5), (some 1, 8, 3), (some 1, 9, 12)] ∧
      draft.check draft.symbolTable .strict =
        (draft.attributed draft.symbolTable .strict).map Prod.snd ∧
      ∀ e ∈ draft.check draft.symbolTable .strict, e.span ∈ draft.places := by
  obtain ⟨inside, attributed, -⟩ := points_of_check draft draft.symbolTable .strict
  exact ⟨by decide, attributed, inside⟩

end Program

end JavaMinus
