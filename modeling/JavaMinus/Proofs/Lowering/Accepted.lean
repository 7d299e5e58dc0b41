import JavaMinus.Check.Program
import JavaMinus.Proofs.Lowering.Infers

/-!
# Accepted statements have typed code

A statement without semantic errors can be lowered, and its code is typed (`Stmt.lower_meets`). Every
statement check is used: a condition is a boolean, a stored value is assignable to its place, an
index is an integer, a returned value fits the method, and no field is touched in a static method.
-/

namespace JavaMinus

open Tac Lower

variable {names : String → Prop} {s : Scope} {temps : List Ty}

/-- The arrays that a statement allocates, at any depth, have elements whose names have the
property. -/
def Stmt.Allocates (names : String → Prop) (stmt : Stmt) : Prop :=
  ∀ inner ∈ stmt.nodes, ∀ e ∈ inner.expressions, e.Allocates names

theorem Stmt.allocates_true (stmt : Stmt) : stmt.Allocates fun _ => True :=
  fun _ _ e _ => e.allocates_true

/-- A part of a statement allocates what the statement allocates. -/
theorem Stmt.Allocates.part {stmt part : Stmt} (h : stmt.Allocates names)
    (hp : ∀ x ∈ part.nodes, x ∈ stmt.nodes) : part.Allocates names :=
  fun inner hi => h inner (hp inner hi)

theorem Stmt.Allocates.own {stmt : Stmt} (h : stmt.Allocates names) {e : Expr}
    (he : e ∈ stmt.expressions) : e.Allocates names :=
  h stmt stmt.mem_nodes_self e he

namespace Scope

/-- Nothing is reported exactly when the step yields a type and nothing is reported of it. -/
theorem orReport_eq_nil {outcome : Except TypeError Ty} {next : Ty → List CheckError} :
    orReport outcome next = [] ↔ ∃ ty, outcome = .ok ty ∧ next ty = [] := by
  cases outcome with
  | ok ty => simp [orReport]
  | error e => simp [orReport]

theorem targetType_eq_ok {name : String} {span : Span} {ty : Ty}
    (h : s.targetType name span = .ok ty) :
    ∃ v, s.resolve? name = some v ∧ (v.isField = true → s.isStatic = false) ∧ v.ty = ty := by
  unfold targetType at h
  split at h
  · next v hv =>
    split at h
    · cases h
    · next hf =>
      cases h
      exact ⟨v, hv, by simpa using hf, rfl⟩
  · cases h

theorem checkCondition_eq_nil {condition : Expr} (h : s.checkCondition condition = []) :
    ∃ ty, condition.infer s (.wanting Ty.boolean) = .ok ty ∧ ty.isBoolean = true := by
  obtain ⟨ty, hty, h⟩ := orReport_eq_nil.mp h
  split at h
  · next hb => exact ⟨ty, hty, hb⟩
  · cases h

theorem checkStored_eq_nil {name : String} {expected : Ty} {value : Expr}
    (h : s.checkStored name expected value = []) :
    ∃ actual, value.infer s (.assigned expected) = .ok actual ∧
      s.assignable expected actual = true := by
  obtain ⟨ty, hty, h⟩ := orReport_eq_nil.mp h
  split at h
  · next ha => exact ⟨ty, hty, ha⟩
  · cases h

theorem checkReturned_eq_nil {actual : Ty} {span : Span} (h : s.checkReturned actual span = []) :
    s.returns actual = true := by
  change (if s.returns actual = true then [] else _) = [] at h
  split at h
  · next hf => exact hf
  · cases h

/-- An accepted element assignment: an array, an integer and a value that fits. -/
theorem checkAssignElement_eq_nil {target : String} {index value : Expr} {span : Span}
    (h : s.checkAssignElement target index value span = []) :
    ∃ v element actual, s.resolve? target = some v ∧ (v.isField = true → s.isStatic = false) ∧
      v.ty.element? = some element ∧ index.infer s (.wanting Ty.int) = .ok Ty.int ∧
      value.infer s (.assigned element) = .ok actual ∧ s.assignable element actual = true := by
  obtain ⟨ty, hty, h⟩ := orReport_eq_nil.mp h
  obtain ⟨v, hv, hf, rfl⟩ := targetType_eq_ok hty
  split at h
  · cases h
  · next element hel =>
    obtain ⟨hi, hs⟩ := List.append_eq_nil_iff.mp h
    obtain ⟨i, hi, hint⟩ := orReport_eq_nil.mp hi
    split at hint
    · next hint' =>
      cases Ty.eq_int_of_isInt hint' (Expr.infer_plain hi)
      obtain ⟨actual, ha, hfits⟩ := checkStored_eq_nil hs
      exact ⟨v, element, actual, hv, hf, hel, hi, ha, hfits⟩
    · cases hint

end Scope

namespace Lower

theorem meets_assign (hn : s.Names names) (hva : s.table.VarargsAreArrays) {name : String}
    {value : Expr} {span : Span} (ha : value.Allocates names)
    (h : s.checkAssign name value span = []) :
    (assign s name value).Meets names s temps fun _ _ => True := by
  obtain ⟨ty, hty, h⟩ := Scope.orReport_eq_nil.mp h
  obtain ⟨v, hv, hf, rfl⟩ := Scope.targetType_eq_ok hty
  obtain ⟨actual, hi, hfits⟩ := Scope.checkStored_eq_nil h
  have hsite : (Site.assigned v.ty).Names names := Site.names_assigned fun _ => hn.declared name v hv
  unfold assign
  refine Meets.bind (meets_ofOption hv (Q := fun _ a => v = a) fun _ => rfl) ?_
  rintro more _ - - rfl
  refine Meets.bind (Expr.lower_meets hn hva value ha hsite (.inl rfl) hi) ?_
  rintro more o - - ⟨ho, rfl⟩
  cases hfield : v.isField with
  | true => exact meets_emit (.fieldWrite (hf hfield) hv hfield hfits ho) fun _ => trivial
  | false => exact meets_emit (.assign rfl hfits (.var hv hfield) ho) fun _ => trivial

theorem meets_assignElement (hn : s.Names names) (hva : s.table.VarargsAreArrays) {name : String}
    {index value : Expr} {span : Span} (hai : index.Allocates names) (hav : value.Allocates names)
    (h : s.checkAssignElement name index value span = []) :
    (assignElement s name index value).Meets names s temps fun _ _ => True := by
  obtain ⟨v, element, actual, hv, hf, hel, hi, ha, hfits⟩ := Scope.checkAssignElement_eq_nil h
  have hname : names element.name := by
    rw [(Ty.element?_eq_some.mp hel).2]
    exact hn.declared name v hv
  have store : ∀ {array : Operand} {temps : List Ty}, Holds s v.ty temps array → (do
      let i ← index.lower s (.wanting Ty.int)
      let operand ← value.lower s (.assigned element)
      emit (.arrayStore array i operand) : Lower Unit).Meets names s temps fun _ _ => True := by
    intro array temps harr
    refine Meets.bind (Expr.lower_meets hn hva index hai (Site.names_wanting fun _ => hn.int)
      (.inl rfl) hi) fun more i hp _ hi => ?_
    refine Meets.bind (Expr.lower_meets hn hva value hav (Site.names_assigned fun _ => hname)
      (.inl rfl) ha) ?_
    rintro most o hp' - ⟨ho, rfl⟩
    have hi := hi.mono hp'
    have harr := harr.mono (hp.trans hp')
    exact meets_emit (.arrayStore (by rw [harr.2]; exact hel) hi.2 (fun _ => hfits) harr.1 hi.1 ho)
      fun _ => trivial
  unfold assignElement
  refine Meets.bind (meets_ofOption hv (Q := fun _ a => v = a) fun _ => rfl) ?_
  rintro more _ - - rfl
  refine Meets.bind (meets_ofOption hel (Q := fun _ a => element = a) fun _ => rfl) ?_
  rintro more _ - - rfl
  cases hfield : v.isField with
  | true =>
    refine Meets.bind (meets_intoFresh (hn.declared name v hv) fun more id _ ht =>
      .fieldRead (hf hfield) hv hfield ht) fun more array _ _ harr => store harr
  | false =>
    refine Meets.bind (meets_pure (Q := Holds s v.ty) fun _ => ⟨.var hv hfield, rfl⟩)
      fun more array _ _ harr => store harr

theorem meets_ret (hn : s.Names names) (hva : s.table.VarargsAreArrays) {value : Option Expr}
    {span : Span} (ha : ∀ e ∈ value.toList, e.Allocates names)
    (h : s.checkReturn value span = []) :
    (ret s value).Meets names s temps fun _ _ => True := by
  cases value with
  | none => exact meets_emit (.retNone (Scope.checkReturned_eq_nil h)) fun _ => trivial
  | some e =>
    obtain ⟨ty, hi, h⟩ := Scope.orReport_eq_nil.mp h
    refine Meets.bind (Expr.lower_meets hn hva e (ha e (by simp))
      (Site.names_returned hn.result) (.inl rfl) hi) ?_
    rintro more o - - ⟨ho, rfl⟩
    exact meets_emit (.ret (Scope.checkReturned_eq_nil h) ho) fun _ => trivial

/-- The layout of a branch is typed when its condition and both parts are. -/
theorem meets_branch (hn : s.Names names) (hva : s.table.VarargsAreArrays) {condition : Expr}
    {thenPart elsePart : Lower Unit} (ha : condition.Allocates names)
    (hc : s.checkCondition condition = [])
    (ht : ∀ temps, thenPart.Meets names s temps fun _ _ => True)
    (he : ∀ temps, elsePart.Meets names s temps fun _ _ => True) :
    (branch s condition thenPart elsePart).Meets names s temps fun _ _ => True := by
  obtain ⟨ty, hi, hb⟩ := Scope.checkCondition_eq_nil hc
  have emits : ∀ {i : Instr} {temps : List Ty}, (∀ temps, i.Typed s temps) →
      (emit i).Meets names s temps fun _ _ => True := fun hi => meets_emit (hi _) fun _ => trivial
  unfold branch
  refine Meets.bind (meets_freshBranch (Q := fun _ _ => True) fun _ => trivial) fun more n _ _ _ => ?_
  refine Meets.bind (Expr.lowerCondition_meets hn hva ha hi hb (.thenPart n)) fun more _ _ _ _ => ?_
  refine Meets.bind (he more) fun more _ _ _ _ => ?_
  refine Meets.bind (emits fun _ => .jump (.branchEnd n)) fun more _ _ _ _ => ?_
  refine Meets.bind (emits fun _ => .label (.thenPart n)) fun more _ _ _ _ => ?_
  refine Meets.bind (ht more) fun more _ _ _ _ => ?_
  exact emits fun _ => .label (.branchEnd n)

/-- The layout of a loop is typed when its condition and its body are. -/
theorem meets_loop (hn : s.Names names) (hva : s.table.VarargsAreArrays) {condition : Expr}
    {body : Lower Unit} (ha : condition.Allocates names) (hc : s.checkCondition condition = [])
    (hbody : ∀ temps, body.Meets names s temps fun _ _ => True) :
    (loop s condition body).Meets names s temps fun _ _ => True := by
  obtain ⟨ty, hi, hb⟩ := Scope.checkCondition_eq_nil hc
  have emits : ∀ {i : Instr} {temps : List Ty}, (∀ temps, i.Typed s temps) →
      (emit i).Meets names s temps fun _ _ => True := fun hi => meets_emit (hi _) fun _ => trivial
  unfold loop
  refine Meets.bind (meets_freshLoop (Q := fun _ _ => True) fun _ => trivial) fun more n _ _ _ => ?_
  refine Meets.bind (emits fun _ => .label (.loopTest n)) fun more _ _ _ _ => ?_
  refine Meets.bind (Expr.lowerCondition_meets hn hva ha hi hb (.loopBody n)) fun more _ _ _ _ => ?_
  refine Meets.bind (emits fun _ => .jump (.loopEnd n)) fun more _ _ _ _ => ?_
  refine Meets.bind (emits fun _ => .label (.loopBody n)) fun more _ _ _ _ => ?_
  refine Meets.bind (hbody more) fun more _ _ _ _ => ?_
  refine Meets.bind (emits fun _ => .jump (.loopTest n)) fun more _ _ _ _ => ?_
  exact emits fun _ => .label (.loopEnd n)

end Lower

mutual
/-- A statement without errors has typed code. -/
theorem Stmt.lower_meets (hn : s.Names names) (hva : s.table.VarargsAreArrays) :
    (stmt : Stmt) → stmt.Allocates names → s.checkStmt stmt = [] → ∀ {temps : List Ty},
      (stmt.lower s).Meets names s temps fun _ _ => True
  | .block body _, ha, h => by
    rw [Scope.checkStmt] at h
    refine lowerAll_meets hn hva body (fun stmt hs => ha.part fun x hx => ?_) h
    rw [nodes]
    exact List.mem_cons_of_mem _ (mem_nodesAll hs hx)
  | .branch condition thenBranch none _, ha, h => by
    rw [Scope.checkStmt] at h
    obtain ⟨hc, ht⟩ := List.append_eq_nil_iff.mp h
    have hat : thenBranch.Allocates names := ha.part fun x hx => by simp [nodes, hx]
    exact meets_branch hn hva (ha.own (by simp [expressions])) hc
      (fun _ => lower_meets hn hva thenBranch hat ht) fun _ => meets_pure fun _ => trivial
  | .branch condition thenBranch (some elseBranch) _, ha, h => by
    rw [Scope.checkStmt] at h
    obtain ⟨h, he⟩ := List.append_eq_nil_iff.mp h
    obtain ⟨hc, ht⟩ := List.append_eq_nil_iff.mp h
    have hat : thenBranch.Allocates names := ha.part fun x hx => by simp [nodes, hx]
    have hae : elseBranch.Allocates names := ha.part fun x hx => by simp [nodes, hx]
    exact meets_branch hn hva (ha.own (by simp [expressions])) hc
      (fun _ => lower_meets hn hva thenBranch hat ht)
      fun _ => lower_meets hn hva elseBranch hae he
  | .loop condition body _, ha, h => by
    rw [Scope.checkStmt] at h
    obtain ⟨hc, hb⟩ := List.append_eq_nil_iff.mp h
    have hab : body.Allocates names := ha.part fun x hx => by simp [nodes, hx]
    exact meets_loop hn hva (ha.own (by simp [expressions])) hc
      fun _ => lower_meets hn hva body hab hb
  | .expr e _, ha, h => by
    rw [Scope.checkStmt] at h
    obtain ⟨ty, hty, -⟩ := Scope.orReport_eq_nil.mp h
    exact Expr.lowerDiscarded_meets hn hva (ha.own (by simp [expressions])) hty
  | .assign name value span, ha, h => by
    rw [Scope.checkStmt] at h
    exact meets_assign hn hva (ha.own (by simp [expressions])) h
  | .assignElement name index value span, ha, h => by
    rw [Scope.checkStmt] at h
    exact meets_assignElement hn hva (ha.own (by simp [expressions]))
      (ha.own (by simp [expressions])) h
  | .ret value span, ha, h => by
    rw [Scope.checkStmt] at h
    exact meets_ret hn hva (fun e he => ha.own he) h
/-- Statements without errors have typed code. -/
theorem Stmt.lowerAll_meets (hn : s.Names names) (hva : s.table.VarargsAreArrays) :
    (body : List Stmt) → (∀ stmt ∈ body, stmt.Allocates names) → s.checkStmts body = [] →
      ∀ {temps : List Ty}, (lowerAll s body).Meets names s temps fun _ _ => True
  | [], _, _ => meets_pure fun _ => trivial
  | stmt :: rest, ha, h => by
    rw [Scope.checkStmts] at h
    obtain ⟨h, hrest⟩ := List.append_eq_nil_iff.mp h
    refine Meets.bind (lower_meets hn hva stmt (ha stmt List.mem_cons_self) h)
      fun more _ _ _ _ => ?_
    exact lowerAll_meets hn hva rest (fun x hx => ha x (List.mem_cons_of_mem _ hx)) hrest
end

end JavaMinus
