import JavaMinus.Check.Program
import JavaMinus.Proofs.Lowering.Accepted
import JavaMinus.Proofs.Typing.Placed

/-!
# A more lenient policy accepts more

Policies are ordered by what they grant. Whatever a policy accepts, a more lenient one accepts as
well and gives the same type: this holds of call targets (`CallTarget.resolve_under`), of expressions
(`Expr.infer_under`) and of statements (`Scope.checkStmt_under`). The flags are only ever asked for
when something would otherwise be refused, so an accepted expression never reaches a grant that it
does not need.

`Scope.under` reads the same class and method under another policy.
-/

namespace JavaMinus

/-- One policy grants whatever the other grants. -/
instance : LE Policy where
  le p q := (p.lenientImports = true → q.lenientImports = true) ∧
    (p.trustSuperclass = true → q.trustSuperclass = true)

instance (p q : Policy) : Decidable (p ≤ q) :=
  inferInstanceAs (Decidable (_ ∧ _))

namespace Scope

/-- The same class and method under another policy. -/
def under (s : Scope) (q : Policy) : Scope := { s with policy := q }

variable (s : Scope) (q : Policy)

@[simp] theorem under_table : (s.under q).table = s.table := rfl
@[simp] theorem under_policy : (s.under q).policy = q := rfl
@[simp] theorem under_returnType : (s.under q).returnType = s.returnType := rfl
@[simp] theorem under_resolve? (name : String) : (s.under q).resolve? name = s.resolve? name := rfl

end Scope

variable {s : Scope} {q : Policy} {site : Site} {ty : Ty} {method : String} {span : Span}

namespace Scope

theorem assignable_under (hq : s.policy ≤ q) {target value : Ty}
    (h : s.assignable target value = true) : (s.under q).assignable target value = true := by
  simp only [assignable, Bool.or_eq_true, Bool.and_eq_true, under_table, under_policy] at h ⊢
  rcases h with h | ⟨hshape, h | ⟨⟨hl, ht⟩, hv⟩⟩
  · exact .inl h
  · exact .inr ⟨hshape, .inl h⟩
  · exact .inr ⟨hshape, .inr ⟨⟨hq.1 hl, ht⟩, hv⟩⟩

theorem trustsSuperclass_under (hq : s.policy ≤ q) (h : s.trustsSuperclass = true) :
    (s.under q).trustsSuperclass = true := by
  simp only [trustsSuperclass, Bool.and_eq_true, under_table, under_policy] at h ⊢
  exact ⟨h.1, hq.2 h.2⟩

theorem ownMethod_under (hq : s.policy ≤ q) {target : CallTarget}
    (h : s.ownMethod method span = .ok target) : (s.under q).ownMethod method span = .ok target := by
  unfold ownMethod at h ⊢
  rw [under_table]
  split at h
  · exact h
  · split at h
    · next ht =>
      cases h
      rw [if_pos (trustsSuperclass_under hq ht)]
    · cases h

end Scope

/-! ## Calls -/

namespace CallTarget

theorem onValue_under (hq : s.policy ≤ q) {target : CallTarget}
    (h : onValue s ty method span = .ok target) :
    onValue (s.under q) ty method span = .ok target := by
  unfold onValue at h ⊢
  rw [Scope.under_table]
  split at h
  · cases h
  · next ha =>
    rw [if_neg ha]
    split at h
    · next hn =>
      rw [if_pos hn]
      exact Scope.ownMethod_under hq h
    · next hn =>
      rw [if_neg hn]
      exact h

theorem onClassName_under (hq : s.policy ≤ q) {name : String} {nameSpan : Span}
    {target : CallTarget} (h : onClassName s name nameSpan method span = .ok target) :
    onClassName (s.under q) name nameSpan method span = .ok target := by
  unfold onClassName at h ⊢
  rw [Scope.under_table]
  split at h
  · next hi =>
    rw [if_pos hi]
    exact h
  · next hi =>
    rw [if_neg hi]
    split at h
    · next hn =>
      rw [if_pos hn]
      cases ho : s.ownMethod method span with
      | error e => rw [ho] at h; cases h
      | ok found =>
        rw [ho] at h
        rw [Scope.ownMethod_under hq ho]
        exact h
    · cases h

/-- A call keeps its target when its receiver keeps its type. -/
theorem resolve_under (hq : s.policy ≤ q) {receiver : Expr} {o o' : Except TypeError Ty}
    {target : CallTarget} (ho : ∀ ty, o = .ok ty → o' = .ok ty)
    (h : resolve s receiver o method span = .ok target) :
    resolve (s.under q) receiver o' method span = .ok target := by
  have value : (o.bind fun ty => onValue s ty method span) = .ok target →
      (o'.bind fun ty => onValue (s.under q) ty method span) = .ok target := by
    intro h
    obtain ⟨ty, hty, h⟩ := bind_eq_ok.mp h
    rw [ho ty hty]
    exact onValue_under hq h
  unfold resolve at h ⊢
  split at h
  · split at h
    · cases h
    · next hs => exact (if_neg hs).trans (Scope.ownMethod_under hq h)
  · split at h
    · next hn => exact (if_pos hn).trans (onClassName_under hq h)
    · next hn => exact (if_neg hn).trans (value h)
  · exact value h

theorem checkCount_under (hq : s.policy ≤ q) {target : CallTarget} {count : Nat}
    (h : target.checkCount s method count span = .ok ()) :
    target.checkCount (s.under q) method count span = .ok () := by
  cases target with
  | declared m =>
    rw [checkCount] at h ⊢
    split at h
    · next hc =>
      rw [Bool.or_eq_true] at hc
      rw [if_pos (by rw [Bool.or_eq_true]; exact hc.imp_left (Scope.trustsSuperclass_under hq))]
    · cases h
  | _ => rfl

theorem misfit_under (hq : s.policy ≤ q) {m : Signature} {direct : Bool} :
    ∀ {arguments : List (Span × Ty)} {i : Nat}, misfit s m method direct i arguments = .ok () →
      misfit (s.under q) m method direct i arguments = .ok ()
  | [], _, _ => by rw [misfit]
  | (span, actual) :: rest, i, h => by
    rw [misfit] at h ⊢
    split at h
    · exact misfit_under hq h
    · next expected _ =>
      split at h
      · next hd =>
        rw [if_pos hd]
        exact misfit_under hq h
      · next hd =>
        rw [if_neg hd]
        split at h
        · next ha =>
          rw [if_pos (Scope.assignable_under hq ha)]
          exact misfit_under hq h
        · cases h

theorem checkTypes_under (hq : s.policy ≤ q) {target : CallTarget} {spans : List Span}
    {actuals : List Ty} (h : target.checkTypes s method spans actuals = .ok ()) :
    target.checkTypes (s.under q) method spans actuals = .ok () := by
  cases target with
  | declared m =>
    rw [checkTypes] at h ⊢
    split at h
    · next ht => rw [if_pos (Scope.trustsSuperclass_under hq ht)]
    · split
      · rfl
      · exact misfit_under hq h
  | _ => rfl

end CallTarget

/-! ## Expressions -/

namespace Expr

theorem equalityType_under (hq : s.policy ≤ q) {op : BinaryOp} {l r : Ty}
    (h : equalityType s op l r span = .ok ty) : equalityType (s.under q) op l r span = .ok ty := by
  unfold equalityType at h ⊢
  split at h
  · next ha =>
    rw [Bool.or_eq_true] at ha
    rw [if_pos]
    · exact h
    · rw [Bool.or_eq_true]
      exact ha.imp (Scope.assignable_under hq) (Scope.assignable_under hq)
  · cases h

mutual
/-- The type that an expression has under a policy it has under a more lenient one. -/
theorem infer_under (hq : s.policy ≤ q) :
    ∀ (e : Expr) {site : Site} {ty : Ty}, e.infer s site = .ok ty →
      e.infer (s.under q) site = .ok ty
  | .intLit .., _, _, h | .boolLit .., _, _, h | .ident .., _, _, h | .self _, _, _, h
  | .newArray .., _, _, h | .newObject .., _, _, h | .arrayLit [] _, _, _, h => by
    rw [infer] at h ⊢
    exact h
  | .binary op left right _, _, _, h => by
    rw [infer] at h ⊢
    split at h
    · next hop =>
      rw [if_pos hop]
      split at h
      · next hc =>
        rw [if_pos hc]
        obtain ⟨r, hr, h⟩ := bind_eq_ok.mp h
        obtain ⟨l, hl, h⟩ := bind_eq_ok.mp h
        rw [infer_under hq right hr]
        simp only [bind, Except.bind]
        rw [infer_under hq left hl]
        exact equalityType_under hq h
      · next hc =>
        rw [if_neg hc]
        obtain ⟨l, hl, h⟩ := bind_eq_ok.mp h
        obtain ⟨r, hr, h⟩ := bind_eq_ok.mp h
        rw [infer_under hq left hl]
        simp only [bind, Except.bind]
        rw [infer_under hq right hr]
        exact equalityType_under hq h
    · next hop =>
      rw [if_neg hop]
      obtain ⟨l, hl, h⟩ := bind_eq_ok.mp h
      obtain ⟨r, hr, h⟩ := bind_eq_ok.mp h
      rw [infer_under hq left hl, infer_under hq right hr]
      exact h
  | .not e _, _, _, h => by
    rw [infer] at h ⊢
    obtain ⟨t, ht, h⟩ := bind_eq_ok.mp h
    rw [infer_under hq e ht]
    exact h
  | .arrayLit (first :: rest) _, _, _, h => by
    rw [infer] at h ⊢
    obtain ⟨element, hf, h⟩ := bind_eq_ok.mp h
    rw [infer_under hq first hf]
    simp only [bind, Except.bind]
    split at h
    · cases h
    · next ha =>
      rw [if_neg ha]
      obtain ⟨_, hrest, h⟩ := bind_eq_ok.mp h
      rw [checkElements_under hq rest hrest]
      exact h
  | .index array place _, _, _, h => by
    rw [infer] at h ⊢
    split at h
    · cases h
    · next hc =>
      rw [if_neg hc]
      obtain ⟨a, ha, h⟩ := bind_eq_ok.mp h
      rw [infer_under hq array ha]
      simp only [bind, Except.bind]
      split at h
      · cases h
      · next element hel =>
        obtain ⟨i, hi, h⟩ := bind_eq_ok.mp h
        rw [infer_under hq place hi]
        exact h
  | .member object property _, _, _, h => by
    rw [infer] at h ⊢
    split at h
    · cases h
    · next hp =>
      rw [if_neg hp]
      obtain ⟨a, ha, h⟩ := bind_eq_ok.mp h
      rw [infer_under hq object ha]
      exact h
  | .call receiver method args span, site, ty, h => by
    obtain ⟨target, actuals, ht, hc, hargs, hm, hv⟩ := parts_call h
    have ht' := CallTarget.resolve_under hq (fun _ => infer_under hq receiver) ht
    rw [infer, ht']
    simp only [bind, Except.bind]
    rw [CallTarget.checkCount_under hq hc]
    simp only
    rw [inferArgs_under hq args hargs]
    simp only
    rw [CallTarget.checkTypes_under hq hm]
    exact hv
  | .paren inner _, _, _, h => by
    rw [infer] at h ⊢
    exact infer_under hq inner h
theorem checkElements_under (hq : s.policy ≤ q) {element : Ty} :
    ∀ items : List Expr, checkElements s element items = .ok () →
      checkElements (s.under q) element items = .ok ()
  | [], _ => by rw [checkElements]
  | item :: rest, h => by
    rw [checkElements] at h ⊢
    obtain ⟨t, ht, h⟩ := bind_eq_ok.mp h
    rw [infer_under hq item ht]
    simp only [bind, Except.bind]
    split at h
    · cases h
    · next ha =>
      rw [if_neg ha]
      exact checkElements_under hq rest h
theorem inferArgs_under (hq : s.policy ≤ q) :
    ∀ (es : List Expr) {sites : Nat → Site} {i : Nat} {tys : List Ty},
      inferArgs s sites i es = .ok tys → inferArgs (s.under q) sites i es = .ok tys
  | [], _, _, _, h => by
    rw [inferArgs] at h ⊢
    exact h
  | e :: es, _, _, _, h => by
    obtain ⟨t, ts, ht, hts, rfl⟩ := parts_args h
    rw [inferArgs, infer_under hq e ht, inferArgs_under hq es hts]
    rfl
end

theorem callTarget_under (hq : s.policy ≤ q) {receiver : Expr} {target : CallTarget}
    (h : receiver.callTarget s method span = .ok target) :
    receiver.callTarget (s.under q) method span = .ok target :=
  CallTarget.resolve_under hq (fun _ => infer_under hq receiver) h

/-- A name that no variable has is refused for one reason under every policy. -/
theorem infer_under_of_namesClass {e : Expr} (h : e.namesClass s = true) (q : Policy) (site : Site) :
    e.infer (s.under q) site = e.infer s site := by
  obtain ⟨name, span, he, hn⟩ := unparenthesized_of_namesClass h
  rw [← infer_unparenthesized, ← infer_unparenthesized s, he, infer, infer, Scope.under_resolve?, hn]

/-- The operands of an accepted operator stand at the same sites under a more lenient policy. -/
theorem operandSites_under (hq : s.policy ≤ q) {op : BinaryOp} {left right : Expr} {ls rs : Site}
    (h : Lower.operandSites s op left right = .ok (ls, rs)) :
    Lower.operandSites (s.under q) op left right = .ok (ls, rs) := by
  unfold Lower.operandSites at h ⊢
  split at h
  · next hop =>
    rw [if_pos hop]
    split at h
    · next hc =>
      obtain ⟨r, hr, h⟩ := bind_eq_ok.mp h
      rw [if_pos hc, infer_under hq right hr]
      exact h
    · next hc =>
      obtain ⟨l, hl, h⟩ := bind_eq_ok.mp h
      rw [if_neg hc, infer_under hq left hl]
      exact h
  · next hop =>
    rw [if_neg hop]
    exact h

mutual
/-- Everything in an accepted expression stands at the same site under a more lenient policy. -/
theorem placed_under (hq : s.policy ≤ q) :
    ∀ (e : Expr) {site : Site} {ty : Ty}, e.infer s site = .ok ty →
      e.placed (s.under q) site = e.placed s site
  | .intLit .., _, _, _ | .boolLit .., _, _, _ | .ident .., _, _, _ | .self _, _, _, _
  | .newObject .., _, _, _ => by rw [placed, placed]
  | .binary op left right _, _, _, h => by
    obtain ⟨ls, rs, l, r, hsites, hl, hr⟩ := infer_operands h
    rw [placed, placed, hsites, operandSites_under hq hsites]
    simp only
    rw [placed_under hq left hl, placed_under hq right hr]
  | .not e _, _, _, h => by
    obtain ⟨-, t, ht, -⟩ := parts_not h
    rw [placed, placed, placed_under hq e ht]
  | .arrayLit es _, _, _, h => by
    obtain ⟨tys, htys⟩ := infer_elements h
    rw [placed, placed, h, infer_under hq _ h]
    simp only
    rw [placedAll_under hq es htys]
  | .index array place _, _, _, h => by
    obtain ⟨a, i, ha, -, hi, -⟩ := parts_index h
    rw [placed, placed, placed_under hq array ha, placed_under hq place hi]
  | .newArray _ length _, _, _, h => by
    rw [placed, placed, placed_under hq length (infer_of_isIntLiteral (parts_newArray h).1 _)]
  | .member object _ _, _, _, h => by
    obtain ⟨-, -, a, ha, -⟩ := parts_member h
    rw [placed, placed, placed_under hq object ha]
  | .call receiver method args span, _, _, h => by
    obtain ⟨target, actuals, ht, -, hargs, -, -⟩ := parts_call h
    have hreceiver : receiver.placed (s.under q) .unknown = receiver.placed s .unknown := by
      rcases infer_receiver ht with hname | ⟨t, hr⟩
      · exact placed_under_of_namesClass receiver hname .unknown
      · exact placed_under hq receiver hr
    rw [placed, placed, ht, callTarget_under hq ht]
    simp only
    rw [hreceiver, placedAll_under hq args hargs]
  | .paren inner _, _, _, h => by
    rw [infer] at h
    rw [placed, placed, placed_under hq inner h]
theorem placedAll_under (hq : s.policy ≤ q) :
    ∀ (es : List Expr) {sites : Nat → Site} {i : Nat} {tys : List Ty},
      inferArgs s sites i es = .ok tys → placedAll (s.under q) sites i es = placedAll s sites i es
  | [], _, _, _, _ => by rw [placedAll, placedAll]
  | e :: es, _, _, _, h => by
    obtain ⟨t, ts, ht, hts, rfl⟩ := parts_args h
    rw [placedAll, placedAll, placed_under hq e ht, placedAll_under hq es hts]
theorem placed_under_of_namesClass :
    ∀ (e : Expr), e.namesClass s = true → ∀ site, e.placed (s.under q) site = e.placed s site
  | .ident .., _, _ => by rw [placed, placed]
  | .paren inner _, h, site => by
    rw [placed, placed, placed_under_of_namesClass inner h site]
  | .intLit .., h, _ | .boolLit .., h, _ | .self _, h, _ | .binary .., h, _ | .not .., h, _
  | .arrayLit .., h, _ | .index .., h, _ | .newArray .., h, _ | .newObject .., h, _
  | .member .., h, _ | .call .., h, _ => by cases h
end

/-- Every expression inside an accepted one has the same type, or is refused for the same reason,
under a more lenient policy. -/
theorem infer_eq_under (hq : s.policy ≤ q) {e : Expr} (h : e.infer s site = .ok ty)
    {x : Site × Expr} (hx : x ∈ e.placed s site) :
    x.2.infer (s.under q) x.1 = x.2.infer s x.1 := by
  rcases infer_of_mem_placed h hx with ⟨t, ht⟩ | hname
  · rw [ht, infer_under hq _ ht]
  · exact infer_under_of_namesClass hname q x.1

end Expr

/-! ## Statements -/

namespace Scope

theorem orReport_under {o o' : Except TypeError Ty} {next next' : Ty → List CheckError}
    (ho : ∀ ty, o = .ok ty → o' = .ok ty) (hn : ∀ ty, next ty = [] → next' ty = [])
    (h : orReport o next = []) : orReport o' next' = [] := by
  obtain ⟨ty, hty, h⟩ := orReport_eq_nil.mp h
  exact orReport_eq_nil.mpr ⟨ty, ho ty hty, hn ty h⟩

theorem checkCondition_under (hq : s.policy ≤ q) {condition : Expr}
    (h : s.checkCondition condition = []) : (s.under q).checkCondition condition = [] :=
  orReport_under (fun _ => Expr.infer_under hq condition) (fun _ => id) h

theorem checkStored_under (hq : s.policy ≤ q) {name : String} {expected : Ty} {value : Expr}
    (h : s.checkStored name expected value = []) :
    (s.under q).checkStored name expected value = [] := by
  refine orReport_under (fun _ => Expr.infer_under hq value) (fun ty h => ?_) h
  split at h
  · next ha => rw [if_pos (assignable_under hq ha)]
  · cases h

theorem checkReturned_under (hq : s.policy ≤ q) {actual : Ty} (h : s.checkReturned actual span = []) :
    (s.under q).checkReturned actual span = [] := by
  have hr : (s.under q).returns actual = true := by
    have hs := checkReturned_eq_nil h
    unfold returns at hs ⊢
    rw [under_returnType]
    split at hs
    · next hv => rw [if_pos hv]; exact hs
    · next hv => rw [if_neg hv]; exact assignable_under hq hs
  exact if_pos hr

mutual
/-- A statement that a policy accepts a more lenient one accepts. -/
theorem checkStmt_under (hq : s.policy ≤ q) :
    ∀ stmt : Stmt, s.checkStmt stmt = [] → (s.under q).checkStmt stmt = []
  | .block body _, h => by
    rw [checkStmt] at h ⊢
    exact checkStmts_under hq body h
  | .branch condition thenBranch none _, h => by
    rw [checkStmt] at h ⊢
    obtain ⟨hc, ht⟩ := List.append_eq_nil_iff.mp h
    rw [checkCondition_under hq hc, checkStmt_under hq thenBranch ht]
    rfl
  | .branch condition thenBranch (some elseBranch) _, h => by
    rw [checkStmt] at h ⊢
    obtain ⟨h, he⟩ := List.append_eq_nil_iff.mp h
    obtain ⟨hc, ht⟩ := List.append_eq_nil_iff.mp h
    rw [checkCondition_under hq hc, checkStmt_under hq thenBranch ht,
      checkStmt_under hq elseBranch he]
    rfl
  | .loop condition body _, h => by
    rw [checkStmt] at h ⊢
    obtain ⟨hc, hb⟩ := List.append_eq_nil_iff.mp h
    rw [checkCondition_under hq hc, checkStmt_under hq body hb]
    rfl
  | .expr e _, h => by
    rw [checkStmt] at h ⊢
    exact orReport_under (fun _ => Expr.infer_under hq e) (fun _ => id) h
  | .assign target value _, h => by
    rw [checkStmt] at h ⊢
    exact orReport_under (fun _ => id) (fun _ => checkStored_under hq) h
  | .assignElement target index value _, h => by
    rw [checkStmt] at h ⊢
    refine orReport_under (fun _ => id) (fun ty h => ?_) h
    split at h
    · cases h
    · obtain ⟨hi, hv⟩ := List.append_eq_nil_iff.mp h
      rw [orReport_under (fun _ => Expr.infer_under hq index) (fun _ => id) hi,
        checkStored_under hq hv]
      rfl
  | .ret none _, h => by
    rw [checkStmt] at h ⊢
    exact checkReturned_under hq h
  | .ret (some e) _, h => by
    rw [checkStmt] at h ⊢
    exact orReport_under (fun _ => Expr.infer_under hq e) (fun _ => checkReturned_under hq) h
theorem checkStmts_under (hq : s.policy ≤ q) :
    ∀ body : List Stmt, s.checkStmts body = [] → (s.under q).checkStmts body = []
  | [], _ => by rw [checkStmts]
  | stmt :: rest, h => by
    rw [checkStmts] at h ⊢
    obtain ⟨h, hrest⟩ := List.append_eq_nil_iff.mp h
    rw [checkStmt_under hq stmt h, checkStmts_under hq rest hrest]
    rfl
end

end Scope

namespace Stmt

theorem sites_under (stmt : Stmt) (q : Policy) : stmt.sites (s.under q) = stmt.sites s := by
  cases stmt <;> rfl

/-- Everything in an accepted statement stands at the same site under a more lenient policy. -/
theorem placed_under (hq : s.policy ≤ q) {stmt : Stmt} (h : s.checkStmt stmt = []) :
    stmt.placed (s.under q) = stmt.placed s := by
  unfold placed
  refine List.flatMap_congr fun inner hi => ?_
  rw [sites_under]
  refine List.flatMap_congr fun x hx => ?_
  obtain ⟨ty, hty⟩ := (infer_sites (Scope.checkStmt_of_mem_nodes stmt h inner hi)).2 x hx
  exact Expr.placed_under hq x.2 hty

/-- Everything in an accepted statement has the same type, or is refused for the same reason, under
a more lenient policy. -/
theorem infer_eq_under (hq : s.policy ≤ q) {stmt : Stmt} (h : s.checkStmt stmt = [])
    {x : Site × Expr} (hx : x ∈ stmt.placed s) : x.2.infer (s.under q) x.1 = x.2.infer s x.1 := by
  obtain ⟨-, -, y, -, ty, hty, hxy⟩ := exists_of_mem_placed h hx
  exact Expr.infer_eq_under hq hty hxy

end Stmt

end JavaMinus
