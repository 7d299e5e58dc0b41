import JavaMinus.Lowering.Program
import JavaMinus.Proofs.Lowering.CallCode
import JavaMinus.Proofs.Typing.Lenient

/-!
# A more lenient policy changes no code

Lowering looks at the policy in one place of its own: too few arguments for a varargs method are
passed as they are where a superclass is trusted. Everything else it asks inference. So the code of
what a policy accepts is the same under a more lenient one, as an equality of computations and not
only of what they yield (`Expr.lower_under`, `Stmt.lower_under`).
-/

namespace JavaMinus

open Tac Lower

namespace Lower

/-- Sequences are equal when they go on equally with whatever their first part yields. -/
theorem bind_congr {α β : Type} {x : Lower α} {f g : α → Lower β}
    (h : ∀ c a code c', x.run c = .done a code c' → f a = g a) : (x >>= f) = (x >>= g) := by
  refine congrArg₂ Lower.mk (funext fun c => ?_) (funext fun c => ?_)
  · split
    · rfl
    · next a code c' hx => rw [h c a code c' hx]
  · split
    · rfl
    · next a code c' hx => rw [h c a code c' hx]

end Lower

variable {s : Scope} {q : Policy} {site : Site} {ty : Ty} {method : String} {span : Span}

/-! ## Expressions -/

namespace Lower

theorem pair_under (hq : s.policy ≤ q) {op : BinaryOp} {left right : Expr} {ls rs : Site}
    (h : operandSites s op left right = .ok (ls, rs))
    (hl : left.lower (s.under q) ls = left.lower s ls)
    (hr : right.lower (s.under q) rs = right.lower s rs) :
    (pair (s.under q) op left right (fun site => left.lower (s.under q) site) fun site =>
      right.lower (s.under q) site) =
        pair s op left right (fun site => left.lower s site) fun site => right.lower s site := by
  unfold pair
  rw [h, Expr.operandSites_under hq h]
  refine bind_congr fun _ p _ _ hp => ?_
  cases hp
  dsimp only
  rw [hl, hr]

/-- With an accepted number of arguments nothing is passed as it is for the superclass. -/
theorem packVarargs_under (hq : s.policy ≤ q) {m : Signature} {args : List Operand}
    (hc : (CallTarget.declared m).checkCount s method args.length span = .ok ()) :
    packVarargs (s.under q) m method args = packVarargs s m method args := by
  unfold packVarargs
  split
  · rfl
  · split
    · rfl
    · split
      · next hfew =>
        have htrust : s.trustsSuperclass = true := by
          rw [CallTarget.checkCount] at hc
          split at hc
          · next h =>
            rw [Bool.or_eq_true] at h
            refine h.resolve_right fun hacc => ?_
            have := Signature.fixedCount_le_of_acceptsCount hacc
            omega
          · cases hc
        rw [if_pos htrust, if_pos (Scope.trustsSuperclass_under hq htrust)]
      · rfl

/-- As many operands are yielded as expressions are lowered. -/
theorem length_of_lowerAll {sites : Nat → Site} :
    ∀ {es : List Expr} {i : Nat} {c c' : Counters} {os : List Operand} {code : List Instr},
      (Expr.lowerAll s sites i es).run c = .done os code c' → os.length = es.length
  | [], _, _, _, _, _, h => by cases h; rfl
  | e :: es, i, _, _, _, _, h => by
    obtain ⟨o, _, _, _, -, h, -⟩ := run_bind_eq_done.mp h
    obtain ⟨os, _, _, _, hos, h, -⟩ := run_bind_eq_done.mp h
    cases h
    rw [List.length_cons, List.length_cons, length_of_lowerAll hos]

theorem callCode_under (hq : s.policy ≤ q) {receiver : Expr} {target : CallTarget}
    {object object' : Lower Operand} {args : List Expr}
    {lowerArgs' : (Nat → Site) → Lower (List Operand)}
    (ht : receiver.callTarget s method span = .ok target)
    (hc : target.checkCount s method args.length span = .ok ()) (ho : object' = object)
    (hargs : lowerArgs' target.argumentSite = Expr.lowerAll s target.argumentSite 0 args) :
    callCode (s.under q) site method (receiver.callTarget (s.under q) method span) object' lowerArgs' =
      callCode s site method (receiver.callTarget s method span) object
        fun sites => Expr.lowerAll s sites 0 args := by
  rw [callCode_eq, callCode_eq, ht, Expr.callTarget_under hq ht, ho]
  refine bind_congr fun c t _ _ h => ?_
  cases h
  refine bind_congr fun _ on _ _ _ => ?_
  rw [hargs]
  refine bind_congr fun _ values _ _ h => ?_
  cases target with
  | declared m =>
    rw [pass, packVarargs_under hq (by rw [length_of_lowerAll h]; exact hc)]
    rfl
  | _ => rfl

end Lower

namespace Expr

/-- Parentheses have no code. -/
theorem lower_unparenthesized (e : Expr) (site : Site) :
    e.unparenthesized.lower s site = e.lower s site := by
  fun_induction unparenthesized e with
  | case1 e _ ih => rw [ih, lower]
  | case2 => rfl

/-- Lowering a name asks nothing of the policy. -/
theorem lower_under_of_namesClass {e : Expr} (h : e.namesClass s = true) (site : Site) :
    e.lower (s.under q) site = e.lower s site := by
  obtain ⟨name, span, he, -⟩ := unparenthesized_of_namesClass h
  rw [← lower_unparenthesized, ← lower_unparenthesized e, he, lower, lower]
  rfl

mutual
/-- An accepted expression has the same code under a more lenient policy. -/
theorem lower_under (hq : s.policy ≤ q) :
    ∀ (e : Expr) {site : Site} {ty : Ty}, e.infer s site = .ok ty →
      e.lower (s.under q) site = e.lower s site
  | .intLit .., _, _, _ | .boolLit .., _, _, _ | .newObject .., _, _, _ => by rw [lower, lower]
  | .ident .., _, _, _ | .self _, _, _, _ => by rw [lower, lower]; rfl
  | .binary op left right _, _, _, h => by
    obtain ⟨ls, rs, l, r, hsites, hl, hr⟩ := infer_operands h
    rw [lower, lower, pair_under hq hsites (lower_under hq left hl) (lower_under hq right hr)]
  | .not e _, _, _, h => by
    obtain ⟨-, t, ht, -⟩ := parts_not h
    rw [lower, lower, lower_under hq e ht]
  | .arrayLit es span, _, _, h => by
    obtain ⟨element, hscalar, hplain, rfl, hitems⟩ := parts_literal h
    rw [lower, lower, h, infer_under hq _ h]
    refine bind_congr fun _ t _ _ ht => ?_
    cases ht
    refine bind_congr fun _ t _ _ ht => ?_
    have hel : (Ty.array element.name).element? = some element :=
      congrArg some (Ty.scalar_name hscalar hplain)
    rw [elementOf, hel] at ht
    cases ht
    rw [lowerAll_under hq es hitems]
  | .index array place _, _, _, h => by
    obtain ⟨a, i, ha, -, hi, -⟩ := parts_index h
    rw [lower, lower, lower_under hq array ha, lower_under hq place hi]
  | .newArray _ length _, _, _, h => by
    rw [lower, lower, lower_under hq length (infer_of_isIntLiteral (parts_newArray h).1 _)]
  | .member object _ _, _, _, h => by
    obtain ⟨-, -, a, ha, -⟩ := parts_member h
    rw [lower, lower, lower_under hq object ha]
  | .call receiver method args span, _, _, h => by
    obtain ⟨target, actuals, ht, hc, hargs, -, -⟩ := parts_call h
    rw [lower, lower, callCode_under hq ht hc (lower_under_receiver hq receiver ht)
      (lowerAll_under hq args hargs)]
  | .paren inner _, _, _, h => by
    rw [infer] at h
    rw [lower, lower, lower_under hq inner h]
theorem lower_under_receiver (hq : s.policy ≤ q) : ∀ (e : Expr) {method : String} {span : Span}
    {target : CallTarget}, e.callTarget s method span = .ok target →
      e.lower (s.under q) .unknown = e.lower s .unknown
  | e, _, _, _, h => by
    rcases infer_receiver h with hname | ⟨t, ht⟩
    · exact lower_under_of_namesClass hname .unknown
    · exact lower_under hq e ht
theorem lowerAll_under (hq : s.policy ≤ q) :
    ∀ (es : List Expr) {sites : Nat → Site} {i : Nat} {tys : List Ty},
      inferArgs s sites i es = .ok tys → lowerAll (s.under q) sites i es = lowerAll s sites i es
  | [], _, _, _, _ => by rw [lowerAll, lowerAll]
  | e :: es, _, _, _, h => by
    obtain ⟨t, ts, ht, hts, rfl⟩ := parts_args h
    rw [lowerAll, lowerAll, lower_under hq e ht, lowerAll_under hq es hts]
end

theorem lowerDiscarded_under (hq : s.policy ≤ q) {e : Expr} (h : e.infer s .discarded = .ok ty) :
    e.lowerDiscarded (s.under q) = e.lowerDiscarded s := by
  rw [← infer_unparenthesized] at h
  unfold lowerDiscarded
  split
  · next receiver method args span he =>
    rw [he] at h
    obtain ⟨target, actuals, ht, hc, hargs, -, -⟩ := parts_call h
    rw [callCode_under hq ht hc (lower_under_receiver hq receiver ht) (lowerAll_under hq args hargs)]
  · rw [lower_under hq _ h]

theorem lowerCondition_under (hq : s.policy ≤ q) {e : Expr} {target : String}
    (h : e.infer s (.wanting Ty.boolean) = .ok ty) :
    e.lowerCondition (s.under q) target = e.lowerCondition s target := by
  unfold lowerCondition
  split
  · next op left right span he =>
    rw [lower_under hq e h]
    rw [← infer_unparenthesized, he] at h
    obtain ⟨ls, rs, l, r, hsites, hl, hr⟩ := infer_operands h
    rw [pair_under hq hsites (lower_under hq left hl) (lower_under hq right hr)]
  · rw [lower_under hq e h]

end Expr

/-! ## Statements -/

namespace Lower

theorem assign_under (hq : s.policy ≤ q) {name : String} {value : Expr}
    (h : s.checkAssign name value span = []) :
    assign (s.under q) name value = assign s name value := by
  obtain ⟨_, ht, h⟩ := Scope.orReport_eq_nil.mp h
  obtain ⟨v, hv, -, rfl⟩ := Scope.targetType_eq_ok ht
  obtain ⟨ty, hty, -⟩ := Scope.checkStored_eq_nil h
  unfold assign target
  rw [Scope.under_resolve?, hv]
  refine bind_congr fun _ w _ _ h => ?_
  cases h
  rw [Expr.lower_under hq value hty]
  rfl

theorem assignElement_under (hq : s.policy ≤ q) {name : String} {index value : Expr}
    (h : s.checkAssignElement name index value span = []) :
    assignElement (s.under q) name index value = assignElement s name index value := by
  obtain ⟨v, element, ty, hv, -, hel, hi, ha, -⟩ := Scope.checkAssignElement_eq_nil h
  unfold assignElement target
  rw [Scope.under_resolve?, hv]
  refine bind_congr fun _ w _ _ h => ?_
  cases h
  rw [hel]
  refine bind_congr fun _ t _ _ h => ?_
  cases h
  rw [Expr.lower_under hq index hi, Expr.lower_under hq value ha]
  rfl

theorem branch_under (hq : s.policy ≤ q) {condition : Expr} {thenPart elsePart : Lower Unit}
    (h : s.checkCondition condition = []) :
    branch (s.under q) condition thenPart elsePart = branch s condition thenPart elsePart := by
  obtain ⟨ty, hty, -⟩ := Scope.checkCondition_eq_nil h
  unfold branch
  refine bind_congr fun _ n _ _ _ => ?_
  rw [Expr.lowerCondition_under hq hty]

theorem loop_under (hq : s.policy ≤ q) {condition : Expr} {body : Lower Unit}
    (h : s.checkCondition condition = []) :
    loop (s.under q) condition body = loop s condition body := by
  obtain ⟨ty, hty, -⟩ := Scope.checkCondition_eq_nil h
  unfold loop
  refine bind_congr fun _ n _ _ _ => ?_
  rw [Expr.lowerCondition_under hq hty]

end Lower

mutual
/-- An accepted statement has the same code under a more lenient policy. -/
theorem Stmt.lower_under (hq : s.policy ≤ q) :
    ∀ stmt : Stmt, s.checkStmt stmt = [] → stmt.lower (s.under q) = stmt.lower s
  | .block body _, h => by
    rw [Scope.checkStmt] at h
    rw [lower, lower, lowerAll_under hq body h]
  | .branch condition thenBranch none _, h => by
    rw [Scope.checkStmt] at h
    obtain ⟨hc, ht⟩ := List.append_eq_nil_iff.mp h
    rw [lower, lower, branch_under hq hc, lower_under hq thenBranch ht]
  | .branch condition thenBranch (some elseBranch) _, h => by
    rw [Scope.checkStmt] at h
    obtain ⟨h, he⟩ := List.append_eq_nil_iff.mp h
    obtain ⟨hc, ht⟩ := List.append_eq_nil_iff.mp h
    rw [lower, lower, branch_under hq hc, lower_under hq thenBranch ht,
      lower_under hq elseBranch he]
  | .loop condition body _, h => by
    rw [Scope.checkStmt] at h
    obtain ⟨hc, hb⟩ := List.append_eq_nil_iff.mp h
    rw [lower, lower, loop_under hq hc, lower_under hq body hb]
  | .expr e _, h => by
    rw [Scope.checkStmt] at h
    obtain ⟨ty, hty, -⟩ := Scope.orReport_eq_nil.mp h
    rw [lower, lower, Expr.lowerDiscarded_under hq hty]
  | .assign name value span, h => by
    rw [Scope.checkStmt] at h
    rw [lower, lower, assign_under hq h]
  | .assignElement name index value span, h => by
    rw [Scope.checkStmt] at h
    rw [lower, lower, assignElement_under hq h]
  | .ret none _, _ => by rw [lower, lower]; rfl
  | .ret (some e) _, h => by
    rw [Scope.checkStmt] at h
    obtain ⟨ty, hty, -⟩ := Scope.orReport_eq_nil.mp h
    rw [lower, lower, Lower.ret, Lower.ret, Scope.under_returnType, Expr.lower_under hq e hty]
theorem Stmt.lowerAll_under (hq : s.policy ≤ q) :
    ∀ body : List Stmt, s.checkStmts body = [] → lowerAll (s.under q) body = lowerAll s body
  | [], _ => by rw [lowerAll, lowerAll]
  | stmt :: rest, h => by
    rw [Scope.checkStmts] at h
    obtain ⟨h, hrest⟩ := List.append_eq_nil_iff.mp h
    rw [lowerAll, lowerAll, lower_under hq stmt h, lowerAll_under hq rest hrest]
end

end JavaMinus
