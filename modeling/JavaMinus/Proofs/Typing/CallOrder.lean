import JavaMinus.Lowering.Program
import JavaMinus.Syntax.Walk

/-!
# Call expressions in order

The call expressions of a statement in the order in which they are lowered (`Stmt.calls`): inside a
call those of its receiver and of its arguments come before the call itself, and elsewhere they come
in source order, the else part of a branch before its then part.

The receiver of a call of a static method is not lowered, so the calls in it are lost
(`Stmt.keptCalls`). The two lists are equal exactly if no such receiver has a call in it
(`Stmt.callsByAll_eq_iff`).
-/

namespace JavaMinus

namespace Expr

mutual
/-- The call expressions in an expression in the order of evaluation. The receiver of a call is
looked into where `looks` says so of the call. -/
def callsBy (looks : Expr → Bool) : Expr → List Expr
  | .call receiver method args span =>
    (if looks (.call receiver method args span) then receiver.callsBy looks else []) ++
      callsByAll looks args ++ [.call receiver method args span]
  | .binary _ left right _ => left.callsBy looks ++ right.callsBy looks
  | .not operand _ => operand.callsBy looks
  | .arrayLit elements _ => callsByAll looks elements
  | .index array place _ => array.callsBy looks ++ place.callsBy looks
  | .newArray _ length _ => length.callsBy looks
  | .member object _ _ => object.callsBy looks
  | .paren inner _ => inner.callsBy looks
  | .intLit .. | .boolLit .. | .ident .. | .self _ | .newObject .. => []
/-- The call expressions in several expressions, one after another. -/
def callsByAll (looks : Expr → Bool) : List Expr → List Expr
  | [] => []
  | e :: es => e.callsBy looks ++ callsByAll looks es
end

/-- The call expressions in an expression: those of the receiver, those of the arguments from left to
right, then the call itself. -/
def calls (e : Expr) : List Expr := e.callsBy fun _ => true

/-- The receiver of a call is evaluated, unless the method is static. -/
def evaluatesReceiver (s : Scope) : Expr → Bool
  | .call receiver method _ span =>
    match receiver.callTarget s method span with
    | .ok target => !target.isStatic
    | .error _ => true
  | _ => true

/-- The call expressions that are lowered: those in the receiver of a static call are not. -/
def keptCalls (s : Scope) (e : Expr) : List Expr := e.callsBy (evaluatesReceiver s)

/-- The name of the method that a call expression calls. -/
def callee? : Expr → Option String
  | .call _ method _ _ => some method
  | _ => none

end Expr

namespace Stmt

mutual
/-- The call expressions in a statement in the order of its code: the else part of a branch is laid
out in front of its then part. -/
def callsBy (looks : Expr → Bool) : Stmt → List Expr
  | .block body _ => callsByAll looks body
  | .branch condition thenBranch none _ => condition.callsBy looks ++ thenBranch.callsBy looks
  | .branch condition thenBranch (some elseBranch) _ =>
    condition.callsBy looks ++ (elseBranch.callsBy looks ++ thenBranch.callsBy looks)
  | .loop condition body _ => condition.callsBy looks ++ body.callsBy looks
  | .expr e _ => e.callsBy looks
  | .assign _ value _ => value.callsBy looks
  | .assignElement _ index value _ => index.callsBy looks ++ value.callsBy looks
  | .ret none _ => []
  | .ret (some value) _ => value.callsBy looks
/-- The call expressions in several statements, one after another. -/
def callsByAll (looks : Expr → Bool) : List Stmt → List Expr
  | [] => []
  | stmt :: rest => stmt.callsBy looks ++ callsByAll looks rest
end

/-- The call expressions in statements in the order of their code. -/
def calls (body : List Stmt) : List Expr := callsByAll (fun _ => true) body

/-- The call expressions in statements that are lowered. -/
def keptCalls (s : Scope) (body : List Stmt) : List Expr := callsByAll (Expr.evaluatesReceiver s) body

end Stmt

/-! ## Which calls are kept -/

/-- Parts of two lists that together are the lists are the parts of the lists. -/
theorem append_eq_append_of_sublist {α : Type} {as as' bs bs' : List α} (ha : as.Sublist as')
    (hb : bs.Sublist bs') : as ++ bs = as' ++ bs' ↔ as = as' ∧ bs = bs' := by
  constructor
  · intro h
    have hl := congrArg List.length h
    rw [List.length_append, List.length_append] at hl
    have hla := ha.length_le
    have hlb := hb.length_le
    exact ⟨ha.eq_of_length (by omega), hb.eq_of_length (by omega)⟩
  · rintro ⟨rfl, rfl⟩
    rfl

namespace Expr

variable {looks : Expr → Bool}

/-- The receiver of the call is looked into, or has no call in it. -/
def KeepsReceiver (looks : Expr → Bool) : Expr → Prop
  | .call receiver method args span =>
    looks (.call receiver method args span) = true ∨ receiver.containsCall = false
  | _ => True

theorem callsBy_unparenthesized (e : Expr) : e.unparenthesized.callsBy looks = e.callsBy looks := by
  fun_induction unparenthesized e with
  | case1 e _ ih => rw [ih, callsBy]
  | case2 => rfl

mutual
/-- There are call expressions exactly where a call stands in the text. -/
theorem callsBy_eq_nil_iff : ∀ e : Expr, e.callsBy looks = [] ↔ e.containsCall = false
  | .call .. => by simp [callsBy, containsCall]
  | .binary _ left right _ => by
    rw [callsBy, containsCall, List.append_eq_nil_iff, Bool.or_eq_false_iff,
      callsBy_eq_nil_iff left, callsBy_eq_nil_iff right]
  | .not operand _ => by rw [callsBy, containsCall, callsBy_eq_nil_iff operand]
  | .arrayLit elements _ => by rw [callsBy, containsCall, callsByAll_eq_nil_iff elements]
  | .index array place _ => by
    rw [callsBy, containsCall, List.append_eq_nil_iff, Bool.or_eq_false_iff,
      callsBy_eq_nil_iff array, callsBy_eq_nil_iff place]
  | .newArray _ length _ => by rw [callsBy, containsCall, callsBy_eq_nil_iff length]
  | .member object _ _ => by rw [callsBy, containsCall, callsBy_eq_nil_iff object]
  | .paren inner _ => by rw [callsBy, containsCall, callsBy_eq_nil_iff inner]
  | .intLit .. | .boolLit .. | .ident .. | .self _ | .newObject .. => by
    rw [callsBy, containsCall]
    exact ⟨fun _ => rfl, fun _ => rfl⟩
theorem callsByAll_eq_nil_iff : ∀ es : List Expr, callsByAll looks es = [] ↔ anyContainsCall es = false
  | [] => by rw [callsByAll, anyContainsCall]; exact ⟨fun _ => rfl, fun _ => rfl⟩
  | e :: es => by
    rw [callsByAll, anyContainsCall, List.append_eq_nil_iff, Bool.or_eq_false_iff,
      callsBy_eq_nil_iff e, callsByAll_eq_nil_iff es]
end

mutual
/-- No call expression is added, and their order stays. -/
theorem callsBy_sublist : ∀ e : Expr, (e.callsBy looks).Sublist (e.callsBy fun _ => true)
  | .call receiver method args span => by
    rw [callsBy, callsBy, if_pos rfl]
    refine .append (.append ?_ (callsByAll_sublist args)) (.refl _)
    split
    · exact callsBy_sublist receiver
    · exact List.nil_sublist _
  | .binary _ left right _ => by
    rw [callsBy, callsBy]
    exact .append (callsBy_sublist left) (callsBy_sublist right)
  | .not operand _ => by rw [callsBy, callsBy]; exact callsBy_sublist operand
  | .arrayLit elements _ => by rw [callsBy, callsBy]; exact callsByAll_sublist elements
  | .index array place _ => by
    rw [callsBy, callsBy]
    exact .append (callsBy_sublist array) (callsBy_sublist place)
  | .newArray _ length _ => by rw [callsBy, callsBy]; exact callsBy_sublist length
  | .member object _ _ => by rw [callsBy, callsBy]; exact callsBy_sublist object
  | .paren inner _ => by rw [callsBy, callsBy]; exact callsBy_sublist inner
  | .intLit .. | .boolLit .. | .ident .. | .self _ | .newObject .. => by
    rw [callsBy]
    exact List.nil_sublist _
theorem callsByAll_sublist : ∀ es : List Expr,
    (callsByAll looks es).Sublist (callsByAll (fun _ => true) es)
  | [] => by rw [callsByAll]; exact List.nil_sublist _
  | e :: es => by
    rw [callsByAll, callsByAll]
    exact .append (callsBy_sublist e) (callsByAll_sublist es)
end

mutual
/-- No call expression is lost exactly if every receiver that has a call in it is looked into. -/
theorem callsBy_eq_calls_iff : ∀ e : Expr,
    (e.callsBy looks = e.callsBy fun _ => true) ↔ ∀ n ∈ e.nodes, n.KeepsReceiver looks
  | .call receiver method args span => by
    have hargs := callsByAll_eq_iff args
    have hreceiver := callsBy_eq_calls_iff receiver
    rw [callsBy, callsBy, if_pos rfl, nodes, List.forall_mem_cons, List.forall_mem_append,
      ← hargs]
    cases hl : looks (.call receiver method args span) with
    | true =>
      rw [if_pos rfl, append_eq_append_of_sublist (.append (callsBy_sublist receiver)
        (callsByAll_sublist args)) (.refl _), append_eq_append_of_sublist (callsBy_sublist receiver)
        (callsByAll_sublist args), hreceiver]
      exact ⟨fun h => ⟨.inl hl, h.1⟩, fun h => ⟨h.2, rfl⟩⟩
    | false =>
      rw [if_neg Bool.false_ne_true, append_eq_append_of_sublist (.append (List.nil_sublist _)
        (callsByAll_sublist args)) (.refl _), append_eq_append_of_sublist (List.nil_sublist _)
        (callsByAll_sublist args), eq_comm, callsBy_eq_nil_iff]
      constructor
      · rintro ⟨⟨hr, ha⟩, -⟩
        refine ⟨.inr hr, hreceiver.mp ?_, ha⟩
        rw [(callsBy_eq_nil_iff receiver).mpr hr, (callsBy_eq_nil_iff receiver).mpr hr]
      · rintro ⟨hr | hr, -, ha⟩
        · rw [hl] at hr
          cases hr
        · exact ⟨⟨hr, ha⟩, rfl⟩
  | .binary op left right span => by
    rw [callsBy, callsBy, nodes, List.forall_mem_cons, List.forall_mem_append,
      append_eq_append_of_sublist (callsBy_sublist left) (callsBy_sublist right),
      ← callsBy_eq_calls_iff left, ← callsBy_eq_calls_iff right]
    exact Iff.symm (and_iff_right trivial)
  | .not operand span => by
    rw [callsBy, callsBy, nodes, List.forall_mem_cons, ← callsBy_eq_calls_iff operand]
    exact Iff.symm (and_iff_right trivial)
  | .arrayLit elements span => by
    rw [callsBy, callsBy, nodes, List.forall_mem_cons, ← callsByAll_eq_iff elements]
    exact Iff.symm (and_iff_right trivial)
  | .index array place span => by
    rw [callsBy, callsBy, nodes, List.forall_mem_cons, List.forall_mem_append,
      append_eq_append_of_sublist (callsBy_sublist array) (callsBy_sublist place),
      ← callsBy_eq_calls_iff array, ← callsBy_eq_calls_iff place]
    exact Iff.symm (and_iff_right trivial)
  | .newArray element length span => by
    rw [callsBy, callsBy, nodes, List.forall_mem_cons, ← callsBy_eq_calls_iff length]
    exact Iff.symm (and_iff_right trivial)
  | .member object property span => by
    rw [callsBy, callsBy, nodes, List.forall_mem_cons, ← callsBy_eq_calls_iff object]
    exact Iff.symm (and_iff_right trivial)
  | .paren inner span => by
    rw [callsBy, callsBy, nodes, List.forall_mem_cons, ← callsBy_eq_calls_iff inner]
    exact Iff.symm (and_iff_right trivial)
  | .intLit .. | .boolLit .. | .ident .. | .self _ | .newObject .. => by
    simp [callsBy, nodes, KeepsReceiver]
theorem callsByAll_eq_iff : ∀ es : List Expr,
    callsByAll looks es = callsByAll (fun _ => true) es ↔ ∀ n ∈ nodesAll es, n.KeepsReceiver looks
  | [] => by simp [callsByAll, nodesAll]
  | e :: es => by
    rw [callsByAll, callsByAll, nodesAll, List.forall_mem_append,
      append_eq_append_of_sublist (callsBy_sublist e) (callsByAll_sublist es),
      ← callsBy_eq_calls_iff e, ← callsByAll_eq_iff es]
end

end Expr

namespace Stmt

variable {looks : Expr → Bool}

mutual
theorem callsBy_sublist : ∀ stmt : Stmt, (stmt.callsBy looks).Sublist (stmt.callsBy fun _ => true)
  | .block body _ => by rw [callsBy, callsBy]; exact callsByAll_sublist body
  | .branch condition thenBranch none _ => by
    rw [callsBy, callsBy]
    exact .append condition.callsBy_sublist (callsBy_sublist thenBranch)
  | .branch condition thenBranch (some elseBranch) _ => by
    rw [callsBy, callsBy]
    exact .append condition.callsBy_sublist
      (.append (callsBy_sublist elseBranch) (callsBy_sublist thenBranch))
  | .loop condition body _ => by
    rw [callsBy, callsBy]
    exact .append condition.callsBy_sublist (callsBy_sublist body)
  | .expr e _ => by rw [callsBy, callsBy]; exact e.callsBy_sublist
  | .assign _ value _ => by rw [callsBy, callsBy]; exact value.callsBy_sublist
  | .assignElement _ index value _ => by
    rw [callsBy, callsBy]
    exact .append index.callsBy_sublist value.callsBy_sublist
  | .ret none _ => by rw [callsBy]; exact List.nil_sublist _
  | .ret (some value) _ => by rw [callsBy, callsBy]; exact value.callsBy_sublist
theorem callsByAll_sublist : ∀ body : List Stmt,
    (callsByAll looks body).Sublist (callsByAll (fun _ => true) body)
  | [] => by rw [callsByAll]; exact List.nil_sublist _
  | stmt :: rest => by
    rw [callsByAll, callsByAll]
    exact .append (callsBy_sublist stmt) (callsByAll_sublist rest)
end

mutual
/-- No call expression of a statement is lost exactly if every receiver in it that has a call in it
is looked into. -/
theorem callsBy_eq_calls_iff : ∀ stmt : Stmt,
    (stmt.callsBy looks = stmt.callsBy fun _ => true) ↔
      ∀ inner ∈ stmt.nodes, ∀ n ∈ Expr.nodesAll inner.expressions, n.KeepsReceiver looks
  | .block body _ => by
    rw [callsBy, callsBy, nodes, List.forall_mem_cons, callsByAll_eq_iff body]
    exact Iff.symm (and_iff_right (by simp [expressions, Expr.nodesAll]))
  | .branch condition thenBranch none _ => by
    rw [callsBy, callsBy, nodes, List.forall_mem_cons,
      append_eq_append_of_sublist condition.callsBy_sublist (callsBy_sublist thenBranch),
      callsBy_eq_calls_iff thenBranch, expressions, ← Expr.callsByAll_eq_iff, Expr.callsByAll,
      Expr.callsByAll]
    simp [Expr.callsByAll]
  | .branch condition thenBranch (some elseBranch) _ => by
    rw [callsBy, callsBy, nodes, List.forall_mem_cons, List.forall_mem_append,
      append_eq_append_of_sublist condition.callsBy_sublist
        (.append (callsBy_sublist elseBranch) (callsBy_sublist thenBranch)),
      append_eq_append_of_sublist (callsBy_sublist elseBranch) (callsBy_sublist thenBranch),
      callsBy_eq_calls_iff thenBranch, callsBy_eq_calls_iff elseBranch, expressions,
      ← Expr.callsByAll_eq_iff, Expr.callsByAll, Expr.callsByAll]
    simp only [Expr.callsByAll, List.append_nil]
    exact and_congr_right fun _ => and_comm
  | .loop condition body _ => by
    rw [callsBy, callsBy, nodes, List.forall_mem_cons,
      append_eq_append_of_sublist condition.callsBy_sublist (callsBy_sublist body),
      callsBy_eq_calls_iff body, expressions, ← Expr.callsByAll_eq_iff, Expr.callsByAll,
      Expr.callsByAll]
    simp [Expr.callsByAll]
  | .expr e _ => by
    rw [callsBy, callsBy, Expr.callsBy_eq_calls_iff]
    simp [nodes, expressions, Expr.nodesAll]
  | .assign _ value _ => by
    rw [callsBy, callsBy, Expr.callsBy_eq_calls_iff]
    simp [nodes, expressions, Expr.nodesAll]
  | .assignElement _ index value _ => by
    rw [callsBy, callsBy, append_eq_append_of_sublist index.callsBy_sublist value.callsBy_sublist,
      Expr.callsBy_eq_calls_iff, Expr.callsBy_eq_calls_iff, ← List.forall_mem_append]
    simp [nodes, expressions, Expr.nodesAll]
  | .ret none _ => by
    rw [callsBy, callsBy]
    simp [nodes, expressions, Expr.nodesAll]
  | .ret (some value) _ => by
    rw [callsBy, callsBy, Expr.callsBy_eq_calls_iff]
    simp [nodes, expressions, Expr.nodesAll]
theorem callsByAll_eq_iff : ∀ body : List Stmt,
    (callsByAll looks body = callsByAll (fun _ => true) body) ↔
      ∀ inner ∈ nodesAll body, ∀ n ∈ Expr.nodesAll inner.expressions, n.KeepsReceiver looks
  | [] => by simp [callsByAll, nodesAll]
  | stmt :: rest => by
    rw [callsByAll, callsByAll, nodesAll, List.forall_mem_append,
      append_eq_append_of_sublist (callsBy_sublist stmt) (callsByAll_sublist rest),
      callsBy_eq_calls_iff stmt, callsByAll_eq_iff rest]
end

end Stmt

end JavaMinus
