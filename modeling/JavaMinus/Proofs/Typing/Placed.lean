import Mathlib.Data.List.Basic
import JavaMinus.Lowering.Expr
import JavaMinus.Proofs.Lowering.Accepted

/-!
# The expressions of a program at their sites

Every expression inside an accepted expression stands at a site, and what it has a type for is that
site. `Expr.placed` lists the expressions inside an expression, each with its site, in the order of
`Expr.nodes`; a list of an accepted expression leaves none out (`Expr.placed_nodes`).

One kind of expression has no type where it stands: a receiver that names a class. All others have
one (`Expr.infer_of_mem_placed`).
-/

namespace JavaMinus

open Lower (operandSites)

variable {s : Scope}

/-- The expression is a name that no variable has. As the receiver of a call it can only name a
class. -/
def Expr.namesClass (s : Scope) (e : Expr) : Bool :=
  match e.unparenthesized with
  | .ident name _ => (s.resolve? name).isNone
  | _ => false

mutual
/-- An expression at a site and all expressions inside it, each at its own site. The parts of an
expression that has no type are left out. -/
def Expr.placed (s : Scope) (site : Site) : Expr → List (Site × Expr)
  | .intLit v p => [(site, .intLit v p)]
  | .boolLit v p => [(site, .boolLit v p)]
  | .ident n p => [(site, .ident n p)]
  | .self p => [(site, .self p)]
  | .binary op l r p => (site, .binary op l r p) ::
    match operandSites s op l r with
    | .ok (ls, rs) => l.placed s ls ++ r.placed s rs
    | .error _ => []
  | .not e p => (site, .not e p) :: e.placed s (.wanting Ty.boolean)
  | .arrayLit es p => (site, .arrayLit es p) ::
    match (Expr.arrayLit es p).infer s site with
    | .ok ty => Expr.placedAll s (fun _ => .wanting (Ty.scalar ty.name)) 0 es
    | .error _ => []
  | .index a i p => (site, .index a i p) ::
    (a.placed s .unknown ++ i.placed s (.wanting Ty.int))
  | .newArray t n p => (site, .newArray t n p) :: n.placed s (.wanting Ty.int)
  | .newObject c p => [(site, .newObject c p)]
  | .member e q p => (site, .member e q p) :: e.placed s (.wanting Ty.intArray)
  | .call r m as p => (site, .call r m as p) ::
    match r.callTarget s m p with
    | .ok target => r.placed s .unknown ++ Expr.placedAll s target.argumentSite 0 as
    | .error _ => []
  | .paren e p => (site, .paren e p) :: e.placed s site
/-- Several expressions at the sites of their positions, with all expressions inside them. -/
def Expr.placedAll (s : Scope) (sites : Nat → Site) (i : Nat) : List Expr → List (Site × Expr)
  | [] => []
  | e :: es => e.placed s (sites i) ++ Expr.placedAll s sites (i + 1) es
end

/-- The expressions that a statement holds itself, each at its site. -/
def Stmt.sites (s : Scope) : Stmt → List (Site × Expr)
  | .block .. => []
  | .branch c _ _ _ => [(.wanting Ty.boolean, c)]
  | .loop c _ _ => [(.wanting Ty.boolean, c)]
  | .expr e _ => [(.discarded, e)]
  | .assign x v _ => (s.resolve? x).toList.map fun x => (.assigned x.ty, v)
  | .assignElement x i v _ => (s.resolve? x).toList.flatMap fun x =>
    [(.wanting Ty.int, i), (.assigned (Ty.scalar x.ty.name), v)]
  | .ret v _ => v.toList.map fun e => (.returned s.returnType, e)

/-- All expressions in a statement, at any depth, each at its site. -/
def Stmt.placed (s : Scope) (stmt : Stmt) : List (Site × Expr) :=
  stmt.nodes.flatMap fun inner => (inner.sites s).flatMap fun q => q.2.placed s q.1

namespace Expr

/-- A receiver that names a class is a name behind its parentheses. -/
theorem unparenthesized_of_namesClass {e : Expr} (h : e.namesClass s = true) :
    ∃ name span, e.unparenthesized = .ident name span ∧ s.resolve? name = none := by
  unfold namesClass at h
  split at h
  · next name span he => exact ⟨name, span, he, by simpa using h⟩
  · cases h

/-- A name that no variable has is placed alone, and has no type. -/
theorem infer_of_namesClass {e : Expr} (h : e.namesClass s = true) (site : Site) :
    ∃ name span, e.infer s site = .error (.undefinedVariable name span) := by
  obtain ⟨name, span, he, hn⟩ := unparenthesized_of_namesClass h
  exact ⟨name, span, by rw [← infer_unparenthesized, he, infer, hn]⟩

/-- What is placed in a class name: the name, behind parentheses or not. -/
theorem placed_of_namesClass {e : Expr} (h : e.namesClass s = true) (site : Site) :
    (e.placed s site).map Prod.snd = e.nodes ∧ ∀ q ∈ e.placed s site, q.2.namesClass s = true := by
  match e with
  | .ident .. => exact ⟨rfl, by simp [placed, h]⟩
  | .paren inner span =>
    obtain ⟨hnodes, hall⟩ := placed_of_namesClass (e := inner) h site
    rw [placed, nodes, List.map_cons, hnodes]
    exact ⟨rfl, List.forall_mem_cons.mpr ⟨h, hall⟩⟩
  | .intLit .. | .boolLit .. | .self _ | .binary .. | .not .. | .arrayLit .. | .index .. | .newArray ..
  | .newObject .. | .member .. | .call .. => cases h

/-- The operands of an accepted operator have types at the sites that lowering gives them. -/
theorem infer_operands {op : BinaryOp} {left right : Expr} {span : Span} {site : Site} {ty : Ty}
    (h : (Expr.binary op left right span).infer s site = .ok ty) :
    ∃ ls rs l r, operandSites s op left right = .ok (ls, rs) ∧ left.infer s ls = .ok l ∧
      right.infer s rs = .ok r := by
  cases hop : op.isEquality with
  | true =>
    obtain ⟨-, l, r, -, h⟩ := parts_equality hop h
    unfold operandSites
    split at h
    · next hc =>
      obtain ⟨hr, hl⟩ := h
      rw [if_pos hop, if_pos hc, hr]
      exact ⟨_, _, l, r, rfl, hl, infer_of_unknown hr _⟩
    · next hc =>
      obtain ⟨hl, hr⟩ := h
      rw [if_pos hop, if_neg hc, hl]
      exact ⟨_, _, l, r, rfl, infer_of_unknown hl _, hr⟩
  | false =>
    obtain ⟨-, l, r, hl, hr, -⟩ := parts_binary hop h
    unfold operandSites
    rw [if_neg (by simp [hop])]
    exact ⟨_, _, l, r, rfl, hl, hr⟩

/-- The receiver of an accepted call names a class or has a type. -/
theorem infer_receiver {receiver : Expr} {method : String} {span : Span} {target : CallTarget}
    (h : receiver.callTarget s method span = .ok target) :
    receiver.namesClass s = true ∨ ∃ ty, receiver.infer s .unknown = .ok ty := by
  rcases CallTarget.cases_of_resolve h with ⟨selfSpan, hself, hstatic, -⟩ | ⟨name, nameSpan, hname, hn, -⟩ |
    ⟨ty, hty, -⟩
  · refine .inr ⟨s.table.classType, ?_⟩
    rw [← infer_unparenthesized, hself, infer, if_neg (by simp [hstatic])]
  · exact .inl (by rw [namesClass, hname]; exact hn)
  · exact .inr ⟨ty, hty⟩

/-- The elements of an accepted literal have types where its element type is wanted. -/
theorem infer_elements {elements : List Expr} {span : Span} {site : Site} {ty : Ty}
    (h : (Expr.arrayLit elements span).infer s site = .ok ty) :
    ∃ tys, inferArgs s (fun _ => .wanting (Ty.scalar ty.name)) 0 elements = .ok tys := by
  obtain ⟨element, hscalar, hplain, rfl, hitems⟩ := parts_literal h
  rw [show Ty.scalar (Ty.array element.name).name = element from Ty.scalar_name hscalar hplain]
  exact ⟨_, hitems⟩

mutual
/-- An expression with a type leaves none of its parts out, and each of them has a type where it
stands, unless it names a class. -/
theorem placed_of_infer : ∀ (e : Expr) {site : Site} {ty : Ty}, e.infer s site = .ok ty →
    (e.placed s site).map Prod.snd = e.nodes ∧ ∀ q ∈ e.placed s site,
      (∃ ty, q.2.infer s q.1 = .ok ty) ∨ q.2.namesClass s = true
  | .intLit .., site, ty, h | .boolLit .., site, ty, h | .ident .., site, ty, h
  | .self _, site, ty, h | .newObject .., site, ty, h => by
    refine ⟨rfl, ?_⟩
    simp only [placed, List.mem_singleton, forall_eq]
    exact .inl ⟨ty, h⟩
  | .binary op left right span, site, ty, h => by
    obtain ⟨ls, rs, l, r, hsites, hl, hr⟩ := infer_operands h
    obtain ⟨hln, hlp⟩ := placed_of_infer left hl
    obtain ⟨hrn, hrp⟩ := placed_of_infer right hr
    rw [placed, hsites, nodes, List.map_cons, List.map_append, hln, hrn]
    exact ⟨rfl, List.forall_mem_cons.mpr ⟨.inl ⟨ty, h⟩, List.forall_mem_append.mpr ⟨hlp, hrp⟩⟩⟩
  | .not e span, site, ty, h => by
    obtain ⟨-, t, ht, -⟩ := parts_not h
    obtain ⟨hn, hp⟩ := placed_of_infer e ht
    rw [placed, nodes, List.map_cons, hn]
    exact ⟨rfl, List.forall_mem_cons.mpr ⟨.inl ⟨ty, h⟩, hp⟩⟩
  | .arrayLit es span, site, ty, h => by
    obtain ⟨tys, htys⟩ := infer_elements h
    obtain ⟨hn, hp⟩ := placedAll_of_infer es htys
    rw [placed, h, nodes, List.map_cons, hn]
    exact ⟨rfl, List.forall_mem_cons.mpr ⟨.inl ⟨ty, h⟩, hp⟩⟩
  | .index a i span, site, ty, h => by
    obtain ⟨ta, ti, ha, -, hi, -⟩ := parts_index h
    obtain ⟨han, hap⟩ := placed_of_infer a ha
    obtain ⟨hin, hip⟩ := placed_of_infer i hi
    rw [placed, nodes, List.map_cons, List.map_append, han, hin]
    exact ⟨rfl, List.forall_mem_cons.mpr ⟨.inl ⟨ty, h⟩, List.forall_mem_append.mpr ⟨hap, hip⟩⟩⟩
  | .newArray t n span, site, ty, h => by
    obtain ⟨hnn, hnp⟩ := placed_of_infer n (infer_of_isIntLiteral (parts_newArray h).1 _)
    rw [placed, nodes, List.map_cons, hnn]
    exact ⟨rfl, List.forall_mem_cons.mpr ⟨.inl ⟨ty, h⟩, hnp⟩⟩
  | .member e property span, site, ty, h => by
    obtain ⟨-, -, a, ha, -⟩ := parts_member h
    obtain ⟨hn, hp⟩ := placed_of_infer e ha
    rw [placed, nodes, List.map_cons, hn]
    exact ⟨rfl, List.forall_mem_cons.mpr ⟨.inl ⟨ty, h⟩, hp⟩⟩
  | .call receiver method args span, site, ty, h => by
    obtain ⟨target, tys, ht, -, hargs, -, -⟩ := parts_call h
    obtain ⟨han, hap⟩ := placedAll_of_infer args hargs
    have hreceiver : (receiver.placed s .unknown).map Prod.snd = receiver.nodes ∧
        ∀ q ∈ receiver.placed s .unknown,
          (∃ ty, q.2.infer s q.1 = .ok ty) ∨ q.2.namesClass s = true := by
      rcases infer_receiver ht with hname | ⟨t, hr⟩
      · obtain ⟨hn, hp⟩ := placed_of_namesClass hname .unknown
        exact ⟨hn, fun q hq => .inr (hp q hq)⟩
      · exact placed_of_infer receiver hr
    rw [placed, ht, nodes, List.map_cons, List.map_append, hreceiver.1, han]
    exact ⟨rfl, List.forall_mem_cons.mpr ⟨.inl ⟨ty, h⟩,
      List.forall_mem_append.mpr ⟨hreceiver.2, hap⟩⟩⟩
  | .paren e span, site, ty, h => by
    obtain ⟨hn, hp⟩ := placed_of_infer e (by rw [infer] at h; exact h)
    rw [placed, nodes, List.map_cons, hn]
    exact ⟨rfl, List.forall_mem_cons.mpr ⟨.inl ⟨ty, h⟩, hp⟩⟩
theorem placedAll_of_infer : ∀ (es : List Expr) {sites : Nat → Site} {i : Nat} {tys : List Ty},
    inferArgs s sites i es = .ok tys →
    (placedAll s sites i es).map Prod.snd = nodesAll es ∧ ∀ q ∈ placedAll s sites i es,
      (∃ ty, q.2.infer s q.1 = .ok ty) ∨ q.2.namesClass s = true
  | [], _, _, _, _ => ⟨rfl, by simp [placedAll]⟩
  | e :: es, sites, i, tys, h => by
    obtain ⟨t, ts, ht, hts, -⟩ := parts_args h
    obtain ⟨hn, hp⟩ := placed_of_infer e ht
    obtain ⟨hns, hps⟩ := placedAll_of_infer es hts
    rw [placedAll, nodesAll, List.map_append, hn, hns]
    exact ⟨rfl, List.forall_mem_append.mpr ⟨hp, hps⟩⟩
end

/-- No expression inside an accepted one is left out. -/
theorem placed_nodes {e : Expr} {site : Site} {ty : Ty} (h : e.infer s site = .ok ty) :
    (e.placed s site).map Prod.snd = e.nodes :=
  (placed_of_infer e h).1

/-- An expression inside an accepted one has a type where it stands, or names a class. -/
theorem infer_of_mem_placed {e : Expr} {site : Site} {ty : Ty} (h : e.infer s site = .ok ty)
    {q : Site × Expr} (hq : q ∈ e.placed s site) :
    (∃ ty, q.2.infer s q.1 = .ok ty) ∨ q.2.namesClass s = true :=
  (placed_of_infer e h).2 q hq

theorem nodesAll_eq_flatMap (es : List Expr) : nodesAll es = es.flatMap nodes := by
  induction es with
  | nil => rfl
  | cons e es ih => rw [nodesAll, ih, List.flatMap_cons]

end Expr

/-! ## Statements -/

mutual
/-- The statements inside an accepted statement are accepted. -/
theorem Scope.checkStmt_of_mem_nodes : ∀ stmt : Stmt, s.checkStmt stmt = [] →
    ∀ inner ∈ stmt.nodes, s.checkStmt inner = []
  | .block body span, h => by
    rw [Stmt.nodes]
    refine List.forall_mem_cons.mpr ⟨h, ?_⟩
    rw [checkStmt] at h
    exact checkStmts_of_mem_nodesAll body h
  | .branch condition thenBranch none span, h => by
    rw [Stmt.nodes]
    refine List.forall_mem_cons.mpr ⟨h, ?_⟩
    rw [checkStmt] at h
    exact checkStmt_of_mem_nodes thenBranch (List.append_eq_nil_iff.mp h).2
  | .branch condition thenBranch (some elseBranch) span, h => by
    rw [Stmt.nodes]
    refine List.forall_mem_cons.mpr ⟨h, ?_⟩
    rw [checkStmt] at h
    obtain ⟨h, he⟩ := List.append_eq_nil_iff.mp h
    exact List.forall_mem_append.mpr ⟨checkStmt_of_mem_nodes thenBranch
      (List.append_eq_nil_iff.mp h).2, checkStmt_of_mem_nodes elseBranch he⟩
  | .loop condition body span, h => by
    rw [Stmt.nodes]
    refine List.forall_mem_cons.mpr ⟨h, ?_⟩
    rw [checkStmt] at h
    exact checkStmt_of_mem_nodes body (List.append_eq_nil_iff.mp h).2
  | .expr .., h | .assign .., h | .assignElement .., h | .ret .., h => by
    simpa [Stmt.nodes] using h
theorem Scope.checkStmts_of_mem_nodesAll : ∀ body : List Stmt, s.checkStmts body = [] →
    ∀ inner ∈ Stmt.nodesAll body, s.checkStmt inner = []
  | [], _ => by simp [Stmt.nodesAll]
  | stmt :: rest, h => by
    rw [checkStmts] at h
    obtain ⟨h, hrest⟩ := List.append_eq_nil_iff.mp h
    exact List.forall_mem_append.mpr ⟨checkStmt_of_mem_nodes stmt h,
      checkStmts_of_mem_nodesAll rest hrest⟩
end

namespace Stmt

/-- An accepted statement has a site for each of its own expressions, and they have types there. -/
theorem infer_sites {stmt : Stmt} (h : s.checkStmt stmt = []) :
    (stmt.sites s).map Prod.snd = stmt.expressions ∧
      ∀ q ∈ stmt.sites s, ∃ ty, q.2.infer s q.1 = .ok ty := by
  match stmt with
  | .block .. => exact ⟨rfl, by simp [sites]⟩
  | .branch condition thenBranch elseBranch span =>
    have hc : s.checkCondition condition = [] := by
      cases elseBranch with
      | none => rw [Scope.checkStmt] at h; exact (List.append_eq_nil_iff.mp h).1
      | some e =>
        rw [Scope.checkStmt] at h
        exact (List.append_eq_nil_iff.mp (List.append_eq_nil_iff.mp h).1).1
    obtain ⟨ty, hty, -⟩ := Scope.checkCondition_eq_nil hc
    exact ⟨rfl, by simpa [sites] using ⟨ty, hty⟩⟩
  | .loop condition body span =>
    rw [Scope.checkStmt] at h
    obtain ⟨ty, hty, -⟩ := Scope.checkCondition_eq_nil (List.append_eq_nil_iff.mp h).1
    exact ⟨rfl, by simpa [sites] using ⟨ty, hty⟩⟩
  | .expr e span =>
    rw [Scope.checkStmt] at h
    obtain ⟨ty, hty, -⟩ := Scope.orReport_eq_nil.mp h
    exact ⟨rfl, by simpa [sites] using ⟨ty, hty⟩⟩
  | .assign target value span =>
    rw [Scope.checkStmt] at h
    obtain ⟨_, ht, h⟩ := Scope.orReport_eq_nil.mp h
    obtain ⟨v, hv, -, rfl⟩ := Scope.targetType_eq_ok ht
    obtain ⟨ty, hty, -⟩ := Scope.checkStored_eq_nil h
    exact ⟨by simp [sites, expressions, hv], by simpa [sites, hv] using ⟨ty, hty⟩⟩
  | .assignElement target index value span =>
    rw [Scope.checkStmt] at h
    obtain ⟨v, element, actual, hv, -, hel, hi, ha, -⟩ := Scope.checkAssignElement_eq_nil h
    obtain ⟨-, rfl⟩ := Ty.element?_eq_some.mp hel
    refine ⟨by simp [sites, expressions, hv], ?_⟩
    simpa [sites, hv] using ⟨⟨_, hi⟩, ⟨_, ha⟩⟩
  | .ret none span => exact ⟨rfl, by simp [sites]⟩
  | .ret (some e) span =>
    rw [Scope.checkStmt] at h
    obtain ⟨ty, hty, -⟩ := Scope.orReport_eq_nil.mp h
    exact ⟨rfl, by simpa [sites] using ⟨ty, hty⟩⟩

/-- No expression of an accepted statement is left out. -/
theorem placed_nodes {stmt : Stmt} (h : s.checkStmt stmt = []) :
    (stmt.placed s).map Prod.snd =
      stmt.nodes.flatMap fun inner => Expr.nodesAll inner.expressions := by
  unfold placed
  rw [List.map_flatMap]
  refine List.flatMap_congr fun inner hi => ?_
  obtain ⟨hsites, htyped⟩ := infer_sites (Scope.checkStmt_of_mem_nodes stmt h inner hi)
  rw [Expr.nodesAll_eq_flatMap, ← hsites, List.flatMap_map, List.map_flatMap]
  refine List.flatMap_congr fun q hq => ?_
  obtain ⟨ty, hty⟩ := htyped q hq
  exact Expr.placed_nodes hty

/-- What is placed in an accepted statement is placed in an expression that has a type. -/
theorem exists_of_mem_placed {stmt : Stmt} (h : s.checkStmt stmt = []) {q : Site × Expr}
    (hq : q ∈ stmt.placed s) : ∃ inner ∈ stmt.nodes, ∃ x ∈ inner.sites s, ∃ ty,
      x.2.infer s x.1 = .ok ty ∧ q ∈ x.2.placed s x.1 := by
  obtain ⟨inner, hi, hq⟩ := List.mem_flatMap.mp hq
  obtain ⟨x, hx, hq⟩ := List.mem_flatMap.mp hq
  obtain ⟨ty, hty⟩ := (infer_sites (Scope.checkStmt_of_mem_nodes stmt h inner hi)).2 x hx
  exact ⟨inner, hi, x, hx, ty, hty, hq⟩

end Stmt

end JavaMinus
