import JavaMinus.Binding
import JavaMinus.Syntax.Walk

/-!
# Programs with other names for variables

A renaming is a function on names. It replaces the identifiers and the targets of assignments in a
body, and the names that a method declares; what a method calls, the properties it reads and the
classes it allocates keep their names. Nothing else of a program changes, its spans included.

What a body means by a name that it does not declare must not change, so a renaming of the variables of
a method is applied to these alone (`MethodDecl.renameVariables`).
-/

namespace JavaMinus

/-! ## Expressions -/

namespace Expr

mutual
/-- An expression with other identifiers. -/
def rename (f : String → String) : Expr → Expr
  | .intLit v s => .intLit v s
  | .boolLit v s => .boolLit v s
  | .ident x s => .ident (f x) s
  | .self s => .self s
  | .binary op l r s => .binary op (l.rename f) (r.rename f) s
  | .not e s => .not (e.rename f) s
  | .arrayLit es s => .arrayLit (renameAll f es) s
  | .index a i s => .index (a.rename f) (i.rename f) s
  | .newArray t n s => .newArray t (n.rename f) s
  | .newObject c s => .newObject c s
  | .member e p s => .member (e.rename f) p s
  | .call r m as s => .call (r.rename f) m (renameAll f as) s
  | .paren e s => .paren (e.rename f) s
/-- Expressions with other identifiers. -/
def renameAll (f : String → String) : List Expr → List Expr
  | [] => []
  | e :: es => e.rename f :: renameAll f es
end

mutual
/-- The identifiers in an expression. -/
def names : Expr → List String
  | .intLit .. | .boolLit .. | .self _ | .newObject .. => []
  | .ident x _ => [x]
  | .binary _ l r _ => l.names ++ r.names
  | .not e _ => e.names
  | .arrayLit es _ => namesAll es
  | .index a i _ => a.names ++ i.names
  | .newArray _ n _ => n.names
  | .member e _ _ => e.names
  | .call r _ as _ => r.names ++ namesAll as
  | .paren e _ => e.names
/-- The identifiers in several expressions. -/
def namesAll : List Expr → List String
  | [] => []
  | e :: es => e.names ++ namesAll es
end

variable {f g : String → String}

theorem renameAll_eq_map (es : List Expr) : renameAll f es = es.map (rename f) := by
  induction es with
  | nil => rfl
  | cons e es ih => rw [renameAll, ih, List.map_cons]

@[simp] theorem length_renameAll (es : List Expr) : (renameAll f es).length = es.length := by
  rw [renameAll_eq_map, List.length_map]

@[simp] theorem span_rename (e : Expr) : (e.rename f).span = e.span := by
  cases e <;> rfl

@[simp] theorem map_span_renameAll (es : List Expr) :
    (renameAll f es).map span = es.map span := by
  rw [renameAll_eq_map, List.map_map]
  exact List.map_congr_left fun e _ => e.span_rename

@[simp] theorem unparenthesized_rename : ∀ e : Expr,
    (e.rename f).unparenthesized = e.unparenthesized.rename f
  | .paren e _ => unparenthesized_rename e
  | .intLit .. | .boolLit .. | .ident .. | .self _ | .binary .. | .not .. | .arrayLit ..
  | .index .. | .newArray .. | .newObject .. | .member .. | .call .. => rfl

theorem names_unparenthesized : ∀ e : Expr, e.unparenthesized.names = e.names
  | .paren e _ => names_unparenthesized e
  | .intLit .. | .boolLit .. | .ident .. | .self _ | .binary .. | .not .. | .arrayLit ..
  | .index .. | .newArray .. | .newObject .. | .member .. | .call .. => rfl

@[simp] theorem isCall_rename (e : Expr) : (e.rename f).isCall = e.isCall := by
  rw [isCall, isCall, unparenthesized_rename]
  cases e.unparenthesized <;> rfl

@[simp] theorem isIntLiteral_rename (e : Expr) : (e.rename f).isIntLiteral = e.isIntLiteral := by
  rw [isIntLiteral, isIntLiteral, unparenthesized_rename]
  cases e.unparenthesized <;> rfl

mutual
theorem rename_id : ∀ e : Expr, e.rename id = e
  | .intLit .. | .boolLit .. | .ident .. | .self _ | .newObject .. => rfl
  | .binary _ l r _ => by rw [rename, rename_id l, rename_id r]
  | .not e _ | .newArray _ e _ | .member e _ _ | .paren e _ => by rw [rename, rename_id e]
  | .arrayLit es _ => by rw [rename, renameAll_id es]
  | .index a i _ => by rw [rename, rename_id a, rename_id i]
  | .call r _ as _ => by rw [rename, rename_id r, renameAll_id as]
theorem renameAll_id : ∀ es : List Expr, renameAll id es = es
  | [] => rfl
  | e :: es => by rw [renameAll, rename_id e, renameAll_id es]
end

mutual
/-- Only the identifiers in an expression matter for a renaming of it. -/
theorem rename_congr : ∀ e : Expr, (∀ x ∈ e.names, f x = g x) → e.rename f = e.rename g
  | .intLit .. | .boolLit .. | .self _ | .newObject .. => fun _ => rfl
  | .ident x _ => fun h => by rw [rename, rename, h x List.mem_cons_self]
  | .binary _ l r _ | .index l r _ => fun h => by
    obtain ⟨hl, hr⟩ := List.forall_mem_append.mp h
    rw [rename, rename, rename_congr l hl, rename_congr r hr]
  | .not e _ | .newArray _ e _ | .member e _ _ | .paren e _ => fun h => by
    rw [rename, rename, rename_congr e h]
  | .arrayLit es _ => fun h => by rw [rename, rename, renameAll_congr es h]
  | .call r _ as _ => fun h => by
    obtain ⟨hr, has⟩ := List.forall_mem_append.mp h
    rw [rename, rename, rename_congr r hr, renameAll_congr as has]
theorem renameAll_congr : ∀ es : List Expr, (∀ x ∈ namesAll es, f x = g x) →
    renameAll f es = renameAll g es
  | [] => fun _ => rfl
  | e :: es => fun h => by
    obtain ⟨he, hes⟩ := List.forall_mem_append.mp h
    rw [renameAll, renameAll, rename_congr e he, renameAll_congr es hes]
end

end Expr

/-! ## Statements -/

namespace Stmt

mutual
/-- A statement with other identifiers and assignment targets. -/
def rename (f : String → String) : Stmt → Stmt
  | .block ss s => .block (renameAll f ss) s
  | .branch c t none s => .branch (c.rename f) (t.rename f) none s
  | .branch c t (some e) s => .branch (c.rename f) (t.rename f) (some (e.rename f)) s
  | .loop c b s => .loop (c.rename f) (b.rename f) s
  | .expr e s => .expr (e.rename f) s
  | .assign x v s => .assign (f x) (v.rename f) s
  | .assignElement x i v s => .assignElement (f x) (i.rename f) (v.rename f) s
  | .ret v s => .ret (v.map (Expr.rename f)) s
/-- Statements with other identifiers and assignment targets. -/
def renameAll (f : String → String) : List Stmt → List Stmt
  | [] => []
  | s :: ss => s.rename f :: renameAll f ss
end

mutual
/-- The identifiers and assignment targets in a statement. -/
def names : Stmt → List String
  | .block ss _ => namesAll ss
  | .branch c t none _ => c.names ++ t.names
  | .branch c t (some e) _ => c.names ++ (t.names ++ e.names)
  | .loop c b _ => c.names ++ b.names
  | .expr e _ => e.names
  | .assign x v _ => x :: v.names
  | .assignElement x i v _ => x :: (i.names ++ v.names)
  | .ret v _ => Expr.namesAll v.toList
/-- The identifiers and assignment targets in several statements. -/
def namesAll : List Stmt → List String
  | [] => []
  | s :: ss => s.names ++ namesAll ss
end

variable {f g : String → String}

@[simp] theorem isReturn_rename (s : Stmt) : (s.rename f).isReturn = s.isReturn := by
  cases s with
  | branch _ _ e _ => cases e <;> rfl
  | _ => rfl

theorem renameAll_eq_map (ss : List Stmt) : renameAll f ss = ss.map (rename f) := by
  induction ss with
  | nil => rfl
  | cons s ss ih => rw [renameAll, ih, List.map_cons]

mutual
theorem nodes_rename : ∀ s : Stmt, (s.rename f).nodes = s.nodes.map (rename f)
  | .block ss _ => by rw [rename, nodes, nodes, nodesAll_renameAll ss, List.map_cons, rename]
  | .branch c t none _ => by rw [rename, nodes, nodes, nodes_rename t, List.map_cons, rename]
  | .branch c t (some e) _ => by
    rw [rename, nodes, nodes, nodes_rename t, nodes_rename e, List.map_cons, List.map_append, rename]
  | .loop c b _ => by rw [rename, nodes, nodes, nodes_rename b, List.map_cons, rename]
  | .expr .. | .assign .. | .assignElement .. | .ret .. => by rw [rename, nodes, nodes]; rfl
theorem nodesAll_renameAll : ∀ ss : List Stmt,
    nodesAll (renameAll f ss) = (nodesAll ss).map (rename f)
  | [] => rfl
  | s :: ss => by
    rw [renameAll, nodesAll, nodesAll, nodes_rename s, nodesAll_renameAll ss, List.map_append]
end

@[simp] theorem returnCount_renameAll (ss : List Stmt) :
    returnCount (renameAll f ss) = returnCount ss := by
  rw [returnCount, nodesAll_renameAll, List.countP_map]
  exact congrArg (fun p => (nodesAll ss).countP p) (funext isReturn_rename)

mutual
theorem rename_id : ∀ s : Stmt, s.rename id = s
  | .block ss _ => by rw [rename, renameAll_id ss]
  | .branch c t none _ => by rw [rename, c.rename_id, rename_id t]
  | .branch c t (some e) _ => by rw [rename, c.rename_id, rename_id t, rename_id e]
  | .loop c b _ => by rw [rename, c.rename_id, rename_id b]
  | .expr e _ => by rw [rename, e.rename_id]
  | .assign _ v _ => by rw [rename, v.rename_id, id]
  | .assignElement _ i v _ => by rw [rename, i.rename_id, v.rename_id, id]
  | .ret none _ => rfl
  | .ret (some v) _ => by rw [rename, Option.map_some, v.rename_id]
theorem renameAll_id : ∀ ss : List Stmt, renameAll id ss = ss
  | [] => rfl
  | s :: ss => by rw [renameAll, rename_id s, renameAll_id ss]
end

mutual
theorem rename_congr : ∀ s : Stmt, (∀ x ∈ s.names, f x = g x) → s.rename f = s.rename g
  | .block ss _ => fun h => by rw [rename, rename, renameAll_congr ss h]
  | .branch c t none _ => fun h => by
    obtain ⟨hc, ht⟩ := List.forall_mem_append.mp h
    rw [rename, rename, c.rename_congr hc, rename_congr t ht]
  | .branch c t (some e) _ => fun h => by
    obtain ⟨hc, h⟩ := List.forall_mem_append.mp h
    obtain ⟨ht, he⟩ := List.forall_mem_append.mp h
    rw [rename, rename, c.rename_congr hc, rename_congr t ht, rename_congr e he]
  | .loop c b _ => fun h => by
    obtain ⟨hc, hb⟩ := List.forall_mem_append.mp h
    rw [rename, rename, c.rename_congr hc, rename_congr b hb]
  | .expr e _ => fun h => by rw [rename, rename, e.rename_congr h]
  | .assign x v _ => fun h => by
    obtain ⟨hx, hv⟩ := List.forall_mem_cons.mp h
    rw [rename, rename, hx, v.rename_congr hv]
  | .assignElement x i v _ => fun h => by
    obtain ⟨hx, h⟩ := List.forall_mem_cons.mp h
    obtain ⟨hi, hv⟩ := List.forall_mem_append.mp h
    rw [rename, rename, hx, i.rename_congr hi, v.rename_congr hv]
  | .ret none _ => fun _ => rfl
  | .ret (some v) _ => fun h => by
    obtain ⟨hv, -⟩ := List.forall_mem_append.mp h
    rw [rename, rename, Option.map_some, Option.map_some, v.rename_congr hv]
theorem renameAll_congr : ∀ ss : List Stmt, (∀ x ∈ namesAll ss, f x = g x) →
    renameAll f ss = renameAll g ss
  | [] => fun _ => rfl
  | s :: ss => fun h => by
    obtain ⟨hs, hss⟩ := List.forall_mem_append.mp h
    rw [renameAll, renameAll, rename_congr s hs, renameAll_congr ss hss]
end

end Stmt

/-! ## Declarations -/

def VarDecl.rename (f : String → String) (d : VarDecl) : VarDecl := { d with name := f d.name }

def Symbol.rename (f : String → String) (s : Symbol) : Symbol := { s with name := f s.name }

/-- The names of the parameters and locals. -/
def MethodDecl.variables (m : MethodDecl) : List String := (m.params ++ m.locals).map VarDecl.name

/-- The names that a method declares or mentions in its body. -/
def MethodDecl.names (m : MethodDecl) : List String := m.variables ++ Stmt.namesAll m.body

/-- A method with other names for whatever it declares or mentions. -/
def MethodDecl.rename (f : String → String) (m : MethodDecl) : MethodDecl where
  name := m.name
  isPublic := m.isPublic
  isStatic := m.isStatic
  returnType := m.returnType
  params := m.params.map (VarDecl.rename f)
  locals := m.locals.map (VarDecl.rename f)
  body := Stmt.renameAll f m.body
  span := m.span

/-- A method with other names for its parameters and locals. -/
def MethodDecl.renameVariables (f : String → String) (m : MethodDecl) : MethodDecl :=
  m.rename fun x => if x ∈ m.variables then f x else x

/-- A signature with other names for the parameters and locals. -/
def Signature.rename (f : String → String) (m : Signature) : Signature where
  name := m.name
  returnType := m.returnType
  parameters := m.parameters.map (Symbol.rename f)
  locals := m.locals.map (Symbol.rename f)
  isStatic := m.isStatic
  isPublic := m.isPublic

namespace MethodDecl

variable {f g : String → String} {m : MethodDecl}

theorem signature_rename (f : String → String) (m : MethodDecl) :
    (m.rename f).signature = m.signature.rename f := by
  have symbols (ds : List VarDecl) : (ds.map (VarDecl.rename f)).map VarDecl.symbol =
      (ds.map VarDecl.symbol).map (Symbol.rename f) := by
    rw [List.map_map, List.map_map]
    rfl
  rw [signature, rename, symbols, symbols]
  rfl

theorem map_name_rename (ds : List VarDecl) :
    (ds.map (VarDecl.rename f)).map VarDecl.name = (ds.map VarDecl.name).map f := by
  rw [List.map_map, List.map_map]
  rfl

theorem rename_id (m : MethodDecl) : m.rename id = m := by
  have same (ds : List VarDecl) : ds.map (VarDecl.rename id) = ds := List.map_id ds
  rw [rename, same, same, Stmt.renameAll_id]

/-- Only the names in a method matter for a renaming of it. -/
theorem rename_congr (h : ∀ x ∈ m.names, f x = g x) : m.rename f = m.rename g := by
  obtain ⟨hvars, hbody⟩ := List.forall_mem_append.mp h
  have same (ds : List VarDecl) (hds : ∀ x ∈ ds.map VarDecl.name, f x = g x) :
      ds.map (VarDecl.rename f) = ds.map (VarDecl.rename g) :=
    List.map_congr_left fun d hd => by
      rw [VarDecl.rename, VarDecl.rename, hds _ (List.mem_map_of_mem hd)]
  unfold MethodDecl.variables at hvars
  rw [List.map_append] at hvars
  obtain ⟨hparams, hlocals⟩ := List.forall_mem_append.mp hvars
  rw [rename, rename, same m.params hparams, same m.locals hlocals, Stmt.renameAll_congr _ hbody]

end MethodDecl

end JavaMinus
