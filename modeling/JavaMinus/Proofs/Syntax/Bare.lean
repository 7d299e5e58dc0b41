import JavaMinus.Binding
import JavaMinus.Syntax.Walk

/-!
# Programs without parentheses and spans

What is left of a program when every parenthesis is replaced by what it encloses and every span by
the empty one. Two programs that leave the same differ only in how they were written down.

Nothing that scoping and lowering ask of the shape of an expression is lost: whether it is a call or a
literal, and what stands inside its parentheses (`unparenthesized_bare`).
-/

namespace JavaMinus

/-- A written type without its place. -/
def TypeRef.bare (a : TypeRef) : TypeRef := { a with span := {} }

@[simp] theorem TypeRef.ty_bare (a : TypeRef) : a.bare.ty = a.ty := rfl

/-! ## Expressions -/

namespace Expr

mutual
/-- An expression without parentheses and spans. -/
def bare : Expr → Expr
  | .intLit v _ => .intLit v {}
  | .boolLit v _ => .boolLit v {}
  | .ident n _ => .ident n {}
  | .self _ => .self {}
  | .binary op l r _ => .binary op l.bare r.bare {}
  | .not e _ => .not e.bare {}
  | .arrayLit es _ => .arrayLit (bareAll es) {}
  | .index a i _ => .index a.bare i.bare {}
  | .newArray t n _ => .newArray t.bare n.bare {}
  | .newObject c _ => .newObject c {}
  | .member e p _ => .member e.bare p {}
  | .call r m as _ => .call r.bare m (bareAll as) {}
  | .paren e _ => e.bare
/-- Expressions without parentheses and spans. -/
def bareAll : List Expr → List Expr
  | [] => []
  | e :: es => e.bare :: bareAll es
end

theorem bareAll_eq_map (es : List Expr) : bareAll es = es.map bare := by
  induction es with
  | nil => rfl
  | cons e es ih => rw [bareAll, ih, List.map_cons]

@[simp] theorem length_bareAll (es : List Expr) : (bareAll es).length = es.length := by
  rw [bareAll_eq_map, List.length_map]

@[simp] theorem span_bare : ∀ e : Expr, e.bare.span = {}
  | .paren e _ => span_bare e
  | .intLit .. | .boolLit .. | .ident .. | .self _ | .binary .. | .not .. | .arrayLit ..
  | .index .. | .newArray .. | .newObject .. | .member .. | .call .. => rfl

/-- There are no parentheses left to look through. -/
@[simp] theorem unparenthesized_bare : ∀ e : Expr, e.bare.unparenthesized = e.bare
  | .paren e _ => unparenthesized_bare e
  | .intLit .. | .boolLit .. | .ident .. | .self _ | .binary .. | .not .. | .arrayLit ..
  | .index .. | .newArray .. | .newObject .. | .member .. | .call .. => rfl

@[simp] theorem isCall_bare : ∀ e : Expr, e.bare.isCall = e.isCall
  | .paren e _ => isCall_bare e
  | .intLit .. | .boolLit .. | .ident .. | .self _ | .binary .. | .not .. | .arrayLit ..
  | .index .. | .newArray .. | .newObject .. | .member .. | .call .. => rfl

@[simp] theorem isIntLiteral_bare : ∀ e : Expr, e.bare.isIntLiteral = e.isIntLiteral
  | .paren e _ => isIntLiteral_bare e
  | .intLit .. | .boolLit .. | .ident .. | .self _ | .binary .. | .not .. | .arrayLit ..
  | .index .. | .newArray .. | .newObject .. | .member .. | .call .. => rfl

end Expr

/-! ## Statements -/

namespace Stmt

mutual
/-- A statement without parentheses and spans. -/
def bare : Stmt → Stmt
  | .block ss _ => .block (bareAll ss) {}
  | .branch c t none _ => .branch c.bare t.bare none {}
  | .branch c t (some e) _ => .branch c.bare t.bare (some e.bare) {}
  | .loop c b _ => .loop c.bare b.bare {}
  | .expr e _ => .expr e.bare {}
  | .assign x v _ => .assign x v.bare {}
  | .assignElement x i v _ => .assignElement x i.bare v.bare {}
  | .ret v _ => .ret (v.map Expr.bare) {}
/-- Statements without parentheses and spans. -/
def bareAll : List Stmt → List Stmt
  | [] => []
  | s :: ss => s.bare :: bareAll ss
end

theorem bareAll_eq_map (ss : List Stmt) : bareAll ss = ss.map bare := by
  induction ss with
  | nil => rfl
  | cons s ss ih => rw [bareAll, ih, List.map_cons]

@[simp] theorem span_bare (s : Stmt) : s.bare.span = {} := by
  cases s with
  | branch _ _ e _ => cases e <;> rfl
  | _ => rfl

@[simp] theorem isReturn_bare (s : Stmt) : s.bare.isReturn = s.isReturn := by
  cases s with
  | branch _ _ e _ => cases e <;> rfl
  | _ => rfl

mutual
theorem nodes_bare : ∀ s : Stmt, s.bare.nodes = s.nodes.map bare
  | .block ss _ => by rw [bare, nodes, nodes, nodesAll_bareAll ss, List.map_cons, bare]
  | .branch c t none _ => by rw [bare, nodes, nodes, nodes_bare t, List.map_cons, bare]
  | .branch c t (some e) _ => by
    rw [bare, nodes, nodes, nodes_bare t, nodes_bare e, List.map_cons, List.map_append, bare]
  | .loop c b _ => by rw [bare, nodes, nodes, nodes_bare b, List.map_cons, bare]
  | .expr .. | .assign .. | .assignElement .. | .ret .. => by rw [bare, nodes, nodes]; rfl
theorem nodesAll_bareAll : ∀ ss : List Stmt, nodesAll (bareAll ss) = (nodesAll ss).map bare
  | [] => rfl
  | s :: ss => by
    rw [bareAll, nodesAll, nodesAll, nodes_bare s, nodesAll_bareAll ss, List.map_append]
end

@[simp] theorem returnCount_bareAll (ss : List Stmt) : returnCount (bareAll ss) = returnCount ss := by
  rw [returnCount, nodesAll_bareAll, List.countP_map]
  exact congrArg (fun f => (nodesAll ss).countP f) (funext isReturn_bare)

end Stmt

/-! ## Declarations -/

/-- A declaration without spans. -/
def VarDecl.bare (d : VarDecl) : VarDecl := { d with typeRef := d.typeRef.bare, span := {} }

/-- A method without parentheses and spans. -/
def MethodDecl.bare (m : MethodDecl) : MethodDecl where
  name := m.name
  isPublic := m.isPublic
  isStatic := m.isStatic
  returnType := m.returnType.bare
  params := m.params.map VarDecl.bare
  locals := m.locals.map VarDecl.bare
  body := Stmt.bareAll m.body

/-- A class without parentheses and spans. -/
def ClassDecl.bare (c : ClassDecl) : ClassDecl where
  name := c.name
  superClass := c.superClass
  fields := c.fields.map VarDecl.bare
  methods := c.methods.map MethodDecl.bare

/-- An import without its span. -/
def Import.bare (i : Import) : Import := { i with span := {} }

/-- A program without parentheses and spans. -/
def Program.bare (p : Program) : Program where
  imports := p.imports.map Import.bare
  classDecl := p.classDecl.bare

theorem VarDecl.map_name_bare (ds : List VarDecl) :
    (ds.map bare).map VarDecl.name = ds.map VarDecl.name := by
  rw [List.map_map]
  rfl

theorem VarDecl.map_symbol_bare (ds : List VarDecl) :
    (ds.map bare).map VarDecl.symbol = ds.map VarDecl.symbol := by
  rw [List.map_map]
  rfl

@[simp] theorem MethodDecl.signature_bare (m : MethodDecl) : m.bare.signature = m.signature := by
  rw [signature, signature, bare, VarDecl.map_symbol_bare, VarDecl.map_symbol_bare]
  rfl

/-- What is declared does not depend on how it was written down. -/
@[simp] theorem Program.symbolTable_bare (p : Program) : p.bare.symbolTable = p.symbolTable := by
  have imports : p.bare.imports.map Import.qualifiedName = p.imports.map Import.qualifiedName := by
    rw [bare, List.map_map]
    rfl
  have methods : p.bare.classDecl.methods.map MethodDecl.signature =
      p.classDecl.methods.map MethodDecl.signature := by
    rw [bare, ClassDecl.bare, List.map_map]
    exact List.map_congr_left fun m _ => m.signature_bare
  rw [symbolTable, symbolTable, imports, methods, bare, ClassDecl.bare, VarDecl.map_symbol_bare]

end JavaMinus
