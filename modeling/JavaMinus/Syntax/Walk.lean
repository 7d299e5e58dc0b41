import JavaMinus.Syntax.Program

/-!
# Walking a program

The nodes of a program in pre-order: a node comes before what it contains, and what it contains
comes in source order. The order is read off two facts of the syntax: an expression holds only
expressions, and a statement's own expressions come before the statements it contains.

Declarations other than methods are not nodes: no expression is written in them.
-/

namespace JavaMinus

mutual
/-- An expression and all expressions inside it, in pre-order. -/
def Expr.nodes : Expr → List Expr
  | .intLit v s => [.intLit v s]
  | .boolLit v s => [.boolLit v s]
  | .ident n s => [.ident n s]
  | .self s => [.self s]
  | .binary op l r s => .binary op l r s :: (l.nodes ++ r.nodes)
  | .not e s => .not e s :: e.nodes
  | .arrayLit es s => .arrayLit es s :: Expr.nodesAll es
  | .index a i s => .index a i s :: (a.nodes ++ i.nodes)
  | .newArray t n s => .newArray t n s :: n.nodes
  | .newObject c s => [.newObject c s]
  | .member e p s => .member e p s :: e.nodes
  | .call r m as s => .call r m as s :: (r.nodes ++ Expr.nodesAll as)
  | .paren e s => .paren e s :: e.nodes
/-- The nodes of several expressions, one after another. -/
def Expr.nodesAll : List Expr → List Expr
  | [] => []
  | e :: es => e.nodes ++ Expr.nodesAll es
end

/-- The expressions that a statement holds itself, in source order. -/
def Stmt.expressions : Stmt → List Expr
  | .block .. => []
  | .branch c _ _ _ => [c]
  | .loop c _ _ => [c]
  | .expr e _ => [e]
  | .assign _ v _ => [v]
  | .assignElement _ i v _ => [i, v]
  | .ret v _ => v.toList

mutual
/-- A statement and all statements inside it, in pre-order. -/
def Stmt.nodes : Stmt → List Stmt
  | .block ss s => .block ss s :: Stmt.nodesAll ss
  | .branch c t none s => .branch c t none s :: t.nodes
  | .branch c t (some e) s => .branch c t (some e) s :: (t.nodes ++ e.nodes)
  | .loop c b s => .loop c b s :: b.nodes
  | .expr e s => [.expr e s]
  | .assign x v s => [.assign x v s]
  | .assignElement x i v s => [.assignElement x i v s]
  | .ret v s => [.ret v s]
/-- The nodes of several statements, one after another. -/
def Stmt.nodesAll : List Stmt → List Stmt
  | [] => []
  | s :: ss => s.nodes ++ Stmt.nodesAll ss
end

/-- How many returns a list of statements holds, at any depth. -/
def Stmt.returnCount (body : List Stmt) : Nat := (Stmt.nodesAll body).countP Stmt.isReturn

/-- What a walk of a program meets. -/
inductive Node where
  | program (p : Program)
  | classDecl (c : ClassDecl)
  | method (m : MethodDecl)
  | stmt (s : Stmt)
  | expr (e : Expr)

/-- A statement, then the expressions it holds itself with all that is inside them. -/
def Stmt.walkOwn (s : Stmt) : List Node :=
  .stmt s :: (Expr.nodesAll s.expressions).map .expr

/-- A method, then its statements in pre-order, each followed by its own expressions. -/
def MethodDecl.walk (m : MethodDecl) : List Node :=
  .method m :: (Stmt.nodesAll m.body).flatMap Stmt.walkOwn

/-- All nodes of a program in pre-order. -/
def Program.walk (p : Program) : List Node :=
  .program p :: .classDecl p.classDecl :: p.classDecl.methods.flatMap MethodDecl.walk

/-- The expressions that statements hold themselves, in the order of the walk. -/
def Program.topExpressions (p : Program) : List Expr :=
  p.classDecl.methods.flatMap fun m => (Stmt.nodesAll m.body).flatMap Stmt.expressions

/-- A statement is the first of its own nodes. -/
theorem Stmt.mem_nodes_self (s : Stmt) : s ∈ s.nodes := by
  cases s with
  | branch _ _ e _ => cases e <;> simp [Stmt.nodes]
  | _ => simp [Stmt.nodes]

/-- An expression is the first of its own nodes. -/
theorem Expr.mem_nodes_self (e : Expr) : e ∈ e.nodes := by
  cases e <;> simp [Expr.nodes]

/-- What is inside one of several expressions is inside them. -/
theorem Expr.mem_nodesAll {e x : Expr} : ∀ {es : List Expr}, e ∈ es → x ∈ e.nodes → x ∈ nodesAll es
  | e' :: es, he, hx => by
    rw [nodesAll, List.mem_append]
    rcases List.mem_cons.mp he with rfl | he
    · exact .inl hx
    · exact .inr (mem_nodesAll he hx)

/-- What is inside the parentheses is inside the expression. -/
theorem Expr.mem_nodes_unparenthesized {e x : Expr} (h : x ∈ e.unparenthesized.nodes) : x ∈ e.nodes := by
  fun_induction unparenthesized e with
  | case1 e _ ih => exact List.mem_cons_of_mem _ (ih h)
  | case2 => exact h

/-- What is inside one of several statements is inside them. -/
theorem Stmt.mem_nodesAll {stmt x : Stmt} :
    ∀ {body : List Stmt}, stmt ∈ body → x ∈ stmt.nodes → x ∈ nodesAll body
  | first :: rest, hs, hx => by
    rw [nodesAll, List.mem_append]
    rcases List.mem_cons.mp hs with rfl | hs
    · exact .inl hx
    · exact .inr (mem_nodesAll hs hx)

end JavaMinus
