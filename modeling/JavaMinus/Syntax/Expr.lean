import JavaMinus.Syntax.TypeRef
import JavaMinus.Syntax.Operator

/-!
# Expressions

The thirteen forms of an expression, each with its span. Parentheses are kept as nodes, since they
have a span of their own; `unparenthesized` looks through them. A call receiver that is a class name
is an identifier like any other: which one it is, scoping decides.
-/

namespace JavaMinus

/-- An expression of the source text. -/
inductive Expr where
  | intLit (value : Int32) (span : Span)
  | boolLit (value : Bool) (span : Span)
  | ident (name : String) (span : Span)
  /-- The receiver of an instance method, written `this`. -/
  | self (span : Span)
  | binary (op : BinaryOp) (left right : Expr) (span : Span)
  | not (operand : Expr) (span : Span)
  | arrayLit (elements : List Expr) (span : Span)
  | index (array index : Expr) (span : Span)
  | newArray (element : TypeRef) (length : Expr) (span : Span)
  | newObject (className : String) (span : Span)
  | member (object : Expr) (property : String) (span : Span)
  | call (receiver : Expr) (method : String) (args : List Expr) (span : Span)
  | paren (inner : Expr) (span : Span)
deriving Inhabited

namespace Expr

/-- The place of the expression in the text. -/
def span : Expr → Span
  | .intLit _ s | .boolLit _ s | .ident _ s | .self s | .binary _ _ _ s | .not _ s
  | .arrayLit _ s | .index _ _ s | .newArray _ _ s | .newObject _ s | .member _ _ s
  | .call _ _ _ s | .paren _ s => s

/-- The expression with its own span replaced; the spans inside stay. -/
def withSpan (e : Expr) (s : Span) : Expr :=
  match e with
  | .intLit v _ => .intLit v s
  | .boolLit v _ => .boolLit v s
  | .ident n _ => .ident n s
  | .self _ => .self s
  | .binary op l r _ => .binary op l r s
  | .not e _ => .not e s
  | .arrayLit es _ => .arrayLit es s
  | .index a i _ => .index a i s
  | .newArray t n _ => .newArray t n s
  | .newObject c _ => .newObject c s
  | .member e p _ => .member e p s
  | .call r m as _ => .call r m as s
  | .paren e _ => .paren e s

/-- The expression inside any number of enclosing parentheses. -/
def unparenthesized : Expr → Expr
  | .paren e _ => e.unparenthesized
  | e => e

/-- The expression is a method call, looking through parentheses. -/
def isCall (e : Expr) : Bool :=
  match e.unparenthesized with
  | .call .. => true
  | _ => false

/-- The expression is an integer literal, looking through parentheses. -/
def isIntLiteral (e : Expr) : Bool :=
  match e.unparenthesized with
  | .intLit .. => true
  | _ => false

@[simp] theorem span_withSpan (e : Expr) (s : Span) : (e.withSpan s).span = s := by
  cases e <;> rfl

/-- Nothing is left to look through. -/
@[simp] theorem unparenthesized_unparenthesized (e : Expr) :
    e.unparenthesized.unparenthesized = e.unparenthesized := by
  fun_induction unparenthesized e with
  | case1 e _ ih => exact ih
  | case2 e h => cases e <;> simp_all [unparenthesized]

end Expr

end JavaMinus
