import JavaMinus.SymbolTable
import JavaMinus.Syntax.Expr

/-!
# Statements and declarations

A program is a list of imports and one class; a class has fields and methods; a method declares its
parameters and locals in front of its body. Statements nest through blocks, branches and loops.
-/

namespace JavaMinus

/-- A statement of a method body. -/
inductive Stmt where
  | block (body : List Stmt) (span : Span)
  | branch (condition : Expr) (thenBranch : Stmt) (elseBranch : Option Stmt) (span : Span)
  | loop (condition : Expr) (body : Stmt) (span : Span)
  /-- An expression whose value, if any, is dropped. -/
  | expr (expr : Expr) (span : Span)
  | assign (target : String) (value : Expr) (span : Span)
  | assignElement (target : String) (index value : Expr) (span : Span)
  | ret (value : Option Expr) (span : Span)
deriving Inhabited

namespace Stmt

/-- The place of the statement in the text. -/
def span : Stmt → Span
  | .block _ s | .branch _ _ _ s | .loop _ _ s | .expr _ s | .assign _ _ s
  | .assignElement _ _ _ s | .ret _ s => s

/-- The statement itself is a return; a return inside it does not count. -/
def isReturn : Stmt → Bool
  | .ret .. => true
  | _ => false

end Stmt

/-- A declared field, parameter or local variable. -/
structure VarDecl where
  name : String
  typeRef : TypeRef
  span : Span := {}
deriving Inhabited

/-- A declared method with its body. -/
structure MethodDecl where
  name : String
  isPublic : Bool := false
  isStatic : Bool := false
  returnType : TypeRef
  params : List VarDecl := []
  locals : List VarDecl := []
  body : List Stmt := []
  span : Span := {}
deriving Inhabited

/-- A program starts at the static method of that name. -/
def MethodDecl.isEntryPoint (m : MethodDecl) : Bool := m.name == entryPoint && m.isStatic

/-- The one class of a program. -/
structure ClassDecl where
  name : String
  superClass : Option String := none
  fields : List VarDecl := []
  methods : List MethodDecl := []
  span : Span := {}
deriving Inhabited

/-- An import, segment by segment. -/
structure Import where
  path : List String
  span : Span := {}
deriving Inhabited

namespace Import

/-- The segments joined by dots. -/
def qualifiedName (i : Import) : String := ".".intercalate i.path

/-- The last segment; the empty name when there is none. -/
def simpleName (i : Import) : String := i.path.getLast?.getD ""

end Import

/-- A program: its imports, then its class. -/
structure Program where
  imports : List Import := []
  classDecl : ClassDecl
deriving Inhabited

end JavaMinus
