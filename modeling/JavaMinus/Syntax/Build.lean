import JavaMinus.Syntax.Program

/-!
# Building syntax

Constructors for trees that no text was read for. A node takes its span from its parts where that
makes sense: a binary expression covers both operands, and other nodes stand where their first part
stands. Literals, names and allocations have no place until they are given one.
-/

namespace JavaMinus

namespace TypeRef

/-- A written scalar type. -/
def scalar (word : TypeWord) : TypeRef := { word }

/-- A written array type. -/
def array (word : TypeWord) : TypeRef := { word, isArray := true }

/-- A type written with dots; it counts as written with brackets too. -/
def varargs (word : TypeWord) : TypeRef := { word, isArray := true, isVarargs := true }

end TypeRef

namespace Build

def int (value : Int32) : Expr := .intLit value {}

def boolean (value : Bool) : Expr := .boolLit value {}

def ident (name : String) : Expr := .ident name {}

def self : Expr := .self {}

/-- A binary expression covers its operands. -/
def binary (op : BinaryOp) (left right : Expr) : Expr :=
  .binary op left right (left.span.merge right.span)

def not (operand : Expr) : Expr := .not operand operand.span

def paren (inner : Expr) : Expr := .paren inner inner.span

def arrayLit (elements : List Expr) : Expr := .arrayLit elements {}

def index (array place : Expr) : Expr := .index array place array.span

def newIntArray (length : Expr) : Expr := .newArray (.scalar .int) length {}

def newObject (className : String) : Expr := .newObject className {}

def member (object : Expr) (property : String) : Expr := .member object property object.span

def length (object : Expr) : Expr := member object "length"

def call (receiver : Expr) (method : String) (args : List Expr) : Expr :=
  .call receiver method args receiver.span

/-- A call on the receiver of the current method. -/
def selfCall (method : String) (args : List Expr) : Expr := call self method args

def assign (target : String) (value : Expr) : Stmt := .assign target value value.span

/-- An element assignment stands where its index stands. -/
def assignElement (target : String) (place value : Expr) : Stmt :=
  .assignElement target place value place.span

def ret (value : Expr) : Stmt := .ret (some value) value.span

def retVoid : Stmt := .ret none {}

def exprStmt (e : Expr) : Stmt := .expr e e.span

def block (body : List Stmt) : Stmt := .block body {}

def branch (condition : Expr) (thenBranch elseBranch : Stmt) : Stmt :=
  .branch condition thenBranch (some elseBranch) condition.span

def loop (condition : Expr) (body : Stmt) : Stmt := .loop condition body condition.span

def var (name : String) (typeRef : TypeRef) : VarDecl := { name, typeRef }

/-- An import of a dotted name. -/
def importOf (dotted : String) : Import := { path := dotted.splitOn "." }

def program (imports : List String) (classDecl : ClassDecl) : Program :=
  { imports := imports.map importOf, classDecl }

/-- A method that has a name and a return type so far. -/
def method (name : String) (returnType : TypeRef) : MethodDecl := { name, returnType }

/-- A class that has a name so far. -/
def classDecl (name : String) : ClassDecl := { name }

end Build

namespace MethodDecl

def addParam (m : MethodDecl) (name : String) (typeRef : TypeRef) : MethodDecl :=
  { m with params := m.params ++ [Build.var name typeRef] }

def addLocal (m : MethodDecl) (name : String) (typeRef : TypeRef) : MethodDecl :=
  { m with locals := m.locals ++ [Build.var name typeRef] }

def addStmt (m : MethodDecl) (s : Stmt) : MethodDecl := { m with body := m.body ++ [s] }

/-- The entry point without a body: public, static, and taking an array of strings. -/
def entry : MethodDecl :=
  { Build.method entryPoint (.scalar .void) with
    isPublic := true, isStatic := true, params := [Build.var "args" (.array .string)] }

end MethodDecl

namespace ClassDecl

def addField (c : ClassDecl) (name : String) (typeRef : TypeRef) : ClassDecl :=
  { c with fields := c.fields ++ [Build.var name typeRef] }

def addMethod (c : ClassDecl) (m : MethodDecl) : ClassDecl := { c with methods := c.methods ++ [m] }

end ClassDecl

end JavaMinus
