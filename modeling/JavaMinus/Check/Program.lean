import JavaMinus.Check.Error
import JavaMinus.Syntax.Walk
import JavaMinus.Typing.Infer

/-!
# Semantic checking

The errors of a program, as a list in source order: imports, then fields, then one block for each
method. The block of a method holds the errors of its declaration, of its returns and of its
statements. Each part is a function of its own to the list of its errors, so the whole is their
concatenation, and no part depends on what another reported.

A repeated name is an error at every declaration after the first. The names seen so far are the only
thing handed from one declaration to the next.
-/

namespace JavaMinus

/-- Imports whose last segment was seen before. -/
def checkImports : List String → List Import → List CheckError
  | _, [] => []
  | seen, i :: rest =>
    (if i.simpleName ∈ seen then [.duplicateImport i.simpleName i.span] else []) ++
      checkImports (i.simpleName :: seen) rest

/-- Fields that repeat a name or are declared varargs. -/
def checkFields : List String → List VarDecl → List CheckError
  | _, [] => []
  | seen, f :: rest =>
    (if f.name ∈ seen then [.duplicateField f.name f.span] else []) ++
      (if f.typeRef.isVarargs then [.varargsVariable f.name f.span] else []) ++
        checkFields (f.name :: seen) rest

/-- A parameter or local of a method that repeats a name seen before. -/
def checkFresh (method : String) (seen : List String) (d : VarDecl) : List CheckError :=
  if d.name ∈ seen then [.duplicateVariable d.name method d.span] else []

/-- Parameters: varargs only at the end, none named `length`, no name twice. -/
def checkParams (method : String) : List String → List VarDecl → List CheckError
  | _, [] => []
  | seen, p :: rest =>
    (if p.typeRef.isVarargs && !rest.isEmpty then [.varargsNotLast method p.name p.span]
      else []) ++
      (if p.name == "length" then [.reservedParameterName method p.span] else []) ++
        checkFresh method seen p ++ checkParams method (p.name :: seen) rest

/-- Locals: no varargs, no name twice, and none that a parameter has. -/
def checkLocals (method : String) : List String → List VarDecl → List CheckError
  | _, [] => []
  | seen, d :: rest =>
    (if d.typeRef.isVarargs then [.varargsVariable d.name d.span] else []) ++
      checkFresh method seen d ++ checkLocals method (d.name :: seen) rest

namespace MethodDecl

/-- The declaration of a method: its return type, its parameters, then its locals. -/
def checkSignature (m : MethodDecl) : List CheckError :=
  (if m.returnType.isVarargs then [.varargsReturn m.name m.returnType.span] else []) ++
    checkParams m.name [] m.params ++
      checkLocals m.name (m.params.map VarDecl.name).reverse m.locals

/-- A method without a value may do without a return, and so may the entry point. -/
def returnOptional (m : MethodDecl) : Bool := m.isEntryPoint || m.returnType.ty.isVoid

/-- The number of returns, counted at any depth, is one, or zero where that is allowed. -/
def returnCountFits (m : MethodDecl) : Bool :=
  let count := Stmt.returnCount m.body
  count == 1 || (m.returnOptional && count == 0)

/-- The last statement of the body is a return. -/
def endsWithReturn (m : MethodDecl) : Bool := m.body.getLast?.any Stmt.isReturn

/-- The returns of a method: their number, and that the one return comes last. A misplaced return
is shown where it stands in the body itself, and otherwise by its method. -/
def checkReturns (m : MethodDecl) : List CheckError :=
  if !m.returnCountFits then
    [.returnCount m.name m.returnOptional (Stmt.returnCount m.body) m.span]
  else if Stmt.returnCount m.body == 1 && !m.endsWithReturn then
    [.returnNotLast m.name (((m.body.find? Stmt.isReturn).map Stmt.span).getD m.span)]
  else []

end MethodDecl

namespace Scope

/-- The type of an assignment target. A static method has no fields. -/
def targetType (s : Scope) (name : String) (span : Span) : Except TypeError Ty :=
  match s.resolve? name with
  | some v => if v.isField && s.isStatic then .error (.fieldInStatic name span) else .ok v.ty
  | none => .error (.undefinedVariable name span)

/-- Go on with the value of a step that may have failed, or report its failure. -/
def orReport (outcome : Except TypeError Ty) (next : Ty → List CheckError) : List CheckError :=
  match outcome with
  | .ok ty => next ty
  | .error e => [.typing e]

/-- A condition is a boolean. -/
def checkCondition (s : Scope) (condition : Expr) : List CheckError :=
  orReport (condition.infer s (.wanting Ty.boolean)) fun ty =>
    if ty.isBoolean then [] else [.invalidCondition ty condition.span]

/-- A value fits the place it is stored into, which is shown under the given name. -/
def checkStored (s : Scope) (name : String) (expected : Ty) (value : Expr) : List CheckError :=
  orReport (value.infer s (.assigned expected)) fun actual =>
    if s.assignable expected actual then []
    else [.assignMismatch name expected actual value.span]

/-- An assignment to a variable. -/
def checkAssign (s : Scope) (target : String) (value : Expr) (span : Span) : List CheckError :=
  orReport (s.targetType target span) fun ty => s.checkStored target ty value

/-- An assignment to an array element: the index and the value are looked at separately. -/
def checkAssignElement (s : Scope) (target : String) (index value : Expr) (span : Span) :
    List CheckError :=
  orReport (s.targetType target span) fun ty =>
    match ty.element? with
    | none => [.typing (.indexOnNonArray ty span)]
    | some element =>
      (orReport (index.infer s (.wanting Ty.int)) fun position =>
        if position.isInt then [] else [.typing (.indexNotInt position index.span)]) ++
        s.checkStored (target ++ "[]") element value

/-- A returned type, `void` for a return without a value, fits the method. -/
def checkReturned (s : Scope) (actual : Ty) (span : Span) : List CheckError :=
  let fits :=
    if s.returnType.isVoid then actual.isVoid else s.assignable s.returnType actual
  if fits then [] else [.returnMismatch s.method.name s.returnType actual span]

/-- A return. -/
def checkReturn (s : Scope) (value : Option Expr) (span : Span) : List CheckError :=
  match value with
  | some e =>
    orReport (e.infer s (.returned s.returnType)) fun actual => s.checkReturned actual span
  | none => s.checkReturned Ty.void span

mutual
/-- The errors of a statement. -/
def checkStmt (s : Scope) : Stmt → List CheckError
  | .block body _ => checkStmts s body
  | .branch condition thenBranch none _ => s.checkCondition condition ++ checkStmt s thenBranch
  | .branch condition thenBranch (some elseBranch) _ =>
    s.checkCondition condition ++ checkStmt s thenBranch ++ checkStmt s elseBranch
  | .loop condition body _ => s.checkCondition condition ++ checkStmt s body
  | .expr e _ => orReport (e.infer s .discarded) fun _ => []
  | .assign target value span => s.checkAssign target value span
  | .assignElement target index value span => s.checkAssignElement target index value span
  | .ret value span => s.checkReturn value span
/-- The errors of several statements, one after another. -/
def checkStmts (s : Scope) : List Stmt → List CheckError
  | [] => []
  | stmt :: rest => checkStmt s stmt ++ checkStmts s rest
end

end Scope

/-- The statements of a method, read in the scope of its entry in the table. -/
def MethodDecl.checkBody (t : SymbolTable) (policy : Policy) (index : Nat) (m : MethodDecl) :
    List CheckError :=
  match t.methodAt? index m.name with
  | some signature => Scope.checkStmts ⟨t, signature, policy⟩ m.body
  | none => [.typing (.undefinedMethod m.name m.span)]

/-- The errors of a method, apart from a repeated name. -/
def MethodDecl.check (t : SymbolTable) (policy : Policy) (index : Nat) (m : MethodDecl) :
    List CheckError :=
  m.checkSignature ++ m.checkReturns ++ m.checkBody t policy index

/-- The methods of a class from a position on, in order. -/
def checkMethods (t : SymbolTable) (policy : Policy) :
    Nat → List String → List MethodDecl → List CheckError
  | _, _, [] => []
  | index, seen, m :: rest =>
    (if m.name ∈ seen then [.duplicateMethod m.name m.span] else []) ++
      m.check t policy index ++ checkMethods t policy (index + 1) (m.name :: seen) rest

/-- The errors of a program against a symbol table. -/
def Program.check (p : Program) (t : SymbolTable) (policy : Policy) : List CheckError :=
  checkImports [] p.imports ++ checkFields [] p.classDecl.fields ++
    checkMethods t policy 0 [] p.classDecl.methods

end JavaMinus
