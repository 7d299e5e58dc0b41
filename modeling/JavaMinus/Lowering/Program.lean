import JavaMinus.Lowering.Expr
import JavaMinus.Syntax.Program

/-!
# Lowering programs

Statements become jumps and labels. A branch tests its condition, runs the else part in line and
the then part behind its label; a loop tests its condition at the top of every round. Labels and
temporaries are numbered through the whole class, and counting starts anew for every program.

A program is lowered by itself (`Program.lower`), or one after another by a lowerer, which keeps its
counters and the body it was writing from one program to the next (`Lowerer.lower`).
-/

namespace JavaMinus

open Tac Lower

namespace Label

def thenPart (n : Nat) : String := s!"then_{n}"
def branchEnd (n : Nat) : String := s!"endif_{n}"
def loopTest (n : Nat) : String := s!"whilecond_{n}"
def loopBody (n : Nat) : String := s!"whileloop_{n}"
def loopEnd (n : Nat) : String := s!"whileend_{n}"

end Label

namespace Lower

/-- The variable that an assignment goes to. -/
def target (s : Scope) (name : String) : Lower Variable :=
  ofOption (.unresolvedTarget name) (s.resolve? name)

/-- The code of an assignment. A field is written on the receiver. -/
def assign (s : Scope) (name : String) (value : Expr) : Lower Unit := do
  let v ← target s name
  let operand ← value.lower s (.assigned v.ty)
  if v.isField then emit (.fieldWrite (self s) name v.ty operand)
  else emit (.assign (.var name v.ty) operand)

/-- The code of an assignment to an array element. The array is read before the index, and a field
that holds it is read into a temporary. -/
def assignElement (s : Scope) (name : String) (index value : Expr) : Lower Unit := do
  let v ← target s name
  let element ← ofOption (.targetNotArray name) v.ty.element?
  let array ←
    if v.isField then intoFresh v.ty fun dest => .fieldRead dest (self s) name v.ty
    else pure (.var name v.ty)
  let i ← index.lower s (.wanting Ty.int)
  let operand ← value.lower s (.assigned element)
  emit (.arrayStore array i operand)

/-- The code of a return. -/
def ret (s : Scope) (value : Option Expr) : Lower Unit :=
  match value with
  | none => emit (.ret none)
  | some e => do
    let operand ← e.lower s (.returned s.returnType)
    emit (.ret (some operand))

/-- The layout of a branch, given the code of its two parts. -/
def branch (s : Scope) (condition : Expr) (thenPart elsePart : Lower Unit) : Lower Unit := do
  let n ← freshBranch
  condition.lowerCondition s (Label.thenPart n)
  elsePart
  emit (.jump (Label.branchEnd n))
  emit (.label (Label.thenPart n))
  thenPart
  emit (.label (Label.branchEnd n))

/-- The layout of a loop, given the code of its body. -/
def loop (s : Scope) (condition : Expr) (body : Lower Unit) : Lower Unit := do
  let n ← freshLoop
  emit (.label (Label.loopTest n))
  condition.lowerCondition s (Label.loopBody n)
  emit (.jump (Label.loopEnd n))
  emit (.label (Label.loopBody n))
  body
  emit (.jump (Label.loopTest n))
  emit (.label (Label.loopEnd n))

end Lower

mutual
/-- The code of a statement. -/
def Stmt.lower (s : Scope) : Stmt → Lower Unit
  | .block body _ => Stmt.lowerAll s body
  | .branch condition thenBranch none _ =>
    Lower.branch s condition (thenBranch.lower s) (return ())
  | .branch condition thenBranch (some elseBranch) _ =>
    Lower.branch s condition (thenBranch.lower s) (elseBranch.lower s)
  | .loop condition body _ => Lower.loop s condition (body.lower s)
  | .expr e _ => e.lowerDiscarded s
  | .assign name value _ => Lower.assign s name value
  | .assignElement name index value _ => Lower.assignElement s name index value
  | .ret value _ => Lower.ret s value
/-- The code of statements one after another. -/
def Stmt.lowerAll (s : Scope) : List Stmt → Lower Unit
  | [] => return ()
  | stmt :: rest => do
    stmt.lower s
    Stmt.lowerAll s rest
end

/-- The method of a scope, without code. -/
def Scope.emptyMethod (s : Scope) : Method where
  name := s.method.name
  isPublic := s.method.isPublic
  isStatic := s.method.isStatic
  params := s.method.parameters.map fun p => .var p.name p.ty.plain
  returnTy := s.returnType

/-- A method closed by a return, where one without a value has none. -/
def closeMethod (m : Method) : Lower Method :=
  if m.endsWithReturn then return m
  else if m.returnTy.isVoid then return m.push (.ret none)
  else fail (.missingReturn m.name)

/-- A method in the scope of its signature. -/
def MethodDecl.lower (t : SymbolTable) (policy : Policy) (signature : Signature) (m : MethodDecl) :
    Lower Method := do
  let s : Scope := ⟨t, signature, policy⟩
  let code ← codeOf (Stmt.lowerAll s m.body)
  closeMethod (s.emptyMethod.extend code)

/-- The methods of a class from a position on, each with its entry in the table. -/
def lowerMethods (t : SymbolTable) (policy : Policy) : Nat → List MethodDecl → Lower (List Method)
  | _, [] => return []
  | index, m :: rest => do
    let signature ← ofOption (.missingSignature m.name) (t.methodAt? index m.name)
    let method ← m.lower t policy signature
    let methods ← lowerMethods t policy (index + 1) rest
    return method :: methods

/-- The class of a program, with its methods. -/
def Program.classUnit (t : SymbolTable) (p : Program) (methods : List Method) : ClassUnit where
  name := p.classDecl.name
  superClass := t.superClass
  imports := t.imports
  fields := t.fields.map fun f => { f with ty := f.ty.plain }
  methods := Method.constructor (Ty.scalar p.classDecl.name) :: methods

/-- The class of a program. Counting starts anew. -/
def Program.lower (t : SymbolTable) (policy : Policy) (p : Program) : Lower ClassUnit := do
  reset
  let methods ← lowerMethods t policy 0 p.classDecl.methods
  return p.classUnit t methods

/-! ## One lowerer for several programs -/

/-- What lowers programs one after another: the counters, and the body of the method that is being
lowered. Where lowering stops with an error, both stay as they are. -/
structure Lowerer where
  counters : Counters := {}
  body : List Instr := []
deriving DecidableEq, Inhabited

/-- A step of a lowerer. The lowerer goes on from where the step left it, also behind an error. -/
abbrev Lowering (α : Type) := ExceptT LoweringError (StateM Lowerer) α

namespace Lowering

/-- A computation that lowers, its code written behind the body. -/
def write {α : Type} (x : Lower α) : Lowering α := fun l =>
  match x.run l.counters with
  | .done a code c => (.ok a, ⟨c, l.body ++ code⟩)
  | .failed e c => (.error e, ⟨c, l.body ++ x.unfinished l.counters⟩)

/-- The code that a computation writes, taken out of the body. Whatever the body still holds is
dropped first. -/
def codeOf (x : Lower Unit) : Lowering (List Instr) := do
  modify fun l => { l with body := [] }
  write x
  modifyGet fun l => (l.body, { l with body := [] })

/-- A method in the scope of its signature. -/
def method (t : SymbolTable) (policy : Policy) (signature : Signature) (m : MethodDecl) :
    Lowering Method := do
  let s : Scope := ⟨t, signature, policy⟩
  let code ← codeOf (Stmt.lowerAll s m.body)
  write (closeMethod (s.emptyMethod.extend code))

/-- The methods of a class from a position on, each with its entry in the table. -/
def methods (t : SymbolTable) (policy : Policy) : Nat → List MethodDecl → Lowering (List Method)
  | _, [] => return []
  | index, m :: rest => do
    let signature ← write (ofOption (.missingSignature m.name) (t.methodAt? index m.name))
    let first ← method t policy signature m
    let others ← methods t policy (index + 1) rest
    return first :: others

/-- The class of a program. Counting starts anew; the body is left as it is. -/
def program (t : SymbolTable) (policy : Policy) (p : Program) : Lowering ClassUnit := do
  write reset
  let lowered ← methods t policy 0 p.classDecl.methods
  return p.classUnit t lowered

/-- How a step ends that writes nothing behind the body. -/
def outcome {α : Type} : Except LoweringError α × Lowerer → Lowered α
  | (.ok a, l) => .done a [] l.counters
  | (.error e, l) => .failed e l.counters

end Lowering

/-- What a lowerer makes of a program, and the lowerer behind it. -/
def Lowerer.lower (t : SymbolTable) (policy : Policy) (l : Lowerer) (p : Program) :
    Lowered ClassUnit × Lowerer :=
  let ended := Lowering.program t policy p l
  (Lowering.outcome ended, ended.2)

/-- Lower programs one after another, each with the lowerer that the one before it left. -/
def lowerSession (t : SymbolTable) (policy : Policy) : Lowerer → List Program → List (Lowered ClassUnit)
  | _, [] => []
  | l, p :: rest =>
    let ended := l.lower t policy p
    ended.1 :: lowerSession t policy ended.2 rest

end JavaMinus
