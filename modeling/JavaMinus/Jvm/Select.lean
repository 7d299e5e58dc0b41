import JavaMinus.Jvm.ClassNames
import JavaMinus.Jvm.Instr
import JavaMinus.Jvm.SlotTable

/-!
# Instruction selection

The stack machine code of a method. Every three-address instruction starts and ends with an empty
operand stack: it loads what it reads, operates, and stores its result. Its code does not depend on
the instructions around it, with one exception: an allocation and the constructor call after it are
selected together, since the machine initialises an object before it can be stored.

A comparison whose result is a value becomes a jump around two constants. Its two labels are
numbered through the method, so the code of an instruction takes the number of comparisons before
it.
-/

namespace JavaMinus.Jvm

open Tac

/-- All that selection knows about the method and its class. -/
structure MethodContext where
  names : ClassNames
  /-- The assembly name of the superclass. -/
  superClass : String
  isStatic : Bool
  returnTy : Ty
  slots : SlotTable

/-- How a value of a type is held; `void` has no values. -/
def valueKind (ty : Ty) : Result ValueKind :=
  if ty.isVoid && !ty.isArray then .error .voidValue
  else .ok (if ty.isReference then .ref else .int)

/-- What the elements of an array type are. -/
def arrayKind (array : Ty) : Result ArrayKind :=
  if !array.isArray then .error (.notArray array)
  else if array.name == "int" then .ok .int
  else if array.name == "boolean" then .ok .boolean
  else .ok .ref

/-- The operation of an operator that is no comparison. Both truth values are at hand, so `&&` and
`||` are operations on bits. -/
def arithmetic : BinaryOp → Result Arith
  | .add => .ok .add
  | .sub => .ok .sub
  | .mul => .ok .mul
  | .div => .ok .div
  | .and => .ok .and
  | .or => .ok .or
  | op => .error (.notArithmetic op.symbol)

/-- The test of an operator that is a comparison. -/
def comparison : BinaryOp → Result Comparison
  | .lt => .ok .lt
  | .ge => .ok .ge
  | .gt => .ok .gt
  | .le => .ok .le
  | .eq => .ok .eq
  | .ne => .ok .ne
  | op => .error (.notComparison op.symbol)

/-- The jump to a label that is taken when the comparison of two types' values holds. References
can be equal or not, and are not ordered. -/
def compareJump (op : BinaryOp) (left right : Ty) (target : String) : Result Instr := do
  let test ← comparison op
  if left.isReference || right.isReference then
    if op.isEquality then return .ifRefs test target
    else throw (.orderingOnReferences op.symbol)
  else return .ifInts test target

/-- The label of the `n`th comparison of a method where its result is true. -/
def whenTrue (n : Nat) : String := s!"cmp_true_{n}"

/-- The label of the `n`th comparison of a method where its result is on the stack. -/
def whenDone (n : Nat) : String := s!"cmp_end_{n}"

/-- The result of a comparison as one or zero. -/
def comparisonValue (n : Nat) (op : BinaryOp) (left right : Ty) : Result (List Instr) := do
  let jump ← compareJump op left right (whenTrue n)
  return [jump, .const 0, .goto (whenDone n), .label (whenTrue n), .const 1, .label (whenDone n)]

namespace MethodContext

/-- Push the value of an operand. -/
def load (x : MethodContext) : Operand → Result (List Instr)
  | .temp id ty => do
    let kind ← valueKind ty
    let slot ← x.slots.slot (.temp id ty)
    return [.load kind slot]
  | .var name ty => do
    let kind ← valueKind ty
    let slot ← x.slots.slot (.var name ty)
    return [.load kind slot]
  | .self _ => if x.isStatic then .error .selfInStatic else .ok [.load .ref 0]
  | .classRef name _ => .error (.classAsValue name)
  | .intLit value _ => .ok [.const value]
  | .boolLit value _ => .ok [.const (if value then 1 else 0)]
  | .element array index _ => do
    let kind ← arrayKind array.ty
    let a ← load x array
    let i ← load x index
    return a ++ i ++ [.arrayLoad kind]

/-- Push the values of operands in order. -/
def loadAll (x : MethodContext) (operands : List Operand) : Result (List Instr) := do
  let codes ← operands.mapM x.load
  return codes.flatten

/-- Pop the top of the stack into an operand. -/
def store (x : MethodContext) (dest : Operand) : Result (List Instr) :=
  if !dest.isStorage then .error (.notStorage dest)
  else do
    let kind ← valueKind dest.ty
    let slot ← x.slots.slot dest
    return [.store kind slot]

/-- How a call finds its method, the class it is looked up in, and the code that pushes the
receiver. -/
def receiver (x : MethodContext) (kind : CallKind) (on : Operand) (method : String) :
    Result (InvokeKind × String × List Instr) :=
  match kind, on with
  | .constructor, .self ty => do return (.special, x.superClass, ← x.load (.self ty))
  | .constructor, _ => .error (.constructorWithoutAllocation on)
  | .static, .classRef name _ => .ok (.static, x.names.qualify name, [])
  | .static, _ => .error (.staticReceiver method on)
  | .virtual, _ =>
    if on.ty.isArray || !on.ty.isReference then .error (.invalidReceiver method on)
    else do return (.virtual, x.names.qualify on.ty.name, ← x.load on)

/-- What is done with the result of a call: it is stored, or dropped where nothing wants it. -/
def result (x : MethodContext) (dest : Option Operand) (method : String) (returnsValue : Bool) :
    Result (List Instr) :=
  match dest with
  | some dest => if returnsValue then x.store dest else .error (.voidResult method dest)
  | none => .ok (if returnsValue then [.pop] else [])

/-- A call. Its descriptor is spelled from the types of the arguments passed. -/
def call (x : MethodContext) (dest : Option Operand) (kind : CallKind) (on : Operand)
    (method : String) (args : List Operand) (returnTy : Ty) : Result (List Instr) := do
  let (invoke, owner, object) ← x.receiver kind on method
  let values ← x.loadAll args
  let descriptor ← x.names.methodDescriptor (args.map Operand.ty) returnTy
  if args.length > wordLimit then throw .tooManyArguments
  let rest ← x.result dest method (!returnTy.isVoid)
  return object ++ values ++
    .invoke invoke owner method descriptor args.length (!returnTy.isVoid) :: rest

/-- A new object: allocate it, initialise one of two references, store the other. -/
def newObject (x : MethodContext) (dest : Operand) (className : String) : Result (List Instr) := do
  let owner := x.names.qualify className
  let rest ← x.store dest
  return .new owner :: .dup :: .invoke .special owner constructorName "()V" 0 false :: rest

/-- The allocation of an array. -/
def newArray (x : MethodContext) (element : Ty) : Result Instr :=
  if element.name == "int" then .ok (.newArray "int")
  else if element.name == "boolean" then .ok (.newArray "boolean")
  else if element.name == "void" then .error .voidArray
  else .ok (.newRefArray (x.names.qualify element.name))

/-- The code of an instruction other than an allocation, after `n` comparisons. -/
def instr (x : MethodContext) (n : Nat) : Tac.Instr → Result (List Instr)
  | .assign dest value => do return (← x.load value) ++ (← x.store dest)
  | .binary dest op left right => do
    let l ← x.load left
    let r ← x.load right
    let operation ←
      if op.isRelational then comparisonValue n op left.ty right.ty
      else do pure [.arith (← arithmetic op)]
    return l ++ r ++ operation ++ (← x.store dest)
  | .not dest operand => do
    return (← x.load operand) ++ [.const 1, .arith .xor] ++ (← x.store dest)
  | .call dest kind on method args returnTy => x.call dest kind on method args returnTy
  | .newObject _ className => .error (.unpairedAllocation className)
  | .newArray dest length element => do
    let n ← x.load length
    let allocation ← x.newArray element
    return n ++ allocation :: (← x.store dest)
  | .arrayLength dest array => do return (← x.load array) ++ .arrayLength :: (← x.store dest)
  | .arrayStore array index value => do
    let kind ← arrayKind array.ty
    return (← x.load array) ++ (← x.load index) ++ (← x.load value) ++ [.arrayStore kind]
  | .fieldRead dest object field ty => do
    let o ← x.load object
    let descriptor ← x.names.descriptor ty
    return o ++ .getField (x.names.qualify object.ty.name) field descriptor :: (← x.store dest)
  | .fieldWrite object field ty value => do
    let o ← x.load object
    let v ← x.load value
    let descriptor ← x.names.descriptor ty
    return o ++ v ++ [.putField (x.names.qualify object.ty.name) field descriptor]
  | .ret none => .ok [.ret none]
  | .ret (some value) => do
    let kind ← valueKind x.returnTy
    return (← x.load value) ++ [.ret (some kind)]
  | .branch (.compare op left right) target => do
    let l ← x.load left
    let r ← x.load right
    return l ++ r ++ [← compareJump op left.ty right.ty target]
  | .branch (.truthy value) target => do return (← x.load value) ++ [.ifTrue target]
  | .jump target => .ok [.goto target]
  | .label name => .ok [.label name]

end MethodContext

/-- An instruction whose code has the labels of a comparison. -/
def needsLabels : Tac.Instr → Bool
  | .binary _ op _ _ => op.isRelational
  | _ => false

/-- What selection takes in one step: an instruction, or an allocation with its constructor. -/
inductive Piece where
  | instr (i : Tac.Instr)
  | newObject (dest : Operand) (className : String)
deriving DecidableEq

/-- An instruction that initialises the object just allocated into `dest`. -/
def initialises (dest : Operand) : Tac.Instr → Bool
  | .call _ .constructor on _ _ _ => on.agrees dest
  | _ => false

/-- Code in pieces. An allocation without its constructor stays an instruction. -/
def pieces : List Tac.Instr → List Piece
  | [] => []
  | [i] => [.instr i]
  | .newObject dest className :: i :: rest =>
    if initialises dest i then .newObject dest className :: pieces rest
    else .instr (.newObject dest className) :: pieces (i :: rest)
  | i :: j :: rest => .instr i :: pieces (j :: rest)

namespace MethodContext

/-- The code of a piece, after `n` comparisons. -/
def piece (x : MethodContext) (n : Nat) : Piece → Result (List Instr)
  | .instr i => x.instr n i
  | .newObject dest className => x.newObject dest className

end MethodContext

/-- The comparisons that a piece adds to those before it. -/
def Piece.comparisons : Piece → Nat
  | .instr i => if needsLabels i then 1 else 0
  | .newObject .. => 0

namespace MethodContext

/-- The code of each piece, the first after `n` comparisons. -/
def selectPieces (x : MethodContext) (n : Nat) : List Piece → Result (List (List Instr))
  | [] => .ok []
  | p :: rest => do
    let code ← x.piece n p
    let codes ← selectPieces x (n + p.comparisons) rest
    return code :: codes

/-- The code of a method body. -/
def select (x : MethodContext) (code : List Tac.Instr) : Result (List Instr) := do
  let codes ← x.selectPieces 0 (pieces code)
  return codes.flatten

end MethodContext

end JavaMinus.Jvm
