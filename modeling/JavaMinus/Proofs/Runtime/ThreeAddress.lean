import Mathlib.Logic.Function.Basic
import JavaMinus.Proofs.Runtime.Machine
import JavaMinus.Jvm.Assembly

/-!
# Running three-address code

Temporaries and variables hold values by name, and every instruction reads its operands from there,
from the heap, and from the receiver. An operand has a value only if it is one of its type: a
`boolean` operand is zero or one, and an operand of a class or array type is a reference. An
instruction whose operands have no values, or that would raise an exception, does not act.

A call is looked up as its kind says: a static one in the class that it names, a virtual one in the
class of its receiver's type, and a constructor in the class of the object that was allocated, or, on
the receiver of the method itself, in the superclass.
-/

namespace JavaMinus.Tac

open Jvm (ClassNames InvokeKind SlotKey slotKey? elementKind)
open JavaMinus.Runtime

/-- What a method knows of its class, and the type of its result. -/
structure Setting where
  names : ClassNames
  /-- The assembly name of the superclass. -/
  superClass : String
  returnTy : Ty

/-- The name under which arrays over a type are allocated. -/
def Setting.elementName (x : Setting) (element : String) : String :=
  match elementKind element with
  | .ref => x.names.qualify element
  | _ => element

/-- The values of temporaries and variables, the receiver, and memory. -/
structure State where
  vars : SlotKey → Option Value
  self : Option Nat := none
  memory : Memory := {}

namespace State

/-- The value of an operand. -/
def eval (s : State) : Operand → Option Value
  | .temp id ty => (s.vars (.temp id)).filter ty.admits
  | .var name ty => (s.vars (.var name)).filter ty.admits
  | .self ty => (s.self.map fun a => Value.ref (some a)).filter ty.admits
  | .classRef .. => none
  | .intLit value ty => (some (.int value)).filter ty.admits
  | .boolLit value ty => (some (.ofBool value)).filter ty.admits
  | .element array index ty => do
    let a ← eval s array
    let i ← eval s index
    (s.memory.heap.getElement (elementKind array.ty.name) a i).filter ty.admits

/-- The values of operands in order. -/
def evalAll (s : State) : List Operand → Option (List Value)
  | [] => some []
  | o :: rest => do
    let v ← s.eval o
    let vs ← evalAll s rest
    return v :: vs

/-- The value of an operand is one of its type. -/
theorem admits_of_eval {s : State} {o : Operand} {v : Value} (h : s.eval o = some v) :
    o.ty.admits v = true := by
  cases o with
  | classRef => cases h
  | element array index ty =>
    simp only [eval, Option.bind_eq_bind, Option.bind_eq_some_iff] at h
    obtain ⟨a, -, i, -, h⟩ := h
    exact (Option.filter_eq_some_iff.mp h).2
  | _ => exact (Option.filter_eq_some_iff.mp h).2

theorem evalAll_length {s : State} {os : List Operand} {vs : List Value}
    (h : s.evalAll os = some vs) : vs.length = os.length := by
  induction os generalizing vs with
  | nil =>
    cases h
    rfl
  | cons o rest ih =>
    simp only [evalAll, Option.bind_eq_bind, Option.bind_eq_some_iff] at h
    obtain ⟨v, -, more, hmore, h⟩ := h
    cases h
    rw [List.length_cons, List.length_cons, ih hmore]

/-- Give a temporary or variable a value of its type. -/
def write (s : State) (dest : Operand) (v : Value) : Option State := do
  let key ← slotKey? dest
  if dest.ty.admits v then some { s with vars := Function.update s.vars key (some v) } else none

/-- The state with another heap. -/
def setHeap (s : State) (h : Heap) : State := { s with memory := { s.memory with heap := h } }

/-- How a call finds its method, the class it is looked up in, and the receiver. -/
def receiver (s : State) (x : Setting) (kind : CallKind) (on : Operand) :
    Option (InvokeKind × String × Option Nat) :=
  match kind, on with
  | .constructor, .self ty => do
    let a ← (← s.eval (.self ty)).address?
    return (.special, x.superClass, some a)
  | .constructor, on => do
    let (a, className, _) ← s.memory.heap.object? (← s.eval on)
    return (.special, className, some a)
  | .static, .classRef name _ => some (.static, x.names.qualify name, none)
  | .static, _ => none
  | .virtual, on => do
    let a ← (← s.eval on).address?
    return (.virtual, x.names.qualify on.ty.name, some a)

/-- Take the result of a call that has one exactly if its type is not `void`. -/
def finish (s : State) (dest : Option Operand) (ty : Ty) (result : Option Value) : Option State :=
  match dest, result with
  | some dest, some v => if ty.isVoid then none else s.write dest v
  | some _, none => none
  | none, result => if result.isSome = !ty.isVoid then some s else none

/-- Make a call. -/
def call (s : State) (w : World) (x : Setting) (dest : Option Operand) (kind : CallKind) (on : Operand)
    (method : String) (args : List Operand) (ty : Ty) : Option State := do
  let (invoke, owner, object) ← s.receiver x kind on
  let values ← s.evalAll args
  let descriptor ← (x.names.methodDescriptor (args.map Operand.ty) ty).toOption
  let (result, memory) ← w.invoke ⟨invoke, owner, method, descriptor, object, values⟩ s.memory
  finish { s with memory } dest ty result

/-- The field of an operand. -/
def fieldKey (x : Setting) (object : Operand) (field : String) (ty : Ty) : Option FieldKey := do
  let descriptor ← (x.names.descriptor ty).toOption
  return ⟨x.names.qualify object.ty.name, field, descriptor⟩

/-- A condition holds. -/
def test (s : State) : Condition → Option Bool
  | .compare op left right => do (← op.apply (← s.eval left) (← s.eval right)).bool?
  | .truthy value => do (← s.eval value).bool?

end State

open State in
/-- What an instruction does. -/
def Instr.act (w : World) (x : Setting) (i : Instr) (s : State) : Option (Action State) :=
  match i with
  | .assign dest value => do return .next (← s.write dest (← s.eval value))
  | .binary dest op left right => do
    let v ← op.apply (← s.eval left) (← s.eval right)
    return .next (← s.write dest v)
  | .not dest operand => do
    let b ← (← s.eval operand).bool?
    return .next (← s.write dest (.ofBool (!b)))
  | .call dest kind on method args ty => do
    return .next (← s.call w x dest kind on method args ty)
  | .newObject dest className => do
    let (a, h) := s.memory.heap.newObject (x.names.qualify className)
    return .next (← (s.setHeap h).write dest (.ref (some a)))
  | .newArray dest length element => do
    let (a, h) ← s.memory.heap.newArray (elementKind element.name) (x.elementName element.name)
      (← s.eval length)
    return .next (← (s.setHeap h).write dest (.ref (some a)))
  | .arrayLength dest array => do
    return .next (← s.write dest (← s.memory.heap.arrayLength (← s.eval array)))
  | .arrayStore array index value => do
    let a ← s.eval array
    let i ← s.eval index
    let v ← s.eval value
    if (Ty.scalar array.ty.name).admits v then
      return .next (s.setHeap (← w.setElement s.memory.heap (elementKind array.ty.name) a i v))
    else none
  | .fieldRead dest object field ty => do
    let key ← fieldKey x object field ty
    return .next (← s.write dest (← s.memory.heap.getField (← s.eval object) key))
  | .fieldWrite object field ty value => do
    let key ← fieldKey x object field ty
    let o ← s.eval object
    let v ← s.eval value
    return .next (s.setHeap (← s.memory.heap.putField o key v))
  | .ret none => some (.ret none s)
  | .ret (some value) => do
    let v ← s.eval value
    if x.returnTy.admits v then return .ret (some v) s else none
  | .branch condition target => do
    return if ← s.test condition then .jump target s else .next s
  | .jump target => some (.jump target s)
  | .label _ => some (.next s)

/-- Code as a machine: a jump goes to the first place of its label. -/
def codeMachine (w : World) (x : Setting) (code : List Instr) : Machine Instr State where
  code := code
  place? name := code.idxOf? (.label name)
  act := Instr.act w x

/-- A method as a machine: jumps go where its label map says. -/
def Method.machine (w : World) (x : Setting) (m : Method) : Machine Instr State where
  code := m.code
  place? := m.labelIndex?
  act := Instr.act w x

/-- What a method of a class knows of it. -/
def ClassUnit.setting (u : ClassUnit) (root : String) (m : Method) : Setting where
  names := u.classNames
  superClass := u.superName root
  returnTy := m.returnTy

end JavaMinus.Tac
