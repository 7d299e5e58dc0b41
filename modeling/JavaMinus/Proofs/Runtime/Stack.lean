import JavaMinus.Proofs.Runtime.ThreeAddress

/-!
# Running stack machine code

The abstract machine that selected code runs on: local slots, an operand stack and memory. It is
strict about kinds. An instruction acts only if the values on the stack are held as it needs them,
and a load or store only if the value is held as its own kind; so code that runs here also runs
where kinds are checked beforehand.
-/

namespace JavaMinus.Jvm

open JavaMinus.Runtime

/-- The values of slots, the operand stack with its top first, and memory. -/
structure State where
  locals : Nat → Option Value
  stack : List Value := []
  memory : Memory := {}

/-- The comparison of two integers holds. -/
def Comparison.ofInts (test : Comparison) (a b : Int32) : Bool :=
  match test with
  | .eq => a = b
  | .ne => a ≠ b
  | .lt => a < b
  | .ge => b ≤ a
  | .gt => b < a
  | .le => a ≤ b

/-- The comparison of two references holds; they are not ordered. -/
def Comparison.ofRefs? (test : Comparison) (a b : Option Nat) : Option Bool :=
  match test with
  | .eq => some (a = b)
  | .ne => some (a ≠ b)
  | _ => none

/-- The result of an operation on integers, which wrap around. -/
def Arith.apply (op : Arith) (a b : Int32) : Option Int32 :=
  match op with
  | .add => some (a + b)
  | .sub => some (a - b)
  | .mul => some (a * b)
  | .div => if b = 0 then none else some (a / b)
  | .and => some (a &&& b)
  | .or => some (a ||| b)
  | .xor => some (a ^^^ b)

/-- What an array of a kind keeps of a value: of a truth value the last bit. -/
def ArrayKind.keeps : ArrayKind → Value → Value
  | .boolean, .int n => .int (n &&& 1)
  | _, v => v

namespace State

/-- The state with another stack. -/
def setStack (s : State) (stack : List Value) : State := { s with stack }

/-- Push a value. -/
def push (s : State) (v : Value) : State := s.setStack (v :: s.stack)

/-- Pop the topmost value. -/
def pop (s : State) : Option (Value × State) :=
  match s.stack with
  | v :: stack => some (v, s.setStack stack)
  | [] => none

/-- The state with another heap. -/
def setHeap (s : State) (h : Heap) : State := { s with memory := { s.memory with heap := h } }

/-- A jump that is taken, or not. -/
def branch (s : State) (taken : Bool) (target : String) : Action State :=
  if taken then .jump target s else .next s

/-- The receiver of a call, and what is on the stack below it. -/
def receiver : InvokeKind → List Value → Option (Option Nat × List Value)
  | .static, stack => some (none, stack)
  | _, .ref (some a) :: stack => some (some a, stack)
  | _, _ => none

/-- Make a call with the topmost values and the receiver below them. -/
def invoke (s : State) (w : World) (kind : InvokeKind) (owner name descriptor : String) (count : Nat)
    (returns : Bool) : Option State := do
  if s.stack.length < count then none
  else
    let (object, stack) ← receiver kind (s.stack.drop count)
    let (result, memory) ←
      w.invoke ⟨kind, owner, name, descriptor, object, (s.stack.take count).reverse⟩ s.memory
    if result.isSome = returns then some { s with stack := result.toList ++ stack, memory } else none

end State

/-- What an instruction does. A return leaves nothing on the stack. -/
def Instr.act (w : World) (i : Instr) (s : State) : Option (Action State) :=
  match i with
  | .load kind slot => do
    let v ← s.locals slot
    if v.kind = kind then return .next (s.push v) else none
  | .store kind slot => do
    let (v, s) ← s.pop
    if v.kind = kind then
      return .next { s with locals := Function.update s.locals slot (some v) }
    else none
  | .const value => some (.next (s.push (.int value)))
  | .getField owner name descriptor => do
    let (o, s) ← s.pop
    return .next (s.push (← s.memory.heap.getField o ⟨owner, name, descriptor⟩))
  | .putField owner name descriptor => do
    let (v, s) ← s.pop
    let (o, s) ← s.pop
    return .next (s.setHeap (← s.memory.heap.putField o ⟨owner, name, descriptor⟩ v))
  | .invoke kind owner name descriptor count returns => do
    return .next (← s.invoke w kind owner name descriptor count returns)
  | .new className =>
    let (a, h) := s.memory.heap.newObject className
    some (.next ((s.push (.ref (some a))).setHeap h))
  | .dup => do
    let (v, s) ← s.pop
    return .next ((s.push v).push v)
  | .pop => do
    let (_, s) ← s.pop
    return .next s
  | .newArray element => do
    let (n, s) ← s.pop
    let (a, h) ← s.memory.heap.newArray (elementKind element) element n
    return .next ((s.push (.ref (some a))).setHeap h)
  | .newRefArray className => do
    let (n, s) ← s.pop
    let (a, h) ← s.memory.heap.newArray .ref className n
    return .next ((s.push (.ref (some a))).setHeap h)
  | .arrayLength => do
    let (a, s) ← s.pop
    return .next (s.push (← s.memory.heap.arrayLength a))
  | .arrayLoad kind => do
    let (i, s) ← s.pop
    let (a, s) ← s.pop
    return .next (s.push (← s.memory.heap.getElement kind a i))
  | .arrayStore kind => do
    let (v, s) ← s.pop
    let (i, s) ← s.pop
    let (a, s) ← s.pop
    return .next (s.setHeap (← w.setElement s.memory.heap kind a i (kind.keeps v)))
  | .arith op => do
    let (b, s) ← s.pop
    let (a, s) ← s.pop
    return .next (s.push (.int (← op.apply (← a.int?) (← b.int?))))
  | .ifInts test target => do
    let (b, s) ← s.pop
    let (a, s) ← s.pop
    return s.branch (test.ofInts (← a.int?) (← b.int?)) target
  | .ifRefs test target => do
    let (b, s) ← s.pop
    let (a, s) ← s.pop
    return s.branch (← test.ofRefs? (← a.ref?) (← b.ref?)) target
  | .ifTrue target => do
    let (v, s) ← s.pop
    return s.branch ((← v.int?) ≠ 0) target
  | .goto target => some (.jump target s)
  | .label _ => some (.next s)
  | .ret none => some (.ret none (s.setStack []))
  | .ret (some kind) => do
    let (v, s) ← s.pop
    if v.kind = kind then return .ret (some v) (s.setStack []) else none

/-- Code as a machine: a jump goes to the first place of its label. -/
def machine (w : World) (code : List Instr) : Machine Instr State where
  code := code
  place? name := code.idxOf? (.label name)
  act := Instr.act w

end JavaMinus.Jvm
