import JavaMinus.Proofs.Jvm.Held

/-!
# Values and memory

What programs compute with when they run, in source, three-address and stack machine code alike. A
value is an integer or a reference; truth values are the integers one and zero. Objects and arrays
live on a heap, where an address is a position, so what is allocated is always new.

Methods that are called are not looked into. A call is an event with everything that it is made with,
and the world answers it with a result and a heap, or with nothing where it raises an exception or
never returns (`World.calls`). What methods remember from one call to the next they keep on the heap.
The events are kept in order.

An operation gives nothing where it would raise an exception: on a null reference, outside an array,
and for an array of negative length.
-/

namespace JavaMinus.Runtime

open Jvm (ValueKind ArrayKind InvokeKind)

/-- An integer or a reference; the null reference has no address. -/
inductive Value where
  | int (value : Int32)
  | ref (address : Option Nat)
deriving DecidableEq, Inhabited

namespace Value

/-- How the value is held. -/
def kind : Value → ValueKind
  | .int _ => .int
  | .ref _ => .ref

/-- A truth value: one for true, zero for false. -/
def ofBool (b : Bool) : Value := .int (if b then 1 else 0)

/-- The integer, if it is one. -/
def int? : Value → Option Int32
  | .int n => some n
  | .ref _ => none

/-- What a reference refers to, if it is one. -/
def ref? : Value → Option (Option Nat)
  | .int _ => none
  | .ref a => some a

/-- The truth value, if it is one. -/
def bool? : Value → Option Bool
  | .int n => if n = 1 then some true else if n = 0 then some false else none
  | .ref _ => none

/-- The address of an object or array. Null has none. -/
def address? : Value → Option Nat
  | .int _ => none
  | .ref a => a

/-- What elements and fields hold before they are assigned. -/
def initial : ValueKind → Value
  | .int => .int 0
  | .ref => .ref none

theorem eq_int_of_kind {v : Value} (h : v.kind = .int) : ∃ n, v = .int n := by
  cases v with
  | int n => exact ⟨n, rfl⟩
  | ref a => cases h

theorem eq_ref_of_kind {v : Value} (h : v.kind = .ref) : ∃ a, v = .ref a := by
  cases v with
  | int n => cases h
  | ref a => exact ⟨a, rfl⟩

theorem int?_eq_some {v : Value} {n : Int32} : v.int? = some n ↔ v = .int n := by
  cases v <;> simp [int?]

theorem bool?_eq_some {v : Value} {b : Bool} : v.bool? = some b ↔ v = .ofBool b := by
  cases v with
  | ref a => simp [bool?, ofBool]
  | int n =>
    by_cases h1 : n = 1
    · subst h1
      cases b <;> simp [bool?, ofBool]
    by_cases h0 : n = 0
    · subst h0
      cases b <;> simp [bool?, ofBool]
    · cases b <;> simp [bool?, ofBool, h0, h1]

theorem bool?_ofBool (b : Bool) : (ofBool b).bool? = some b := bool?_eq_some.mpr rfl

theorem address?_eq_some {v : Value} {a : Nat} : v.address? = some a ↔ v = .ref (some a) := by
  cases v <;> simp [address?]

end Value

/-- A field, as class, name and descriptor. -/
structure FieldKey where
  owner : String
  name : String
  descriptor : String
deriving DecidableEq

/-- What a field holds before it is assigned. -/
def FieldKey.initial (k : FieldKey) : Value :=
  Value.initial (if k.descriptor = "I" ∨ k.descriptor = "Z" then .int else .ref)

/-- An array: what its elements are, the name of their type, and the elements. -/
structure Elements where
  kind : ArrayKind
  element : String
  values : List Value

/-- What lies at an address. -/
inductive Cell where
  | object (className : String) (fields : FieldKey → Value)
  | array (elements : Elements)

/-- Objects and arrays by address. -/
structure Heap where
  cells : List Cell := []

/-- A call with all that it is made with. A static call has no receiver. -/
structure Invocation where
  kind : InvokeKind
  owner : String
  name : String
  descriptor : String
  receiver : Option Nat
  args : List Value

/-- The heap, and the calls made so far. -/
structure Memory where
  heap : Heap := {}
  calls : List Invocation := []

/-- What is not known of the classes that a program uses. -/
structure World where
  /-- An array over the class takes the reference. -/
  takes : Heap → String → Value → Bool
  /-- A call gives a result, or none, and leaves a heap. -/
  calls : Invocation → Heap → Option (Option Value × Heap)

namespace Heap

/-- The heap with one more cell, and the address of the cell. -/
def allocate (h : Heap) (c : Cell) : Nat × Heap := (h.cells.length, ⟨h.cells ++ [c]⟩)

/-- The heap with another cell at an address. -/
def set (h : Heap) (a : Nat) (c : Cell) : Heap := ⟨h.cells.set a c⟩

/-- The object that a value refers to. -/
def object? (h : Heap) (v : Value) : Option (Nat × String × (FieldKey → Value)) := do
  let a ← v.address?
  match ← h.cells[a]? with
  | .object className fields => some (a, className, fields)
  | .array _ => none

/-- The array that a value refers to. -/
def array? (h : Heap) (v : Value) : Option (Nat × Elements) := do
  let a ← v.address?
  match ← h.cells[a]? with
  | .object .. => none
  | .array e => some (a, e)

/-- A new object, with its fields not yet assigned. -/
def newObject (h : Heap) (className : String) : Nat × Heap :=
  h.allocate (.object className FieldKey.initial)

/-- A new array of a kind over a type, with its elements not yet assigned. -/
def newArray (h : Heap) (kind : ArrayKind) (element : String) (length : Value) :
    Option (Nat × Heap) := do
  let n ← length.int?
  if 0 ≤ n then
    some (h.allocate (.array ⟨kind, element,
      List.replicate n.toInt.toNat (Value.initial kind.held)⟩))
  else none

def getField (h : Heap) (object : Value) (key : FieldKey) : Option Value := do
  let (_, _, fields) ← h.object? object
  return fields key

def putField (h : Heap) (object : Value) (key : FieldKey) (v : Value) : Option Heap := do
  let (a, className, fields) ← h.object? object
  return h.set a (.object className fun k => if k = key then v else fields k)

def arrayLength (h : Heap) (array : Value) : Option Value := do
  let (_, e) ← h.array? array
  return .int (.ofNat e.values.length)

/-- The element at an index of an array of a kind. -/
def getElement (h : Heap) (kind : ArrayKind) (array index : Value) : Option Value := do
  let (_, e) ← h.array? array
  let i ← index.int?
  if e.kind = kind ∧ 0 ≤ i then e.values[i.toInt.toNat]? else none

end Heap

namespace World

/-- The heap with another element at an index of an array of a kind. An array of references may
refuse one. -/
def setElement (w : World) (h : Heap) (kind : ArrayKind) (array index v : Value) : Option Heap := do
  let (a, e) ← h.array? array
  let i ← index.int?
  if e.kind = kind ∧ 0 ≤ i ∧ i.toInt.toNat < e.values.length ∧ v.kind = kind.held ∧
      (kind = .ref → w.takes h e.element v = true) then
    some (h.set a (.array { e with values := e.values.set i.toInt.toNat v }))
  else none

/-- Make a call. -/
def invoke (w : World) (call : Invocation) (m : Memory) : Option (Option Value × Memory) := do
  let (result, heap) ← w.calls call m.heap
  return (result, ⟨heap, m.calls ++ [call]⟩)

end World

end JavaMinus.Runtime

namespace JavaMinus

open JavaMinus.Runtime

/-- The result of an operator. Integers wrap around, and division by zero has no result; `&&` and
`||` have truth values for operands, which are both at hand; and values are compared for equality
with their like. -/
def BinaryOp.apply (op : BinaryOp) (left right : Value) : Option Value :=
  match op with
  | .add => ints fun a b => some (.int (a + b))
  | .sub => ints fun a b => some (.int (a - b))
  | .mul => ints fun a b => some (.int (a * b))
  | .div => ints fun a b => if b = 0 then none else some (.int (a / b))
  | .lt => ints fun a b => some (.ofBool (a < b))
  | .gt => ints fun a b => some (.ofBool (b < a))
  | .le => ints fun a b => some (.ofBool (a ≤ b))
  | .ge => ints fun a b => some (.ofBool (b ≤ a))
  | .eq => if left.kind = right.kind then some (.ofBool (left = right)) else none
  | .ne => if left.kind = right.kind then some (.ofBool (left ≠ right)) else none
  | .and => truths fun a b => some (.ofBool (a && b))
  | .or => truths fun a b => some (.ofBool (a || b))
where
  /-- Both operands as integers. -/
  ints (f : Int32 → Int32 → Option Value) : Option Value := do f (← left.int?) (← right.int?)
  /-- Both operands as truth values. -/
  truths (f : Bool → Bool → Option Value) : Option Value := do f (← left.bool?) (← right.bool?)

/-- The values of a type. A scalar `void` has none. -/
def Ty.admits (ty : Ty) : Value → Bool
  | .int n => ty.isInt || (ty.isBoolean && (n == 0 || n == 1))
  | .ref _ => ty.isReference

/-- The values of a type are held as the type says. -/
theorem Ty.kind_of_admits {ty : Ty} {v : Value} (h : ty.admits v = true) : v.kind = ty.kind := by
  cases v with
  | int n =>
    have hr : ty.isReference = false := by
      simp only [admits, isInt, isBoolean, Bool.or_eq_true, Bool.and_eq_true, Bool.not_eq_true',
        beq_iff_eq] at h
      rcases h with ⟨ha, hn⟩ | ⟨⟨ha, hn⟩, -⟩ <;> simp [isReference, hasPrimitiveName, ha, hn]
    exact (kind_eq_int hr).symm
  | ref a => exact (kind_of_isReference h).symm

end JavaMinus
