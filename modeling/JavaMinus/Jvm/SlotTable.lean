import Std.Data.HashMap
import JavaMinus.Jvm.Error
import JavaMinus.Tac.ClassUnit

/-!
# Local slots

Every parameter, variable and temporary of a method lives in a slot of its own. An instance method
keeps its receiver in slot zero. Then come the parameters in order, and after them whatever else the
code mentions, in the order of its first mention; inside an array element the array comes before the
index.
-/

namespace JavaMinus.Jvm

open Tac

/-- What a slot is given to. Two operands share a slot when they have one key. -/
inductive SlotKey where
  | temp (id : Nat)
  | var (name : String)
deriving DecidableEq, Hashable, Inhabited

/-- The slots of a method, and the number of slots in use. -/
structure SlotTable where
  slots : Std.HashMap SlotKey Nat := {}
  limit : Nat

/-- The key of an operand that lives in a slot. -/
def slotKey? : Operand → Option SlotKey
  | .temp id _ => some (.temp id)
  | .var name _ => some (.var name)
  | _ => none

/-- The keys inside an operand, in the order in which they are met. -/
def slotKeys : Operand → List SlotKey
  | .temp id _ => [.temp id]
  | .var name _ => [.var name]
  | .element array index _ => slotKeys array ++ slotKeys index
  | _ => []

namespace SlotTable

/-- Give a key the next slot, unless it has one. -/
def allocate (t : SlotTable) (key : SlotKey) : Result SlotTable :=
  if t.slots.contains key then .ok t
  else if t.limit < wordLimit then .ok ⟨t.slots.insert key t.limit, t.limit + 1⟩
  else .error .tooManyLocals

/-- Give slots to keys in order. -/
def allocateAll (t : SlotTable) : List SlotKey → Result SlotTable
  | [] => .ok t
  | key :: rest =>
    match t.allocate key with
    | .ok t => allocateAll t rest
    | .error e => .error e

/-- The keys of a method in the order in which they are given slots. -/
def keysOf (m : Method) : List SlotKey :=
  m.params.flatMap slotKeys ++ m.code.flatMap fun i => i.operands.flatMap slotKeys

/-- The slots of a method. -/
def ofMethod (m : Method) : Result SlotTable :=
  allocateAll { limit := if m.isStatic then 0 else 1 } (keysOf m)

/-- The slot of an operand that lives in one. -/
def slot (t : SlotTable) (operand : Operand) : Result Nat :=
  match (slotKey? operand).bind fun key => t.slots[key]? with
  | some slot => .ok slot
  | none => .error (.noSlot operand)

end SlotTable

end JavaMinus.Jvm
