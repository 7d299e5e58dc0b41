import Std.Data.HashMap
import JavaMinus.Jvm.Error
import JavaMinus.Jvm.Instr

/-!
# Stack depth

How high the operand stack of a method gets, found in one pass over its code. A jump records the
height at its target; code behind a jump or a return is not reached until the next label, which
takes up the recorded height. Where a label is reached both ways the two heights must agree. A label
that nothing has reached yet can only be the target of a jump back, and starts empty.
-/

namespace JavaMinus.Jvm

/-- What the pass knows at a point of the code. -/
structure DepthScan where
  /-- The height at every label met or jumped to so far. -/
  labels : Std.HashMap String Int := {}
  /-- The height here, where control can be here. -/
  height : Option Int := some 0
  /-- The greatest height so far. -/
  peak : Int := 0

namespace DepthScan

/-- Meet a label. -/
def atLabel (s : DepthScan) (name : String) : Result DepthScan :=
  match s.height, s.labels[name]? with
  | some here, some recorded =>
    if here = recorded then .ok { s with labels := s.labels.insert name here }
    else .error (.heightMismatch name here recorded)
  | some here, none => .ok { s with labels := s.labels.insert name here }
  | none, some recorded =>
    .ok { s with labels := s.labels.insert name recorded, height := some recorded }
  | none, none => .ok { s with labels := s.labels.insert name 0, height := some 0 }

/-- Run an instruction that is no label. Pushes come after pops, so the greatest height is met
before or after it. -/
def atInstr (s : DepthScan) (i : Instr) : Result DepthScan :=
  match s.height with
  | none => .ok s
  | some here =>
    let next := here + i.effect
    if next < 0 then .error (.underflow i.text)
    else .ok {
      labels := match i.target? with
        | some target => s.labels.insertIfNew target next
        | none => s.labels
      height := if i.isTerminator then none else some next
      peak := max (max s.peak here) next }

/-- Pass one instruction or label. -/
def step (s : DepthScan) : Instr → Result DepthScan
  | .label name => s.atLabel name
  | i => s.atInstr i

/-- Pass code in order. -/
def run (s : DepthScan) : List Instr → Result DepthScan
  | [] => .ok s
  | i :: rest =>
    match s.step i with
    | .ok s => run s rest
    | .error e => .error e

end DepthScan

/-- The greatest height of the operand stack in code. -/
def maxStack (code : List Instr) : Result Nat :=
  match DepthScan.run {} code with
  | .ok s => if s.peak ≤ wordLimit then .ok s.peak.toNat else .error .stackTooDeep
  | .error e => .error e

end JavaMinus.Jvm
