/-!
# Stack machine instructions

The instructions that generated code uses, with their assembly text, their effect on the height of
the operand stack and where they pass control. Labels are listed among the instructions. Every
value takes one cell of the stack and one local slot.
-/

namespace JavaMinus.Jvm

/-- How a single value is held: integers and booleans as integers, all else as references. -/
inductive ValueKind where
  | int
  | ref
deriving DecidableEq, Inhabited

/-- What the elements of an array are. -/
inductive ArrayKind where
  | int
  | boolean
  | ref
deriving DecidableEq, Inhabited

/-- The test of a conditional jump. -/
inductive Comparison where
  | eq
  | ne
  | lt
  | ge
  | gt
  | le
deriving DecidableEq, Inhabited

/-- How a method is found. -/
inductive InvokeKind where
  | static
  | virtual
  | special
deriving DecidableEq, Inhabited

/-- An operation on the two integers on top of the stack. -/
inductive Arith where
  | add
  | sub
  | mul
  | div
  | and
  | or
  | xor
deriving DecidableEq, Inhabited

/-- An instruction or a label. -/
inductive Instr where
  | load (kind : ValueKind) (slot : Nat)
  | store (kind : ValueKind) (slot : Nat)
  | const (value : Int32)
  | getField (owner name descriptor : String)
  | putField (owner name descriptor : String)
  /-- A call; `argCount` does not count the receiver. -/
  | invoke (kind : InvokeKind) (owner name descriptor : String) (argCount : Nat)
      (returnsValue : Bool)
  | new (className : String)
  | dup
  | pop
  /-- An array of a primitive type. -/
  | newArray (element : String)
  /-- An array of references. -/
  | newRefArray (className : String)
  | arrayLength
  | arrayLoad (kind : ArrayKind)
  | arrayStore (kind : ArrayKind)
  | arith (op : Arith)
  /-- Jump when the two integers on top compare so. -/
  | ifInts (test : Comparison) (target : String)
  /-- Jump when the two references on top compare so. -/
  | ifRefs (test : Comparison) (target : String)
  /-- Jump when the integer on top is not zero. -/
  | ifTrue (target : String)
  | goto (target : String)
  | label (name : String)
  | ret (kind : Option ValueKind)
deriving DecidableEq, Inhabited

/-- The letter of a kind of value. -/
def ValueKind.letter : ValueKind → String
  | .int => "i"
  | .ref => "a"

/-- The letter of a kind of array. -/
def ArrayKind.letter : ArrayKind → String
  | .int => "i"
  | .boolean => "b"
  | .ref => "a"

def Comparison.text : Comparison → String
  | .eq => "eq"
  | .ne => "ne"
  | .lt => "lt"
  | .ge => "ge"
  | .gt => "gt"
  | .le => "le"

def InvokeKind.text : InvokeKind → String
  | .static => "invokestatic"
  | .virtual => "invokevirtual"
  | .special => "invokespecial"

def Arith.text : Arith → String
  | .add => "iadd"
  | .sub => "isub"
  | .mul => "imul"
  | .div => "idiv"
  | .and => "iand"
  | .or => "ior"
  | .xor => "ixor"

/-- A slot after its operation: the first four slots have operations of their own. -/
def slotText (operation : String) (slot : Nat) : String :=
  if slot ≤ 3 then s!"{operation}_{slot}" else s!"{operation} {slot}"

/-- The shortest instruction for a constant: small ones have instructions of their own, then come
one-byte and two-byte operands, and the constant pool for the rest. -/
def constText (value : Int) : String :=
  if value = -1 then "iconst_m1"
  else if 0 ≤ value ∧ value ≤ 5 then s!"iconst_{value}"
  else if -128 ≤ value ∧ value ≤ 127 then s!"bipush {value}"
  else if -32768 ≤ value ∧ value ≤ 32767 then s!"sipush {value}"
  else s!"ldc {value}"

namespace Instr

/-- The assembly text, without indentation. -/
def text : Instr → String
  | .load k n => slotText (k.letter ++ "load") n
  | .store k n => slotText (k.letter ++ "store") n
  | .const v => constText v.toInt
  | .getField o n d => s!"getfield {o}/{n} {d}"
  | .putField o n d => s!"putfield {o}/{n} {d}"
  | .invoke k o n d _ _ => s!"{k.text} {o}/{n}{d}"
  | .new c => s!"new {c}"
  | .dup => "dup"
  | .pop => "pop"
  | .newArray t => s!"newarray {t}"
  | .newRefArray c => s!"anewarray {c}"
  | .arrayLength => "arraylength"
  | .arrayLoad k => k.letter ++ "aload"
  | .arrayStore k => k.letter ++ "astore"
  | .arith op => op.text
  | .ifInts t l => s!"if_icmp{t.text} {l}"
  | .ifRefs t l => s!"if_acmp{t.text} {l}"
  | .ifTrue l => s!"ifne {l}"
  | .goto l => s!"goto {l}"
  | .label n => s!"{n}:"
  | .ret none => "return"
  | .ret (some k) => k.letter ++ "return"

/-- The change of the stack's height. -/
def effect : Instr → Int
  | .load .. | .const _ | .new _ | .dup => 1
  | .store .. | .pop => -1
  | .getField .. => 0
  | .putField .. => -2
  | .invoke k _ _ _ n r => (if r then 1 else 0) - n - (if k = .static then 0 else 1)
  | .newArray _ | .newRefArray _ | .arrayLength => 0
  | .arrayLoad _ => -1
  | .arrayStore _ => -3
  | .arith _ => -1
  | .ifInts .. | .ifRefs .. => -2
  | .ifTrue _ => -1
  | .goto _ | .label _ => 0
  | .ret (some _) => -1
  | .ret none => 0

/-- The label that the instruction may jump to. -/
def target? : Instr → Option String
  | .ifInts _ l | .ifRefs _ l | .ifTrue l | .goto l => some l
  | _ => none

/-- Control never passes to the next instruction. -/
def isTerminator : Instr → Bool
  | .goto _ | .ret _ => true
  | _ => false

/-- The instruction is a label. -/
def isLabel : Instr → Bool
  | .label _ => true
  | _ => false

/-- The line of an instruction: labels stand at the margin. -/
def line (i : Instr) : String := if i.isLabel then i.text ++ "\n" else "\t" ++ i.text ++ "\n"

end Instr

end JavaMinus.Jvm
