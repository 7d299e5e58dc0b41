import JavaMinus.SymbolTable
import JavaMinus.Tac.Instr

/-!
# Methods and classes of three-address code

A method holds its instructions as one list, and beside it a map that says where its labels stand.
Code comes into a method instruction by instruction (`Method.push`, `Method.extend`), and the map is
filled on the way. A class starts with the constructor that every class has without declaring one.
-/

namespace JavaMinus.Tac

/-- The name of constructors. -/
def constructorName : String := "<init>"

/-- The labels that are placed, each with the index of the instruction that places it. -/
abbrev LabelMap := List (String × Nat)

namespace LabelMap

/-- Set the index of a label. An index that the label had before is given up. -/
def set (labels : LabelMap) (name : String) (index : Nat) : LabelMap :=
  labels.filter (fun p => p.1 != name) ++ [(name, index)]

/-- The map when an instruction is placed at an index. -/
def place (labels : LabelMap) (index : Nat) (i : Instr) : LabelMap :=
  match i.label? with
  | some name => labels.set name index
  | none => labels

/-- The map when code is placed, its first instruction at an index. -/
def placeAll (labels : LabelMap) (index : Nat) : List Instr → LabelMap
  | [] => labels
  | i :: rest => placeAll (labels.place index i) (index + 1) rest

end LabelMap

/-- A method. -/
structure Method where
  name : String
  isPublic : Bool := false
  isStatic : Bool := false
  params : List Operand := []
  returnTy : Ty
  code : List Instr := []
  /-- Code that is given all at once has its labels entered from the first instruction on. -/
  labels : LabelMap := LabelMap.placeAll [] 0 code
deriving DecidableEq, Inhabited

namespace Method

/-- The method with an instruction at its end. A label is entered as it is placed. -/
def push (m : Method) (i : Instr) : Method :=
  { m with code := m.code ++ [i], labels := m.labels.place m.code.length i }

/-- The method with more code at its end. -/
def extend (m : Method) (code : List Instr) : Method := code.foldl push m

/-- The constructor without arguments: it runs the one of the superclass and returns. -/
def constructor (self : Ty) : Method :=
  let empty : Method := { name := constructorName, isPublic := true, returnTy := Ty.void }
  (empty.push (.call none .constructor (.self self) constructorName [] Ty.void)).push (.ret none)

def isConstructor (m : Method) : Bool := m.name == constructorName

/-- The last instruction is a return. -/
def endsWithReturn (m : Method) : Bool := m.code.getLast?.any Instr.isReturn

/-- The index of a label. -/
def labelIndex? (m : Method) (name : String) : Option Nat := m.labels.lookup name

end Method

/-- A class. -/
structure ClassUnit where
  name : String
  superClass : Option String := none
  /-- Dotted names. -/
  imports : List String := []
  fields : List Symbol := []
  /-- The constructor first. -/
  methods : List Method := [Method.constructor (Ty.scalar name)]
deriving DecidableEq, Inhabited

namespace ClassUnit

/-- The class with a method added at the end. -/
def addMethod (u : ClassUnit) (m : Method) : ClassUnit := { u with methods := u.methods ++ [m] }

/-- The first method of a name. -/
def method? (u : ClassUnit) (name : String) : Option Method :=
  u.methods.find? fun m => m.name == name

/-- The number of instructions of all methods. -/
def instructionCount (u : ClassUnit) : Nat := u.methods.foldr (fun m count => m.code.length + count) 0

end ClassUnit

end JavaMinus.Tac
