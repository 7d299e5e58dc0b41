import JavaMinus.Jvm.Select
import JavaMinus.Jvm.StackDepth
import JavaMinus.Tac.Listing

/-!
# Assembly

The assembly of a class, first as data and then as text. Whether a class has an assembly, and what
its methods, descriptors and limits are, is settled in the data; writing it down cannot fail.
-/

namespace JavaMinus.Jvm

open Tac

/-- A method in assembly. -/
structure MethodBlock where
  name : String
  descriptor : String
  isPublic : Bool
  isStatic : Bool
  maxStack : Nat
  maxLocals : Nat
  code : List Instr

/-- The text of a method, from its header to its end. -/
def MethodBlock.text (b : MethodBlock) : String :=
  ".method " ++ modifiers b.isPublic b.isStatic ++ b.name ++ b.descriptor ++ "\n" ++
    s!"\t.limit stack {b.maxStack}\n\t.limit locals {b.maxLocals}\n" ++
      String.join (b.code.map Instr.line) ++ ".end method\n"

/-- A class in assembly. -/
structure ClassFile where
  name : String
  superClass : String
  /-- Names with descriptors. -/
  fields : List (String × String)
  methods : List MethodBlock

/-- The text in front of the methods. -/
def ClassFile.header (f : ClassFile) : String :=
  s!".class public {f.name}\n.super {f.superClass}\n" ++
    (if f.fields.isEmpty then "" else "\n") ++
      String.join (f.fields.map fun p => s!".field public {p.1} {p.2}\n")

/-- The text of a class. -/
def ClassFile.text (f : ClassFile) : String :=
  f.header ++ String.join (f.methods.map fun b => "\n" ++ b.text)

/-- The superclass of classes that declare none. -/
def defaultRootClass : String := "java/lang/Object"

end JavaMinus.Jvm

namespace JavaMinus.Tac.ClassUnit

open Jvm

/-- The class names known inside the class. -/
def classNames (u : ClassUnit) : ClassNames := ⟨u.name, u.imports⟩

/-- The assembly name of the superclass, `root` where none is declared. -/
def superName (u : ClassUnit) (root : String) : String :=
  match u.superClass with
  | some name => u.classNames.qualify name
  | none => root

/-- The context of a method of the class. -/
def context (u : ClassUnit) (root : String) (m : Method) (slots : SlotTable) : MethodContext where
  names := u.classNames
  superClass := u.superName root
  isStatic := m.isStatic
  returnTy := m.returnTy
  slots := slots

/-- The assembly of a method of the class. -/
def methodBlock (u : ClassUnit) (root : String) (m : Method) : Result MethodBlock := do
  let slots ← SlotTable.ofMethod m
  let code ← (u.context root m slots).select m.code
  let depth ← maxStack code
  let descriptor ← u.classNames.methodDescriptor (m.params.map Operand.ty) m.returnTy
  return {
    name := m.name
    descriptor
    isPublic := m.isPublic
    isStatic := m.isStatic
    maxStack := depth
    maxLocals := slots.limit
    code }

/-- A field with its descriptor. -/
def fieldEntry (u : ClassUnit) (f : Symbol) : Result (String × String) := do
  return (f.name, ← u.classNames.descriptor f.ty)

/-- The assembly of the class. -/
def classFile (u : ClassUnit) (root : String) : Result ClassFile := do
  let fields ← u.fields.mapM u.fieldEntry
  let methods ← u.methods.mapM (u.methodBlock root)
  return { name := u.name, superClass := u.superName root, fields, methods }

end JavaMinus.Tac.ClassUnit
