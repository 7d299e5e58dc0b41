import JavaMinus.Jvm.Error

/-!
# Class names and descriptors

The source text names a class by its last segment; assembly names it by its whole path with
slashes. The imports of the class being compiled say which path a name stands for.

A descriptor spells a type in assembly, and a method's descriptor those of its parameters and
result.
-/

namespace JavaMinus.Jvm

/-- What is known of class names inside one class. -/
structure ClassNames where
  className : String
  /-- Dotted names. -/
  imports : List String

/-- A dotted name with slashes for its dots. -/
def slashed (dotted : String) : String := dotted.map fun c => if c = '.' then '/' else c

/-- An import offers a name: it is the name, or ends with a dot and the name. -/
def offers (name dotted : String) : Bool :=
  dotted == name || ('.' :: name.toList).isSuffixOf dotted.toList

/-- The longest of the given names, in bytes; of equally long ones the last. -/
def longest : List String → Option String
  | [] => none
  | n :: rest =>
    match longest rest with
    | some m => if n.utf8ByteSize ≤ m.utf8ByteSize then some m else some n
    | none => some n

namespace ClassNames

/-- The assembly name of a class. The class itself and `String` are known without import; of the
imports that offer the name the longest wins; and a name that nothing offers stays as it is. -/
def qualify (n : ClassNames) (name : String) : String :=
  if name == n.className then name
  else if name == "String" then "java/lang/String"
  else ((longest (n.imports.filter (offers name))).map slashed).getD name

/-- The descriptor of a type as a scalar. -/
def scalarDescriptor (n : ClassNames) (name : String) : String :=
  if name == "int" then "I"
  else if name == "boolean" then "Z"
  else if name == "void" then "V"
  else "L" ++ n.qualify name ++ ";"

/-- The descriptor of a type. There are no arrays of `void`. -/
def descriptor (n : ClassNames) (ty : Ty) : Result String :=
  if ty.isArray then
    if ty.isVoid then .error .voidArrayDescriptor else .ok ("[" ++ n.scalarDescriptor ty.name)
  else .ok (n.scalarDescriptor ty.name)

/-- The descriptor of a parameter: any type but `void`. -/
def paramDescriptor (n : ClassNames) (ty : Ty) : Result String :=
  if ty.isVoid && !ty.isArray then .error .voidParameter else n.descriptor ty

/-- The descriptor of a method: its parameters in parentheses, then its result. -/
def methodDescriptor (n : ClassNames) (params : List Ty) (returnTy : Ty) : Result String := do
  let params ← params.mapM n.paramDescriptor
  let result ← n.descriptor returnTy
  return "(" ++ String.join params ++ ")" ++ result

end ClassNames

end JavaMinus.Jvm
