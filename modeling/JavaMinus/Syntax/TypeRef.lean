import JavaMinus.Span
import JavaMinus.Ty

/-!
# Written types

A type as the programmer wrote it, with its place in the text. `TypeRef.ty` is its meaning: the
brackets or the dots make an array, and only the dots leave the varargs mark.
-/

namespace JavaMinus

/-- The word that names a type. -/
inductive TypeWord where
  | int
  | boolean
  | void
  | string
  | named (name : String)
deriving DecidableEq, Inhabited

/-- The name that the checker knows the type by. -/
def TypeWord.name : TypeWord → String
  | .int => "int"
  | .boolean => "boolean"
  | .void => "void"
  | .string => "String"
  | .named name => name

/-- A written type: `int`, `int[]`, `int...`, `Foo`. -/
structure TypeRef where
  word : TypeWord
  isArray : Bool := false
  isVarargs : Bool := false
  span : Span := {}
deriving DecidableEq, Inhabited

namespace TypeRef

/-- The type that a written type denotes. -/
def ty (a : TypeRef) : Ty :=
  let base : Ty := { name := a.word.name, isArray := a.isArray }
  if a.isVarargs then base.varargs else base

/-- A type written varargs denotes an array, whether or not it is also written as one. -/
theorem isArray_ty_of_isVarargs {a : TypeRef} (h : a.ty.isVarargs = true) :
    a.ty.isArray = true := by
  unfold ty at h ⊢
  split <;> simp_all [Ty.varargs]

end TypeRef

end JavaMinus
