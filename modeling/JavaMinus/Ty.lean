/-!
# Types

A type is a primitive tag or a class name, as a scalar or as an array of it. The varargs mark says
that an array parameter takes a variable number of arguments; it is not part of what a type is, so
`Ty.agrees` does not look at it and `Ty.plain` removes it. Structural equality stays available: two
types are equal when all three components are.

Arrays have one dimension, so the element of an array is always a scalar.
-/

namespace JavaMinus

/-- A primitive tag or a class name, as a scalar or as an array, possibly marked varargs. -/
structure Ty where
  name : String
  isArray : Bool := false
  isVarargs : Bool := false
deriving DecidableEq, Inhabited

namespace Ty

/-- The scalar type of a name. -/
def scalar (name : String) : Ty := { name }

/-- The array type over a name. -/
def array (name : String) : Ty := { name, isArray := true }

def int : Ty := scalar "int"
def intArray : Ty := array "int"
def boolean : Ty := scalar "boolean"
def void : Ty := scalar "void"
def string : Ty := scalar "String"

/-- Two types agree when they have the same name and shape; the varargs mark does not matter. -/
def agrees (s t : Ty) : Bool := s.name == t.name && s.isArray == t.isArray

/-- The type of a varargs parameter over the same name. -/
def varargs (t : Ty) : Ty := { t with isArray := true, isVarargs := true }

/-- The type without its varargs mark. -/
def plain (t : Ty) : Ty := { t with isVarargs := false }

/-- The scalar `int`. -/
def isInt (t : Ty) : Bool := !t.isArray && t.name == "int"

/-- The scalar `boolean`. -/
def isBoolean (t : Ty) : Bool := !t.isArray && t.name == "boolean"

/-- Whatever is named `void`, also an array of it. -/
def isVoid (t : Ty) : Bool := t.name == "void"

/-- One of the three primitive tags names the type. -/
def hasPrimitiveName (t : Ty) : Bool := t.name == "int" || t.name == "boolean" || t.name == "void"

/-- Arrays, and scalars that no primitive tag names, are held as references. -/
def isReference (t : Ty) : Bool := t.isArray || !t.hasPrimitiveName

/-- The scalar that an array holds; a scalar has none. -/
def element? (t : Ty) : Option Ty := if t.isArray then some (scalar t.name) else none

theorem element?_eq_some {t u : Ty} : t.element? = some u ↔ t.isArray = true ∧ u = scalar t.name := by
  rw [element?]
  split
  · next ha => simp only [ha, Option.some.injEq, true_and, eq_comm]
  · next ha => simp only [ha, reduceCtorEq, false_and]

/-- The written form: `int`, `int[]`, `int...`. A varargs mark on a scalar is not written. -/
def text (t : Ty) : String :=
  if t.isArray then if t.isVarargs then t.name ++ "..." else t.name ++ "[]" else t.name

@[simp] theorem plain_plain (t : Ty) : t.plain.plain = t.plain := rfl

@[simp] theorem agrees_self (t : Ty) : t.agrees t = true := by simp [agrees]

@[simp] theorem plain_agrees (s t : Ty) : s.plain.agrees t = s.agrees t := rfl

@[simp] theorem agrees_plain (s t : Ty) : s.agrees t.plain = s.agrees t := rfl

/-- Types agree exactly when they are equal up to the varargs mark. -/
theorem agrees_iff {s t : Ty} : s.agrees t = true ↔ s.plain = t.plain := by
  cases s; cases t; simp [agrees, plain]

end Ty

end JavaMinus
