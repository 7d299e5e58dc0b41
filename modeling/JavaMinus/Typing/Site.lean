import JavaMinus.Ty

/-!
# Sites

The site of an expression is what the construct around it does with the value. It matters for one
kind of expression only: a call of a method that the class does not declare has the type that its
site expects, since its own is not known.
-/

namespace JavaMinus

/-- What is done with the value of an expression. -/
inductive Site where
  /-- The value is dropped. -/
  | discarded
  /-- The value is stored into a variable or element of the given type. -/
  | assigned (ty : Ty)
  /-- The value is returned from a method of the given return type. -/
  | returned (ty : Ty)
  /-- The value is passed to a method; the parameter's type, where the method is known. -/
  | argument (ty : Option Ty)
  /-- The value is an operand, index, condition, element or receiver; the type that is wanted
  there, if any. -/
  | operand (ty : Option Ty)
deriving DecidableEq, Inhabited

namespace Site

/-- The type that the site expects, if it expects one. -/
def expected? : Site → Option Ty
  | .discarded => none
  | .assigned ty => some ty
  | .returned ty => some ty
  | .argument ty => ty
  | .operand ty => ty

/-- The site uses the value. -/
def consumesValue : Site → Bool
  | .discarded => false
  | _ => true

/-- The site passes the value to a method. -/
def isArgument : Site → Bool
  | .argument _ => true
  | _ => false

/-- The site of an operand that is wanted with a type. -/
def wanting (ty : Ty) : Site := .operand (some ty)

/-- The site of an operand of which nothing is known. -/
def unknown : Site := .operand none

end Site

end JavaMinus
