/-!
# Checking policy

One class is checked without the text of what it imports or extends. Two flags say how much good
faith fills that gap.
-/

namespace JavaMinus

/-- What the checker grants to classes it cannot see. -/
structure Policy where
  /-- Any two imported class names are assignable to each other. -/
  lenientImports : Bool := true
  /-- A class with a superclass may call methods that it does not declare. -/
  trustSuperclass : Bool := true
deriving DecidableEq, Inhabited

/-- The policy that grants nothing. -/
def Policy.strict : Policy := ⟨false, false⟩

end JavaMinus
