/-!
# Digits

Digits to bases up to sixteen, written with figures and then letters.
-/

namespace JavaMinus.Text

/-- The value of a digit; letters may be small or capital. -/
def digitValue? (c : Char) : Option Nat :=
  if c.isDigit then some (c.toNat - '0'.toNat)
  else if 'a' ≤ c ∧ c ≤ 'f' then some (c.toNat - 'a'.toNat + 10)
  else if 'A' ≤ c ∧ c ≤ 'F' then some (c.toNat - 'A'.toNat + 10)
  else none

/-- The digit of a value below sixteen, in small letters. -/
def digitChar (n : Nat) : Char := if n < 10 then Char.ofNat (48 + n) else Char.ofNat (87 + n)

/-- The digit has a value below the base. -/
def isDigitOf (base : Nat) (c : Char) : Bool := (digitValue? c).any fun d => d < base

/-- The number that digits spell. -/
def ofDigits (base : Nat) (digits : List Char) : Nat :=
  digits.foldl (fun n c => n * base + (digitValue? c).getD 0) 0

/-- Reading a written digit gives its value. -/
theorem digitValue?_digitChar : ∀ n < 16, digitValue? (digitChar n) = some n := by decide

end JavaMinus.Text
