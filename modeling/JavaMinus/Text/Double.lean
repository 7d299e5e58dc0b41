import JavaMinus.Text.Digits

/-!
# The range of doubles

Which decimal numerals are too large for a double, decided in exact arithmetic. No double is
computed.
-/

namespace JavaMinus.Text

/-- The middle between the largest double and the next power of two: from here on, rounding gives
infinity. -/
def infinityBound : Nat := Nat.pow 2 1024 - Nat.pow 2 970

/-- Digits scaled by a power of ten round to infinity. -/
def exceedsDouble (digits : List Char) (exponent : Int) : Bool :=
  let digits := digits.dropWhile (· == '0')
  let size := digits.length + exponent
  if digits.isEmpty || size < 300 then false
  else if 320 < size then true
  else
    ofDigits 10 digits * Nat.pow 10 exponent.toNat ≥ infinityBound * Nat.pow 10 (-exponent).toNat

/-- A number rounded to the 53 bits of a double, a half to the even neighbour. -/
def roundToDouble (n : Nat) : Nat :=
  let unit := Nat.pow 2 (n.log2 - 52)
  let rest := 2 * (n % unit)
  let roundsUp := unit < rest || (unit == rest && n / unit % 2 == 1)
  (if roundsUp then n / unit + 1 else n / unit) * unit

/-- A number of at most 53 bits is a double. -/
theorem roundToDouble_of_lt {n : Nat} (h : n < Nat.pow 2 53) : roundToDouble n = n := by
  have hlog : n.log2 - 52 = 0 := by
    by_cases hn : n = 0
    · simp [hn]
    · have := (Nat.log2_lt hn).2 h
      omega
  simp [roundToDouble, hlog, Nat.mod_one]

end JavaMinus.Text
