import JavaMinus.Text.Double

/-!
# JSON numbers

The parts of a number as it is spelled, and whether a double can hold it. A number becomes a double
in two roundings: its leading digits, as far as they fit 64 bits, are rounded first, and then they
are scaled by a power of ten that is itself rounded. Whether the result is infinite is decided here
in exact arithmetic. A number too small is zero, and so only large ones are out of range.
-/

namespace JavaMinus.Json

/-- A number without its sign, as it is spelled. -/
structure Number where
  whole : List Char
  fraction : List Char := []
  exponent : Int := 0
  /-- There is neither a fraction nor an exponent. -/
  isInteger : Bool := false
deriving DecidableEq, Inhabited

namespace Number

/-- One or more digits. -/
def isDigits (cs : List Char) : Bool := !cs.isEmpty && cs.all Char.isDigit

/-- The digits in front of a point or exponent: a zero stands alone. -/
def isWhole (cs : List Char) : Bool := isDigits cs && (cs.length == 1 || cs.head? != some '0')

/-- The number that digits spell, if they are digits. -/
def digits? (cs : List Char) : Option Nat :=
  if isDigits cs then some (Text.ofDigits 10 cs) else none

/-- An exponent without its letter: digits with or without a sign. -/
def signedDigits? : List Char → Option Int
  | '+' :: cs => (digits? cs).map Int.ofNat
  | '-' :: cs => (digits? cs).map fun n => -Int.ofNat n
  | cs => (digits? cs).map Int.ofNat

/-- The exponent behind a number, zero if there is none. -/
def exponent? : List Char → Option Int
  | [] => some 0
  | c :: cs => if c == 'e' || c == 'E' then signedDigits? cs else none

/-- The number that characters spell. -/
def ofChars? (cs : List Char) : Option Number := do
  let whole := cs.takeWhile Char.isDigit
  guard (isWhole whole)
  match cs.dropWhile Char.isDigit with
  | [] => return { whole, isInteger := true }
  | '.' :: rest =>
    let fraction := rest.takeWhile Char.isDigit
    guard (isDigits fraction)
    return { whole, fraction, exponent := ← exponent? (rest.dropWhile Char.isDigit) }
  | rest => return { whole, exponent := ← exponent? rest }

/-- The number in front of a point or exponent. -/
def wholeValue (n : Number) : Nat := Text.ofDigits 10 n.whole

/-- Digits are put behind a number as long as the result fits 64 bits: the result, and how many
digits are left over. -/
def absorb (n : Nat) : List Char → Nat × Nat
  | [] => (n, 0)
  | c :: cs =>
    let next := n * 10 + Text.ofDigits 10 [c]
    if next < UInt64.size then absorb next cs else (n, cs.length + 1)

/-- The digits that fit 64 bits, and the power of ten that they are scaled by. A digit left over in
front of the point raises the power, one taken from behind it lowers it. -/
def scaled (n : Number) : Nat × Int :=
  let (whole, raised) := absorb 0 n.whole
  let (digits, left) := absorb whole n.fraction
  (digits, n.exponent + raised - (n.fraction.length - left : Nat))

/-- The largest power of ten that is a double. -/
def largestPower : Int := 308

/-- No double holds the number. -/
def exceedsRange (n : Number) : Bool :=
  let (digits, power) := n.scaled
  digits != 0 && (largestPower < power ||
    (0 ≤ power &&
      Text.infinityBound ≤ Text.roundToDouble digits * Text.roundToDouble (Nat.pow 10 power.toNat)))

end Number

end JavaMinus.Json
