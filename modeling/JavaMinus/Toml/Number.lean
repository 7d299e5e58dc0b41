import JavaMinus.Text.Digits
import JavaMinus.Text.Double
import JavaMinus.Toml.Reading
import JavaMinus.Toml.Value

/-!
# TOML numbers

An integer to one of four bases, a number with a fraction or exponent, infinity, or what is no
number. Digits may be grouped by single underscores. Integers are 64-bit, and a number may not be
too large for a double.
-/

namespace JavaMinus.Toml

open Reading
open Text (exceedsDouble isDigitOf ofDigits)

/-- Further digits; an underscore stands between two of them. -/
def moreDigits (isDigit : Char → Bool) : Reading (List Char) :=
  many ((one isDigit).orElse do
    char '_'
    commit (one isDigit))

/-- One digit or more. -/
def digits (isDigit : Char → Bool) : Reading (List Char) := do
  return (← one isDigit) :: (← moreDigits isDigit)

/-- Decimal digits in front of a point or exponent: a zero stands alone. -/
def wholeDigits : Reading (List Char) := do
  let first ← one Char.isDigit
  if first = '0' then return ['0'] else return first :: (← moreDigits Char.isDigit)

/-- A sign, if there is one, and whether it is negative. -/
def sign : Reading Bool := do
  return (← maybe (one fun c => c == '+' || c == '-')) == some '-'

/-- The integer of an amount. -/
def signed (negative : Bool) (amount : Nat) : Int := if negative then -amount else amount

/-- An integer that 64 bits can hold. -/
def int64? (i : Int) : Option Toml :=
  if Int64.minValue.toInt ≤ i ∧ i ≤ Int64.maxValue.toInt then some (.int i) else none

/-- An integer to a base other than ten, behind its mark. -/
def based (mark : Char) (base : Nat) : Reading Toml := do
  let start ← here
  word ['0', mark]
  let ds ← commit (digits (isDigitOf base))
  acceptFrom start (int64? (ofDigits base ds))

/-- Infinity, or what is no number. -/
def special : Reading Toml :=
  Toml.real <$> spelling do
    let _ ← sign
    (word ['i', 'n', 'f']).orElse (word ['n', 'a', 'n'])

/-- The digits behind a point. -/
def fraction : Reading (List Char) := do
  char '.'
  commit (digits Char.isDigit)

/-- The exponent behind its letter. -/
def exponent : Reading Int := do
  let _ ← one fun c => c == 'e' || c == 'E'
  let negative ← sign
  return signed negative (ofDigits 10 (← commit (digits Char.isDigit)))

/-- A decimal number as it is written. -/
structure Decimal where
  negative : Bool
  whole : List Char
  fraction : Option (List Char)
  exponent : Option Int

def decimalParts : Reading Decimal := do
  return { negative := ← sign, whole := ← wholeDigits, fraction := ← maybe fraction,
           exponent := ← maybe exponent }

/-- The value of a decimal number. With neither fraction nor exponent it is an integer; otherwise
only a negative one may be too large. -/
def Decimal.value? (d : Decimal) (spelling : String) : Option Toml :=
  match d.fraction, d.exponent with
  | none, none => int64? (signed d.negative (ofDigits 10 d.whole))
  | fraction, exponent =>
    let behind := fraction.getD []
    if !d.negative && exceedsDouble (d.whole ++ behind) (exponent.getD 0 - behind.length) then none
    else some (.real spelling)

/-- A decimal number. -/
def decimal : Reading Toml := do
  let start ← here
  let d ← decimalParts
  let behind ← here
  acceptFrom start (d.value? (String.ofList (start.take (start.length - behind.length))))

/-- A number. -/
def number : Reading Toml :=
  special.orElse <| (based 'x' 16).orElse <| (based 'o' 8).orElse <| (based 'b' 2).orElse decimal

end JavaMinus.Toml
