import Mathlib.Data.List.TakeWhile
import JavaMinus.Json.Token

/-!
# Integers as words

An integer that fits 64 bits, written in decimal, is a word that spells it (`wordToken?_toString`).
The digits of such a number are all kept when it is brought into the range of doubles, and so it is
far from the number that rounding takes to infinity.
-/

namespace JavaMinus

namespace Text

/-- A digit has the value that it has in decimal numerals. -/
theorem digitValue?_of_isDigit {c : Char} (h : c.isDigit = true) :
    digitValue? c = some (c.toNat - '0'.toNat) := if_pos h

/-- Digits put behind a number make it no smaller. -/
theorem le_ofDigitChars (digits : List Char) (n : Nat) : n ≤ Nat.ofDigitChars 10 digits n := by
  induction digits generalizing n with
  | nil => exact Nat.le_refl n
  | cons c digits ih =>
    rw [Nat.ofDigitChars_cons]
    exact Nat.le_trans (by omega) (ih _)

theorem foldl_digits {digits : List Char} (h : ∀ c ∈ digits, c.isDigit = true) (n : Nat) :
    digits.foldl (fun n c => n * 10 + (digitValue? c).getD 0) n = Nat.ofDigitChars 10 digits n := by
  induction digits generalizing n with
  | nil => rfl
  | cons c digits ih =>
    obtain ⟨hc, hrest⟩ := List.forall_mem_cons.mp h
    rw [List.foldl_cons, Nat.ofDigitChars_cons, digitValue?_of_isDigit hc, Option.getD_some, ih hrest,
      Nat.mul_comm]

/-- Decimal digits spell what they spell as a numeral. -/
theorem ofDigits_eq {digits : List Char} (h : ∀ c ∈ digits, c.isDigit = true) :
    ofDigits 10 digits = Nat.ofDigitChars 10 digits 0 := foldl_digits h 0

/-- Numbers of 64 bits are far from those that round to infinity. -/
theorem size_le_infinityBound : 2 * UInt64.size ≤ infinityBound := by decide +kernel

/-- Rounding to the bits of a double at most doubles a number. -/
theorem roundToDouble_le (n : Nat) : roundToDouble n ≤ 2 * n := by
  unfold roundToDouble
  dsimp only
  by_cases hn : n = 0
  · subst hn
    decide
  · have unit : 2 ^ (n.log2 - 52) ≤ n :=
      Nat.le_trans (Nat.pow_le_pow_right (by decide) (Nat.sub_le _ _)) (Nat.log2_self_le hn)
    have whole : n / 2 ^ (n.log2 - 52) * 2 ^ (n.log2 - 52) ≤ n := Nat.div_mul_le_self _ _
    split
    · calc (n / 2 ^ (n.log2 - 52) + 1) * 2 ^ (n.log2 - 52)
          = n / 2 ^ (n.log2 - 52) * 2 ^ (n.log2 - 52) + 2 ^ (n.log2 - 52) := Nat.succ_mul _ _
        _ ≤ 2 * n := by omega
    · exact Nat.le_trans whole (by omega)

end Text

namespace Json

/-! ## Digits of a number -/

/-- The number whose digits are those of a natural number. -/
def Number.ofNat (n : Nat) : Number := { whole := Nat.toDigits 10 n, isInteger := true }

theorem isDigit_of_mem {n : Nat} {c : Char} (h : c ∈ Nat.toDigits 10 n) : c.isDigit = true :=
  Nat.isDigit_of_mem_toDigits (by decide) (by decide) h

/-- Only zero is written with a zero in front. -/
theorem head?_toDigits {n : Nat} (h : n ≠ 0) : (Nat.toDigits 10 n).head? ≠ some '0' := by
  induction n using Nat.strongRecOn with
  | ind n ih =>
    by_cases hlt : n < 10
    · rw [Nat.toDigits_of_lt_base hlt, List.head?_cons]
      intro hzero
      exact h (Nat.digitChar_eq_zero.mp (Option.some.inj hzero))
    · have front := ih (n / 10) (by omega) (by omega)
      rw [Nat.toDigits_of_base_le (by decide) (by omega), List.head?_append]
      cases hd : (Nat.toDigits 10 (n / 10)).head? with
      | none => exact absurd (List.head?_eq_none_iff.mp hd) Nat.toDigits_ne_nil
      | some c =>
        rw [hd] at front
        exact front

namespace Number

theorem isDigits_toDigits (n : Nat) : isDigits (Nat.toDigits 10 n) = true := by
  rw [isDigits, Bool.and_eq_true]
  refine ⟨by simp [Nat.toDigits_ne_nil], List.all_eq_true.mpr fun c hc => isDigit_of_mem hc⟩

theorem isWhole_toDigits (n : Nat) : isWhole (Nat.toDigits 10 n) = true := by
  rw [isWhole, isDigits_toDigits, Bool.true_and, Bool.or_eq_true]
  by_cases h : n = 0
  · subst h
    exact .inl rfl
  · exact .inr (bne_iff_ne.mpr (head?_toDigits h))

theorem ofChars?_toDigits (n : Nat) : ofChars? (Nat.toDigits 10 n) = some (ofNat n) := by
  have taken : (Nat.toDigits 10 n).takeWhile Char.isDigit = Nat.toDigits 10 n :=
    List.takeWhile_eq_self_iff.mpr fun c hc => isDigit_of_mem hc
  have dropped : (Nat.toDigits 10 n).dropWhile Char.isDigit = [] :=
    List.dropWhile_eq_nil_iff.mpr fun c hc => isDigit_of_mem hc
  rw [ofChars?, taken, dropped, isWhole_toDigits]
  rfl

theorem wholeValue_ofNat (n : Nat) : (ofNat n).wholeValue = n := by
  rw [wholeValue, ofNat, Text.ofDigits_eq fun c hc => isDigit_of_mem hc]
  exact Nat.ofDigitChars_ten_toDigits

/-- Digits of a number that fits 64 bits are all taken up. -/
theorem absorb_eq {digits : List Char} (h : ∀ c ∈ digits, c.isDigit = true) {n : Nat}
    (small : Nat.ofDigitChars 10 digits n < UInt64.size) :
    absorb n digits = (Nat.ofDigitChars 10 digits n, 0) := by
  induction digits generalizing n with
  | nil => rfl
  | cons c digits ih =>
    obtain ⟨hc, hrest⟩ := List.forall_mem_cons.mp h
    have value : n * 10 + Text.ofDigits 10 [c] = 10 * n + (c.toNat - '0'.toNat) := by
      rw [Text.ofDigits_eq (by simpa using hc), Nat.mul_comm]
      simp [Nat.ofDigitChars_cons]
    rw [Nat.ofDigitChars_cons] at small ⊢
    rw [absorb, value, if_pos (Nat.lt_of_le_of_lt (Text.le_ofDigitChars digits _) small)]
    exact ih hrest small

theorem scaled_ofNat {n : Nat} (small : n < UInt64.size) : (ofNat n).scaled = (n, 0) := by
  have digits : absorb 0 (Nat.toDigits 10 n) = (n, 0) := by
    have value : Nat.ofDigitChars 10 (Nat.toDigits 10 n) 0 = n := Nat.ofDigitChars_ten_toDigits
    rw [absorb_eq (fun c hc => isDigit_of_mem hc) (by rw [value]; exact small), value]
  simp [scaled, ofNat, digits, absorb]

/-- Doubles hold numbers of 64 bits. -/
theorem exceedsRange_ofNat {n : Nat} (small : n < UInt64.size) : (ofNat n).exceedsRange = false := by
  have rounded : Text.roundToDouble n * Text.roundToDouble (Nat.pow 10 0) < Text.infinityBound := by
    have one : Text.roundToDouble (Nat.pow 10 0) = 1 :=
      Text.roundToDouble_of_lt (by decide)
    have far := Text.size_le_infinityBound
    have := Text.roundToDouble_le n
    rw [one]
    omega
  have bound : decide (Text.infinityBound ≤
      Text.roundToDouble n * Text.roundToDouble (Nat.pow 10 0)) = false :=
    decide_eq_false (Nat.not_le.mpr rounded)
  rw [exceedsRange, scaled_ofNat small]
  dsimp only
  rw [show (0 : Int).toNat = 0 from rfl, bound]
  simp [largestPower]

end Number

/-! ## Words -/

/-- A word differs from one that starts with another character. -/
theorem ofList_cons_ne {c first : Char} (h : first ≠ c) (cs : List Char) {word : String}
    (hword : word.toList.head? = some first) : (String.ofList (c :: cs) == word) = false := by
  rw [beq_eq_false_iff_ne]
  rintro rfl
  rw [String.toList_ofList, List.head?_cons] at hword
  exact h (Option.some.inj hword).symm

/-- A numeral is a word of digits. -/
theorem wordToken?_toDigits {n : Nat} (small : n < UInt64.size) :
    wordToken? (Nat.toDigits 10 n) = some (.int n) := by
  have value (spelling : String) : numberToken false (Number.ofNat n) spelling = .int n := by
    rw [numberToken, Number.exceedsRange_ofNat small, Number.wholeValue_ofNat]
    rfl
  have chars := Number.ofChars?_toDigits n
  cases hd : Nat.toDigits 10 n with
  | nil => exact absurd hd Nat.toDigits_ne_nil
  | cons c cs =>
    have digit : c.isDigit = true := isDigit_of_mem (n := n) (by rw [hd]; exact List.mem_cons_self)
    have apart (other : Char) (hother : other.isDigit = false) : other ≠ c := by
      rintro rfl
      rw [digit] at hother
      cases hother
    rw [hd] at chars
    rw [wordToken?, ofList_cons_ne (apart 'n' rfl) cs rfl, ofList_cons_ne (apart 't' rfl) cs rfl,
      ofList_cons_ne (apart 'f' rfl) cs rfl]
    · simp only [Bool.false_eq_true, if_false]
      rw [chars, Option.map_some, value]
    · exact fun rest heq => apart '-' rfl (List.cons.inj heq).1.symm

/-- A sign in front of digits makes a negative number, if they are not zero. -/
theorem wordToken?_neg {n : Nat} (small : n < UInt64.size) (pos : n ≠ 0) :
    wordToken? ('-' :: Nat.toDigits 10 n) = some (.int (-n)) := by
  have value (spelling : String) : numberToken true (Number.ofNat n) spelling = .int (-n) := by
    have nonzero : (n == 0) = false := beq_eq_false_iff_ne.mpr pos
    rw [numberToken, Number.exceedsRange_ofNat small, Number.wholeValue_ofNat, nonzero]
    rfl
  have apart (other : Char) (h : other ≠ '-') {word : String} (hword : word.toList.head? = some other) :
      (String.ofList ('-' :: Nat.toDigits 10 n) == word) = false := ofList_cons_ne h _ hword
  rw [wordToken?, apart 'n' (by decide) rfl, apart 't' (by decide) rfl, apart 'f' (by decide) rfl]
  simp only [Bool.false_eq_true, if_false]
  rw [Number.ofChars?_toDigits, Option.map_some, value]

/-- An integer that fits 64 bits is spelled by its decimal form. -/
theorem wordToken?_toString {i : Int} (small : i.natAbs < UInt64.size) :
    wordToken? (toString i).toList = some (.int i) := by
  rw [Int.toString_eq_repr, Int.repr_eq_if]
  split
  · next pos =>
    rw [Nat.toList_repr, wordToken?_toDigits (by omega), Int.toNat_of_nonneg pos]
  · next neg =>
    rw [String.toList_append, Nat.toList_repr]
    show wordToken? ('-' :: Nat.toDigits 10 (-i).toNat) = _
    rw [wordToken?_neg (by omega) (by omega)]
    exact congrArg (fun i => some (Token.int i)) (by omega)

/-- The decimal form of an integer is a word. -/
theorem isWordChar_toString (i : Int) : ∀ c ∈ (toString i).toList, isWordChar c = true := by
  have digits (n : Nat) : ∀ c ∈ Nat.toDigits 10 n, isWordChar c = true := fun c hc => by
    rw [isWordChar, Char.isAlphanum, isDigit_of_mem hc]
    simp
  rw [Int.toString_eq_repr, Int.repr_eq_if]
  split
  · rw [Nat.toList_repr]
    exact digits _
  · rw [String.toList_append, Nat.toList_repr]
    exact List.forall_mem_append.mpr ⟨List.all_eq_true.mp rfl, digits _⟩

end Json

end JavaMinus
