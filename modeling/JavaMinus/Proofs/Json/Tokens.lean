import Mathlib.Data.List.Forall2
import JavaMinus.Json.Printer
import JavaMinus.Proofs.Json.Numbers

/-!
# The tokens of a printed value

Scanning what a printer wrote gives back the tokens of the value, in either layout
(`tokens?_compact`, `tokens?_pretty`). A word ends where something else begins, so whether the scanner
has passed a value can depend on the character behind it. `Spells` says that it has passed it if the
text ends there, and `Closed` that it stands between tokens. Text that begins with no character of a
word may be put behind what is spelled (`Spells.append`), and anything behind what is closed
(`Closed.append`); a layout is built by these two.

A value is exact if the printers lose nothing of it: nothing in it is unreadable or a number that is
no integer, and its integers fit 64 bits.
-/

namespace JavaMinus.Json

mutual
/-- Printing loses nothing of a value. -/
def isExact : Json → Bool
  | .unreadable | .real _ => false
  | .int i => i.natAbs < UInt64.size
  | .arr items => areExact items
  | .obj members => membersExact members
  | .null | .bool _ | .str _ => true
def areExact : List Json → Bool
  | [] => true
  | v :: rest => isExact v && areExact rest
def membersExact : List (String × Json) → Bool
  | [] => true
  | (_, v) :: rest => isExact v && membersExact rest
end

mutual
/-- The tokens of a value. -/
def tokens : Json → List Token
  | .null | .unreadable => [.null]
  | .bool b => [.bool b]
  | .int i => [.int i]
  | .real s => [.real s]
  | .str s => [.str s]
  | .arr items => .openArray :: ([.comma].intercalate (itemTokens items) ++ [.closeArray])
  | .obj members => .openObject :: ([.comma].intercalate (memberTokens members) ++ [.closeObject])
def itemTokens : List Json → List (List Token)
  | [] => []
  | v :: rest => tokens v :: itemTokens rest
def memberTokens : List (String × Json) → List (List Token)
  | [] => []
  | (k, v) :: rest => (.str k :: .colon :: tokens v) :: memberTokens rest
end

/-! ## Passing text -/

/-- Text that the scanner passes from between tokens to between tokens. -/
def Closed (text : List Char) (tokens : List Token) : Prop :=
  ∀ front, Scanner.run ⟨.between, front⟩ text = (⟨.between, tokens.reverse ++ front⟩, [])

/-- Text that the scanner passes from between tokens to where all of these tokens are there, should
the text end. -/
def Spells (text : List Char) (tokens : List Token) : Prop :=
  ∀ front, ∃ s, Scanner.run ⟨.between, front⟩ text = (s, []) ∧
    s.finish = some (front.reverse ++ tokens)

namespace Scanner

variable {s s' last : Scanner} {text rest : List Char} {c : Char}

theorem run_append (h : run s text = (s', [])) (rest : List Char) :
    run s (text ++ rest) = run s' rest := by
  induction text generalizing s with
  | nil =>
    cases h
    rfl
  | cons c text ih =>
    rw [run] at h
    rw [List.cons_append, run]
    split at h
    · next next hnext => exact ih h
    · cases h

theorem run_cons (h : s.step c = some s') : run s (c :: rest) = run s' rest := by
  rw [run, h]

/-- What is between two tokens is passed alike behind a word that is judged there. -/
theorem step_of_finish {tokens : List Token} (h : s.finish = some tokens)
    (hc : isWordChar c = false) : s.step c = between tokens.reverse c := by
  obtain ⟨mode, front⟩ := s
  cases mode with
  | between =>
    cases h
    rw [List.reverse_reverse]
    rfl
  | word chars =>
    obtain ⟨t, ht, rfl⟩ := Option.map_eq_some_iff.mp h
    show (if isWordChar c then _ else (wordToken? chars.reverse).bind fun t => between (t :: front) c) = _
    rw [hc, ht, List.reverse_reverse]
    rfl
  | _ => cases h

/-- So is all the text behind it. -/
theorem run_of_finish {tokens : List Token} (h : s.finish = some tokens)
    (hc : isWordChar c = false) (hr : run ⟨.between, tokens.reverse⟩ (c :: rest) = (last, [])) :
    run s (c :: rest) = (last, []) := by
  have same : s.step c = step ⟨.between, tokens.reverse⟩ c := step_of_finish h hc
  rw [run] at hr ⊢
  rw [same]
  split at hr
  · exact hr
  · cases hr

end Scanner

section
variable {text more : List Char} {ts us : List Token} {c : Char}

theorem Closed.spells (h : Closed text ts) : Spells text ts := fun front =>
  ⟨_, h front, by simp [Scanner.finish]⟩

theorem closed_nil : Closed [] [] := fun _ => rfl

theorem Closed.append_closed (h : Closed text ts) (hm : Closed more us) :
    Closed (text ++ more) (ts ++ us) := fun front => by
  rw [Scanner.run_append (h front), hm, List.reverse_append, List.append_assoc]

/-- Anything may stand behind what is closed. -/
theorem Closed.append (h : Closed text ts) (hm : Spells more us) :
    Spells (text ++ more) (ts ++ us) := fun front => by
  obtain ⟨s, hs, ends⟩ := hm (ts.reverse ++ front)
  refine ⟨s, by rw [Scanner.run_append (h front), hs], ?_⟩
  rw [ends]
  simp

/-- What begins with no character of a word may stand behind what is spelled, and ends the word. -/
theorem Spells.append (h : Spells text ts) (hc : isWordChar c = false) (hm : Closed (c :: more) us) :
    Closed (text ++ c :: more) (ts ++ us) := fun front => by
  obtain ⟨s, hs, ends⟩ := h front
  rw [Scanner.run_append hs, Scanner.run_of_finish ends hc (hm _)]
  simp

/-- A blank between tokens is no token. -/
theorem closed_blank (h : isBlank c = true) : Closed [c] [] := fun front => by
  have passed : Scanner.step ⟨.between, front⟩ c = some ⟨.between, front⟩ := by
    rw [Scanner.step, Scanner.between, h]
    rfl
  rw [Scanner.run_cons passed]
  rfl

theorem closed_blanks (h : ∀ c ∈ text, isBlank c = true) : Closed text [] := by
  induction text with
  | nil => exact closed_nil
  | cons c text ih =>
    obtain ⟨hc, hrest⟩ := List.forall_mem_cons.mp h
    exact (closed_blank hc).append_closed (ih hrest)

end

theorem closed_comma : Closed [','] [.comma] := fun _ => rfl
theorem closed_colon : Closed [':'] [.colon] := fun _ => rfl
theorem closed_openArray : Closed ['['] [.openArray] := fun _ => rfl
theorem closed_closeArray : Closed [']'] [.closeArray] := fun _ => rfl
theorem closed_openObject : Closed ['\x7b'] [.openObject] := fun _ => rfl
theorem closed_closeObject : Closed ['\x7d'] [.closeObject] := fun _ => rfl

/-! ## Words and strings -/

/-- A character of a word is no blank and no quote. -/
theorem ne_of_isWordChar {c : Char} (h : isWordChar c = true) : isBlank c = false ∧ c ≠ '"' := by
  constructor
  · by_contra hblank
    rw [Bool.not_eq_false, isBlank] at hblank
    simp only [Bool.or_eq_true, beq_iff_eq] at hblank
    rcases hblank with ((rfl | rfl) | rfl) | rfl <;> cases h
  · rintro rfl
    cases h

/-- A word that has a token spells it. -/
theorem spells_word {word : List Char} {t : Token} (chars : ∀ c ∈ word, isWordChar c = true)
    (h : wordToken? word = some t) : Spells word [t] := by
  have inside (tokens : List Token) : ∀ rest read : List Char, (∀ c ∈ rest, isWordChar c = true) →
      Scanner.run ⟨.word read, tokens⟩ rest = (⟨.word (rest.reverse ++ read), tokens⟩, []) := by
    intro rest
    induction rest with
    | nil => exact fun _ _ => rfl
    | cons c rest ih =>
      intro read hrest
      obtain ⟨hc, hrest⟩ := List.forall_mem_cons.mp hrest
      have passed : Scanner.step ⟨.word read, tokens⟩ c = some ⟨.word (c :: read), tokens⟩ :=
        if_pos hc
      rw [Scanner.run_cons passed, ih _ hrest, List.reverse_cons, List.append_assoc]
      rfl
  intro front
  cases word with
  | nil => cases h
  | cons c rest =>
    obtain ⟨hc, hrest⟩ := List.forall_mem_cons.mp chars
    obtain ⟨noBlank, noQuote⟩ := ne_of_isWordChar hc
    have started : Scanner.step ⟨.between, front⟩ c = some ⟨.word [c], front⟩ := by
      rw [Scanner.step, Scanner.between, noBlank, hc, beq_eq_false_iff_ne.mpr noQuote]
      rfl
    refine ⟨_, by rw [Scanner.run_cons started, inside front rest [c] hrest], ?_⟩
    simp [Scanner.finish, h]

/-- A digit of a code unit is taken up. -/
theorem step_unit (front : List Token) (chars : Chars) {digits value d : Nat} {c : Char}
    (h : Text.digitValue? c = some d) : Scanner.step ⟨.unit chars none digits value, front⟩ c =
      some (if digits = 3 then ⟨endUnit chars none (value * 16 + d), front⟩
        else ⟨.unit chars none (digits + 1) (value * 16 + d), front⟩) := by
  show (Text.digitValue? c).map _ = _
  rw [h]
  rfl

/-- A character of a string is passed as it is written. -/
theorem run_escapeChar (front : List Token) (read : List Char) (c : Char) :
    Scanner.run ⟨.text (some read), front⟩ (escapeChar c) = (⟨.text (some (c :: read)), front⟩, []) := by
  unfold escapeChar
  split
  all_goals try rfl
  next noQuote noBackslash _ _ _ _ _ =>
    split
    · next control =>
      have high := Text.digitValue?_digitChar (c.toNat / 16) (by omega)
      have low := Text.digitValue?_digitChar (c.toNat % 16) (by omega)
      have zero : Text.digitValue? '0' = some 0 := rfl
      have value : ((0 * 16 + 0) * 16 + 0) * 16 + c.toNat / 16 = c.toNat / 16 := by omega
      have whole : c.toNat / 16 * 16 + c.toNat % 16 = c.toNat := by omega
      have ends : endUnit (some read) none c.toNat = .text (some (c :: read)) := by
        have noHigh : isHigh c.toNat = false := by simp [isHigh]; omega
        have noLow : isLow c.toNat = false := by simp [isLow]; omega
        rw [endUnit, noHigh, noLow, Char.ofNat_toNat]
        rfl
      have escaped : Scanner.step ⟨.text (some read), front⟩ '\\' = some ⟨.escape (some read), front⟩ := rfl
      have coded : Scanner.step ⟨.escape (some read), front⟩ 'u' =
        some ⟨.unit (some read) none 0 0, front⟩ := rfl
      rw [Scanner.run_cons escaped, Scanner.run_cons coded, Scanner.run_cons (step_unit front _ zero),
        if_neg (by decide), Scanner.run_cons (step_unit front _ zero), if_neg (by decide),
        Scanner.run_cons (step_unit front _ high), if_neg (by decide),
        Scanner.run_cons (step_unit front _ low), if_pos rfl, value, whole, ends]
      rfl
    · next plain =>
      have passed : Scanner.step ⟨.text (some read), front⟩ c = some ⟨.text (some (c :: read)), front⟩ := by
        show Scanner.text front (some read) c = _
        rw [Scanner.text, beq_eq_false_iff_ne.mpr noQuote, beq_eq_false_iff_ne.mpr noBackslash,
          if_neg plain]
        rfl
      rw [Scanner.run_cons passed]
      rfl

theorem closed_quoted (s : String) : Closed (quoted s).toList [.str s] := by
  have inside (front : List Token) : ∀ (chars read : List Char),
      Scanner.run ⟨.text (some read), front⟩ (chars.flatMap escapeChar) =
        (⟨.text (some (chars.reverse ++ read)), front⟩, []) := by
    intro chars
    induction chars with
    | nil => exact fun _ => rfl
    | cons c chars ih =>
      intro read
      rw [List.flatMap_cons, Scanner.run_append (run_escapeChar front read c), ih, List.reverse_cons,
        List.append_assoc]
      rfl
  intro front
  rw [quoted, String.toList_ofList]
  have opened : Scanner.step ⟨.between, front⟩ '"' = some ⟨.text (some []), front⟩ := rfl
  have closes : Scanner.step ⟨.text (some (s.toList.reverse ++ [])), front⟩ '"' =
      some ⟨.between, stringToken (some (s.toList.reverse ++ [])) :: front⟩ := rfl
  rw [Scanner.run_cons opened, Scanner.run_append (inside front s.toList []), Scanner.run_cons closes,
    List.append_nil, stringToken, List.reverse_reverse, String.ofList_toList]
  rfl

/-! ## Layouts -/

/-- Parts that are spelled one by one. -/
def SpellsAll : List String → List (List Token) → Prop :=
  List.Forall₂ fun part ts => Spells part.toList ts

/-- Parts with a comma between any two of them. -/
theorem spells_intercalate {separator : String} {gap : List Char}
    (hsep : separator.toList = ',' :: gap) (closed : Closed (',' :: gap) [.comma]) :
    ∀ {parts : List String} {tss : List (List Token)}, SpellsAll parts tss →
      Spells (separator.intercalate parts).toList ([.comma].intercalate tss)
  | _, _, .nil => closed_nil.spells
  | _, _, .cons h .nil => by
    rw [String.intercalate_singleton, List.intercalate_singleton]
    exact h
  | _, _, .cons h (.cons next rest) => by
    rw [String.intercalate_cons_cons, List.intercalate_cons_cons, String.toList_append,
      String.toList_append, hsep]
    exact (h.append (by decide) closed).append (spells_intercalate hsep closed (.cons next rest))

theorem toList_newLine (depth : Nat) :
    (newLine depth).toList = '\n' :: List.replicate (2 * depth) ' ' := by
  simp [newLine]

/-- A new line and blanks are no tokens. -/
theorem closed_newLine (depth : Nat) : Closed (newLine depth).toList [] := by
  refine closed_blanks fun c hc => ?_
  rw [toList_newLine] at hc
  rcases List.mem_cons.mp hc with rfl | hc
  · rfl
  · rw [List.eq_of_mem_replicate hc]
    rfl

section
variable {parts : List String} {tss : List (List Token)} {opening closing : String} {o c : Char}
  {t u : Token}

/-- Parts between brackets, on one line. -/
theorem closed_line (hopening : opening.toList = [o]) (opens : Closed [o] [t])
    (hclosing : closing.toList = [c]) (closes : Closed [c] [u]) (hc : isWordChar c = false)
    (h : SpellsAll parts tss) :
    Closed (opening ++ ",".intercalate parts ++ closing).toList
      (t :: ([.comma].intercalate tss ++ [u])) := by
  have inner : Spells (",".intercalate parts).toList ([.comma].intercalate tss) :=
    spells_intercalate rfl closed_comma h
  rw [String.toList_append, String.toList_append, hopening, hclosing]
  exact (opens.append inner).append hc closes

/-- Parts between brackets, over lines. -/
theorem closed_bracketed (depth : Nat) (hopening : opening.toList = [o]) (opens : Closed [o] [t])
    (hclosing : closing.toList = [c]) (closes : Closed [c] [u]) (h : SpellsAll parts tss) :
    Closed (bracketed depth opening closing parts).toList
      (t :: ([.comma].intercalate tss ++ [u])) := by
  unfold bracketed
  split
  · next empty =>
    rw [List.isEmpty_iff.mp empty] at h
    cases h
    rw [String.toList_append, hopening, hclosing]
    exact opens.append_closed closes
  · have separates : Closed (',' :: '\n' :: List.replicate (2 * (depth + 1)) ' ') [.comma] := by
      rw [← toList_newLine]
      exact closed_comma.append_closed (closed_newLine (depth + 1))
    have inner : Spells (("," ++ newLine (depth + 1)).intercalate parts).toList
        ([.comma].intercalate tss) :=
      spells_intercalate (by rw [String.toList_append, toList_newLine]; rfl) separates h
    have ends : Closed ('\n' :: (List.replicate (2 * depth) ' ' ++ [c])) [u] := by
      have blank := closed_newLine depth
      rw [toList_newLine] at blank
      exact blank.append_closed closes
    have starts : Closed ([o] ++ (newLine (depth + 1)).toList) [t] :=
      opens.append_closed (closed_newLine (depth + 1))
    rw [String.toList_append, String.toList_append, String.toList_append, String.toList_append,
      hopening, hclosing, toList_newLine depth, List.append_assoc _ ('\n' :: _)]
    exact (starts.append inner).append (by decide) ends

end

/-! ## Printed values -/

mutual
/-- The layout on one line spells the tokens of a value. -/
theorem spells_compact : ∀ v : Json, v.isExact = true → Spells v.compact.toList v.tokens
  | .null, _ | .bool true, _ | .bool false, _ => spells_word (List.all_eq_true.mp rfl) rfl
  | .int i, h => spells_word (isWordChar_toString i) (wordToken?_toString (of_decide_eq_true h))
  | .str s, _ => (closed_quoted s).spells
  | .arr items, h => by
    rw [compact, tokens]
    exact (closed_line rfl closed_openArray rfl closed_closeArray (by decide)
      (spells_compactItems items h)).spells
  | .obj members, h => by
    rw [compact, tokens]
    exact (closed_line rfl closed_openObject rfl closed_closeObject (by decide)
      (spells_compactMembers members h)).spells
theorem spells_compactItems : ∀ items : List Json, areExact items = true →
    SpellsAll (compactItems items) (itemTokens items)
  | [], _ => .nil
  | v :: rest, h =>
    have ⟨hv, hrest⟩ := Bool.and_eq_true_iff.mp h
    .cons (spells_compact v hv) (spells_compactItems rest hrest)
theorem spells_compactMembers : ∀ members : List (String × Json), membersExact members = true →
    SpellsAll (compactMembers members) (memberTokens members)
  | [], _ => .nil
  | (k, v) :: rest, h => by
    obtain ⟨hv, hrest⟩ := Bool.and_eq_true_iff.mp h
    refine .cons ?_ (spells_compactMembers rest hrest)
    rw [String.toList_append, String.toList_append]
    exact ((closed_quoted k).append_closed closed_colon).append (spells_compact v hv)
end

mutual
/-- The layout over lines spells the same tokens. -/
theorem spells_prettyAt : ∀ (v : Json) (depth : Nat), v.isExact = true →
    Spells (v.prettyAt depth).toList v.tokens
  | .null, _, h | .bool true, _, h | .bool false, _, h | .int _, _, h | .str _, _, h => by
    rw [prettyAt]
    exact spells_compact _ h
  | .arr items, depth, h => by
    rw [prettyAt, tokens]
    exact (closed_bracketed depth rfl closed_openArray rfl closed_closeArray
      (spells_prettyItems items (depth + 1) h)).spells
  | .obj members, depth, h => by
    rw [prettyAt, tokens]
    exact (closed_bracketed depth rfl closed_openObject rfl closed_closeObject
      (spells_prettyMembers members (depth + 1) h)).spells
theorem spells_prettyItems : ∀ (items : List Json) (depth : Nat), areExact items = true →
    SpellsAll (prettyItems depth items) (itemTokens items)
  | [], _, _ => .nil
  | v :: rest, depth, h =>
    have ⟨hv, hrest⟩ := Bool.and_eq_true_iff.mp h
    .cons (spells_prettyAt v depth hv) (spells_prettyItems rest depth hrest)
theorem spells_prettyMembers : ∀ (members : List (String × Json)) (depth : Nat),
    membersExact members = true → SpellsAll (prettyMembers depth members) (memberTokens members)
  | [], _, _ => .nil
  | (k, v) :: rest, depth, h => by
    obtain ⟨hv, hrest⟩ := Bool.and_eq_true_iff.mp h
    refine .cons ?_ (spells_prettyMembers rest depth hrest)
    have gap : Closed (": " : String).toList [.colon] :=
      closed_colon.append_closed (closed_blank (c := ' ') rfl)
    rw [String.toList_append, String.toList_append]
    exact ((closed_quoted k).append_closed gap).append (spells_prettyAt v depth hv)
end

/-- A text that spells tokens has these tokens. -/
theorem Spells.tokens? {text : String} {ts : List Token} (h : Spells text.toList ts) :
    tokens? text = some ts := by
  obtain ⟨s, hs, ends⟩ := h []
  rw [Json.tokens?, hs]
  exact ends

theorem tokens?_compact {v : Json} (h : v.isExact = true) : tokens? v.compact = some v.tokens :=
  (spells_compact v h).tokens?

theorem tokens?_pretty {v : Json} (h : v.isExact = true) : tokens? v.pretty = some v.tokens :=
  (spells_prettyAt v 0 h).tokens?

end JavaMinus.Json
