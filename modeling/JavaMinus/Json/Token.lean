import JavaMinus.Json.Number
import JavaMinus.Text.Bytes
import JavaMinus.Text.Digits

/-!
# JSON tokens

The first half of reading: a text becomes a list of tokens. The scanner passes the text once,
character by character, and keeps only what it has of the token it stands in. Strictness lives here:
numbers have no leading zeros and strings no raw control characters. A number beyond the doubles and
a string with half of a surrogate pair are tokens, but they have no value.

Digits, letters, signs and points form words. A word is judged when it ends, so two words with
nothing between them are one word that means nothing. Such a word can be named, with where it
stands.
-/

namespace JavaMinus.Json

/-- A token. -/
inductive Token where
  | openArray
  | closeArray
  | openObject
  | closeObject
  | comma
  | colon
  | null
  | bool (value : Bool)
  | int (value : Int)
  | real (spelling : String)
  /-- A number beyond the doubles. -/
  | hugeNumber
  | str (value : String)
  /-- A string with half of a surrogate pair. -/
  | brokenStr
deriving DecidableEq, Inhabited

/-- The token of a character that is a token by itself. -/
def punctuation? : Char → Option Token
  | '[' => some .openArray
  | ']' => some .closeArray
  | '{' => some .openObject
  | '}' => some .closeObject
  | ',' => some .comma
  | ':' => some .colon
  | _ => none

/-- Blanks between tokens: the four that the format allows. -/
def isBlank (c : Char) : Bool := c == ' ' || c == '\t' || c == '\n' || c == '\r'

/-- Characters of words. -/
def isWordChar (c : Char) : Bool := c.isAlphanum || c == '-' || c == '+' || c == '.'

/-- The token of a number. A negative zero is not an integer. -/
def numberToken (negative : Bool) (n : Number) (spelling : String) : Token :=
  if n.exceedsRange then .hugeNumber
  else if n.isInteger && !(negative && n.wholeValue == 0) then
    .int (if negative then -n.wholeValue else n.wholeValue)
  else .real spelling

/-- The token that a word spells. -/
def wordToken? (word : List Char) : Option Token :=
  let spelling := String.ofList word
  if spelling == "null" then some .null
  else if spelling == "true" then some (.bool true)
  else if spelling == "false" then some (.bool false)
  else match word with
    | '-' :: rest => (Number.ofChars? rest).map fun n => numberToken true n spelling
    | word => (Number.ofChars? word).map fun n => numberToken false n spelling

/-- What has been read of a string, last first; nothing once half of a pair stood alone in it. -/
abbrev Chars := Option (List Char)

/-- The token of a whole string. -/
def stringToken : Chars → Token
  | some chars => .str (String.ofList chars.reverse)
  | none => .brokenStr

/-- Where the scanner stands. -/
inductive Mode where
  | between
  | word (chars : List Char)
  | text (chars : Chars)
  /-- After a backslash. -/
  | escape (chars : Chars)
  /-- Inside the four digits of a code unit; `high` is the first half of a pair, if one was read. -/
  | unit (chars : Chars) (high : Option Nat) (digits value : Nat)
  /-- After the first half of a pair: a backslash should follow. -/
  | pair (chars : Chars) (high : Nat)
  /-- After that backslash: the letter of a code unit should follow. -/
  | pairLetter (chars : Chars) (high : Nat)
deriving DecidableEq, Inhabited

/-- The scanner: its place, and the tokens it has passed, last first. -/
structure Scanner where
  mode : Mode := .between
  tokens : List Token := []

/-- The character after a backslash stands for another. -/
def escaped? : Char → Option Char
  | '"' => some '"'
  | '\\' => some '\\'
  | '/' => some '/'
  | 'b' => some '\x08'
  | 'f' => some '\x0c'
  | 'n' => some '\n'
  | 'r' => some '\r'
  | 't' => some '\t'
  | _ => none

/-- The first half of a surrogate pair. -/
def isHigh (unit : Nat) : Bool := 0xD800 ≤ unit && unit < 0xDC00

/-- The second half of a surrogate pair. -/
def isLow (unit : Nat) : Bool := 0xDC00 ≤ unit && unit < 0xE000

/-- A whole code unit has been read: it is a character, or half of one. -/
def endUnit (chars : Chars) (high : Option Nat) (unit : Nat) : Mode :=
  match high with
  | some h =>
    if isLow unit then
      let c := Char.ofNat (0x10000 + (h - 0xD800) * 0x400 + (unit - 0xDC00))
      .text (chars.map (c :: ·))
    else .text none
  | none =>
    if isHigh unit then .pair chars unit
    else if isLow unit then .text none
    else .text (chars.map (Char.ofNat unit :: ·))

namespace Scanner

/-- Pass a character between tokens. -/
def between (tokens : List Token) (c : Char) : Option Scanner :=
  if isBlank c then some ⟨.between, tokens⟩
  else if c == '"' then some ⟨.text (some []), tokens⟩
  else if isWordChar c then some ⟨.word [c], tokens⟩
  else (punctuation? c).map fun t => ⟨.between, t :: tokens⟩

/-- Pass a character of a string. -/
def text (tokens : List Token) (chars : Chars) (c : Char) : Option Scanner :=
  if c == '"' then some ⟨.between, stringToken chars :: tokens⟩
  else if c == '\\' then some ⟨.escape chars, tokens⟩
  else if c.toNat < 0x20 then none
  else some ⟨.text (chars.map (c :: ·)), tokens⟩

/-- Pass the character after a backslash. -/
def escape (tokens : List Token) (chars : Chars) (c : Char) : Option Scanner :=
  if c == 'u' then some ⟨.unit chars none 0 0, tokens⟩
  else (escaped? c).map fun e => ⟨.text (chars.map (e :: ·)), tokens⟩

/-- Pass one character. -/
def step (s : Scanner) (c : Char) : Option Scanner :=
  match s.mode with
  | .between => between s.tokens c
  | .word chars =>
    if isWordChar c then some { s with mode := .word (c :: chars) }
    else (wordToken? chars.reverse).bind fun t => between (t :: s.tokens) c
  | .text chars => text s.tokens chars c
  | .escape chars => escape s.tokens chars c
  | .unit chars high digits value =>
    (Text.digitValue? c).map fun d =>
      if digits = 3 then { s with mode := endUnit chars high (value * 16 + d) }
      else { s with mode := .unit chars high (digits + 1) (value * 16 + d) }
  | .pair chars high =>
    if c == '\\' then some { s with mode := .pairLetter chars high } else text s.tokens none c
  | .pairLetter chars high =>
    if c == 'u' then some { s with mode := .unit chars (some high) 0 0 }
    else escape s.tokens none c

/-- The tokens passed when the text ends; it may not end inside a string. -/
def finish (s : Scanner) : Option (List Token) :=
  match s.mode with
  | .between => some s.tokens.reverse
  | .word chars => (wordToken? chars.reverse).map fun t => (t :: s.tokens).reverse
  | _ => none

/-- Pass a text as far as it can be passed; what is left of it comes with the scanner. -/
def run (s : Scanner) : List Char → Scanner × List Char
  | [] => (s, [])
  | c :: rest =>
    match s.step c with
    | some s => run s rest
    | none => (s, c :: rest)

end Scanner

/-- The tokens of a text. -/
def tokens? (text : String) : Option (List Token) :=
  match Scanner.run {} text.toList with
  | (s, []) => s.finish
  | _ => none

/-! ## Words that spell nothing -/

/-- A word that spells nothing, and the number of bytes in front of it. -/
structure StrangeWord where
  word : List Char
  offset : Nat
deriving DecidableEq

/-- The word that stops the scanner, if one does. -/
def strangeWord? (text : String) : Option StrangeWord :=
  let (s, rest) := Scanner.run {} text.toList
  match s.mode with
  | .word chars =>
    let word := chars.reverse
    if (wordToken? word).isSome then none
    else some ⟨word, text.utf8ByteSize - Text.byteCount (word ++ rest)⟩
  | _ => none

/-- What is wrong with the word, in a text of one line. Behind a minus sign there should be a
number, elsewhere any value. -/
def StrangeWord.message (w : StrangeWord) : String :=
  match w.word with
  | '-' :: _ => s!"invalid number at line 1 column {w.offset + 2}"
  | _ => s!"expected value at line 1 column {w.offset + 1}"

end JavaMinus.Json
