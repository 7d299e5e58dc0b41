/-!
# Bytes of a text

A character takes one to four bytes. Offsets into a text count bytes, and columns count characters.
-/

namespace JavaMinus.Text

/-- The number of bytes of characters. -/
def byteCount (cs : List Char) : Nat := cs.foldr (fun c bytes => c.utf8Size + bytes) 0

/-- How many of the first characters lie within a number of bytes. -/
def charsWithin (bytes : Nat) : List Char → Nat
  | [] => 0
  | c :: rest => if c.utf8Size ≤ bytes then charsWithin (bytes - c.utf8Size) rest + 1 else 0

end JavaMinus.Text
