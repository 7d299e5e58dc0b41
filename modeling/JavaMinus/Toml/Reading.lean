import JavaMinus.Toml.Place

/-!
# Readers

A reader takes a place of a text. Either it finds something and says which place is behind it, or it
says at which place it stopped. When it has missed, another reader may be tried where it began; when
it has broken off, nothing else can stand there. `commit` makes the one failure into the other: once
it is clear what is written, what does not fit is wrong.

A reader that is repeated has to pass a character every time, so the length of the text bounds how
often it finds something.
-/

namespace JavaMinus.Toml

/-- What comes of reading. -/
inductive Outcome (α : Type) where
  | found (value : α) (behind : Place)
  | missed (place : Place)
  | broken (place : Place)
deriving Inhabited

/-- A reader of something. -/
def Reading (α : Type) : Type := Place → Outcome α

instance : Monad Reading where
  pure a := fun place => .found a place
  bind r f := fun place =>
    match r place with
    | .found a behind => f a behind
    | .missed stop => .missed stop
    | .broken stop => .broken stop

namespace Reading

variable {α β σ : Type}

/-- The place where reading stands. -/
def here : Reading Place := fun place => .found place place

/-- Stop at a place, where nothing else can stand. -/
def breakAt (stop : Place) : Reading α := fun _ => .broken stop

/-- A value if there is one; else what began at a place is wrong. -/
def acceptFrom (start : Place) : Option α → Reading α
  | some a => pure a
  | none => breakAt start

/-- What is missed is wrong. -/
def commit (r : Reading α) : Reading α := fun place =>
  match r place with
  | .missed stop => .broken stop
  | o => o

/-- Where the first is missed, the second is read. -/
def orElse (r s : Reading α) : Reading α := fun place =>
  match r place with
  | .missed _ => s place
  | o => o

/-- Nothing, where it is missed. -/
def maybe (r : Reading α) : Reading (Option α) := orElse (some <$> r) (pure none)

/-- Only a value that passes through a function is found; any other is missed where it begins. -/
def through (f : α → Option β) (r : Reading α) : Reading β := fun place =>
  match r place with
  | .found a behind =>
    match f a with
    | some b => .found b behind
    | none => .missed place
  | .missed stop => .missed stop
  | .broken stop => .broken stop

/-- What is read, with the place where it begins. -/
def placed (r : Reading α) : Reading (Placed α) := do
  let place ← here
  return ⟨place, ← r⟩

/-- The text that is passed by a reader. -/
def spelling (r : Reading α) : Reading String := do
  let start ← here
  let _ ← r
  let behind ← here
  return String.ofList (start.take (start.length - behind.length))

/-! ## Characters -/

/-- The next character, if it passes a test. -/
def one (p : Char → Bool) : Reading Char
  | c :: rest => if p c then .found c rest else .missed (c :: rest)
  | [] => .missed []

/-- The given character. -/
def char (c : Char) : Reading Unit := do
  let _ ← one fun d => d == c

/-- The given characters; all are missed where the first one should be. -/
def word (chars : List Char) : Reading Unit := fun place =>
  if chars.isPrefixOf place then .found () (place.drop chars.length) else .missed place

/-- All characters up to the first one that fails a test. -/
def skip (p : Char → Bool) : Reading Unit := fun place => .found () (place.dropWhile p)

/-! ## Repetition -/

/-- Read at most a number of times, each time going on from the last result. -/
def repeatWithin (r : σ → Reading σ) : Nat → σ → Reading σ
  | 0, s => pure s
  | n + 1, s => do
    match ← maybe (r s) with
    | some s => repeatWithin r n s
    | none => return s

/-- Read until it is missed, each time going on from the last result. -/
def repeatFrom (s : σ) (r : σ → Reading σ) : Reading σ := fun place =>
  repeatWithin r place.length s place

/-- All that is found one after another. -/
def many (r : Reading α) : Reading (List α) :=
  List.reverse <$> repeatFrom [] fun found => (· :: found) <$> r

/-- One or more with something between them. What should follow the last one is not passed when
nothing does. -/
def listed (between : Reading Unit) (r : Reading α) : Reading (List α) := do
  return (← r) :: (← many (do between; r))

end Reading

end JavaMinus.Toml
