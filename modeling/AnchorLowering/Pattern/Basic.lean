import AnchorLowering.Text.Piece

/-!
# Patterns

A pattern lists the ways in which it can match at a place, in order of preference: each way is
what was read and how many characters it took. The first way that lets the rest of a pattern
match is the one chosen, so running a pattern and taking the head of the list is matching with
backtracking, and the order of the list is the whole of its strategy.

Patterns are put together in `do` notation. A later part may look at what an earlier one read, so
a repeated name is a plain `lit name`. Longest-first and shortest-first repetition differ only in
the order of their results.
-/

namespace AnchorLowering

/-- The ways to match at a place: what was read, with the number of characters taken, the
preferred way first. -/
def Pattern (α : Type) : Type := Cursor → List (α × Nat)

namespace Pattern

variable {α β : Type}

instance : Monad Pattern where
  pure a := fun _ => [(a, 0)]
  bind p f := fun c => (p c).flatMap fun r =>
    (f r.1 (c.advance r.2)).map fun s => (s.1, r.2 + s.2)

instance : OrElse (Pattern α) := ⟨fun p q c => p c ++ q () c⟩

@[simp]
theorem pure_apply (a : α) (c : Cursor) : (pure a : Pattern α) c = [(a, 0)] := rfl

@[simp]
theorem bind_apply (p : Pattern α) (f : α → Pattern β) (c : Cursor) :
    (p >>= f) c = (p c).flatMap fun r => (f r.1 (c.advance r.2)).map fun s => (s.1, r.2 + s.2) :=
  rfl

@[simp]
theorem orElse_apply (p q : Pattern α) (c : Cursor) : (p <|> q) c = p c ++ q c := rfl

/-! ## Single characters and fixed texts -/

def require (condition : Bool) : Pattern Unit := fun _ => if condition then [((), 0)] else []

def one (test : Char → Bool) : Pattern Char := fun c =>
  match c.after with
  | x :: _ => if test x then [(x, 1)] else []
  | [] => []

def lit (t : Text) : Pattern Unit := fun c =>
  if t.isPrefixOf c.after then [((), t.length)] else []

/-- One of these texts, the earlier ones preferred; the value is the text. -/
def oneOf (texts : List Text) : Pattern Text := fun c =>
  texts.flatMap fun t => if t.isPrefixOf c.after then [(t, t.length)] else []

/-- One of the names of a table, the earlier ones preferred; the value is what it stands for. -/
def choose (table : List (String × α)) : Pattern α := fun c =>
  table.flatMap fun e => (lit e.1.toList c).map fun r => (e.2, r.2)

/-! ## Repetition -/

/-- The lengths `0, 1, …` up to the number of leading characters that pass the test. -/
def spanLengths (test : Char → Bool) (t : Text) : List Nat :=
  List.range ((t.takeWhile test).length + 1)

/-- Any number of characters that pass the test, as many as possible preferred. -/
def many (test : Char → Bool) : Pattern Unit := fun c =>
  (spanLengths test c.after).reverse.map fun n => ((), n)

/-- Any number of characters that pass the test, as few as possible preferred. -/
def few (test : Char → Bool) : Pattern Unit := fun c =>
  (spanLengths test c.after).map fun n => ((), n)

/-- At least one character that passes the test, as many as possible preferred. -/
def many1 (test : Char → Bool) : Pattern Unit := do
  let _ ← one test
  many test

/-- At least one character that passes the test, as few as possible preferred. -/
def few1 (test : Char → Bool) : Pattern Unit := do
  let _ ← one test
  few test

/-- Repetition of a pattern at most `bound` times; a repetition has to take a character. -/
def starUpTo (p : Pattern α) : Nat → Cursor → List Nat
  | 0, _ => [0]
  | bound + 1, c =>
    (p c).flatMap (fun r =>
      if r.2 = 0 then [] else (starUpTo p bound (c.advance r.2)).map (r.2 + ·)) ++ [0]

/-- Any number of repetitions of a pattern, as many as possible preferred. Each takes a character,
so the characters that are left bound their number. -/
def star (p : Pattern α) : Pattern Unit := fun c =>
  (starUpTo p c.after.length c).map fun n => ((), n)

def opt (p : Pattern α) : Pattern (Option α) := fun c =>
  (p c).map (fun r => (some r.1, r.2)) ++ [(none, 0)]

/-! ## Looking around -/

def ahead (p : Pattern α) : Pattern Unit := fun c => if (p c).isEmpty then [] else [((), 0)]

def notAhead (p : Pattern α) : Pattern Unit := fun c => if (p c).isEmpty then [((), 0)] else []

/-- The characters before the place, nearest first, pass the test. -/
def behind (test : Text → Bool) : Pattern Unit := fun c =>
  if test c.before then [((), 0)] else []

def after (test : Char → Bool) : Pattern Unit := behind fun before => before.head?.any test

/-- The characters right before the place do not spell this text. -/
def notAfter (t : Text) : Pattern Unit := behind fun before => !t.reverse.isPrefixOf before

/-- A name starts or ends here: of the two neighbours exactly one is a word character. -/
def wordBoundary : Pattern Unit := fun c =>
  if c.before.head?.any isWord != c.after.head?.any isWord then [((), 0)] else []

def atEnd : Pattern Unit := fun c => if c.after.isEmpty then [((), 0)] else []

/-! ## What was read -/

def capture (p : Pattern α) : Pattern Text := fun c =>
  (p c).map fun r => (c.after.take r.2, r.2)

def withText (p : Pattern α) : Pattern (α × Text) := fun c =>
  (p c).map fun r => ((r.1, c.after.take r.2), r.2)

/-! ## Common parts -/

def blanks : Pattern Unit := many isBlank

def blanks1 : Pattern Unit := many1 isBlank

def word : Pattern Unit := many1 isWord

/-- Any number of characters on the same line, as many as possible preferred. -/
def line : Pattern Unit := many (· != '\n')

def spaced (t : Text) : Pattern Unit := do
  blanks
  lit t
  blanks

/-- A sequence of texts with blanks allowed between neighbours. -/
def tokens : List Text → Pattern Unit
  | [] => pure ()
  | [t] => lit t
  | t :: rest => do
    lit t
    blanks
    tokens rest

end Pattern

end AnchorLowering
