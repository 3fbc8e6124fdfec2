import AnchorLowering.Pattern.Search

/-!
# Code and sealed regions

Comments and literals are *sealed*: nothing inside them is read as code. A region is a line
comment, a block comment (which does not nest), a string (plain, byte or raw) or a character
literal; one that is not closed reaches to the end of the text. A lone quote, as in a lifetime,
is code.

**Two views.** `segments` cuts a text into code and sealed stretches, and `codeMask` tells for
each character whether it is code.

**Two ways to replace.** `replaceInCode` runs a rule on each code stretch alone, so the rule sees
neither across nor into a sealed region. `replaceFromCode` runs it on the whole text and keeps
the matches that start in code, so a match may contain a literal.
-/

namespace AnchorLowering.Source

open Pattern

/-! ## Sealed regions -/

/-- The rest of a string up to and with its closing quote, as a length. -/
def stringTail : Text → Nat
  | [] => 0
  | '"' :: _ => 1
  | '\\' :: _ :: rest => 2 + stringTail rest
  | _ :: rest => 1 + stringTail rest

/-- The rest of a raw string up to and with a quote and `hashes` hash signs, as a length. -/
def rawTail (hashes : Nat) : Text → Nat
  | [] => 0
  | c :: rest =>
    if c == '"' && (List.replicate hashes '#').isPrefixOf rest then 1 + hashes
    else 1 + rawTail hashes rest

/-- The rest of a block comment up to and with its closing mark, as a length. -/
def blockTail : Text → Nat
  | [] => 0
  | '*' :: '/' :: _ => 2
  | _ :: rest => 1 + blockTail rest

def escape : Pattern Unit :=
  (do lit "x"; let _ ← one isHexDigit; let _ ← one isHexDigit)
    <|> (do
      lit "u\x7b"
      let digits ← capture (many1 isHexDigit)
      require (digits.length ≤ 6)
      lit "\x7d")
    <|> (do let _ ← one (· != '\n'))

def charLiteral : Pattern Unit := do
  let _ ← opt (lit "b")
  lit "'"
  (do lit "\\"; escape)
    <|> (do let _ ← one fun c => c != '\\' && c != '\'' && c != '\n')
  lit "'"

/-- The length of the raw string whose opening quote follows `skip` characters and some hashes. -/
def rawString? (skip : Nat) (t : Text) : Option Nat :=
  let rest := t.drop skip
  let hashes := (rest.takeWhile (· == '#')).length
  match rest.drop hashes with
  | '"' :: body => some (skip + hashes + 1 + rawTail hashes body)
  | _ => none

def sealedLength? (c : Cursor) : Option Nat :=
  let fresh := !c.before.head?.any isWord
  match c.after with
  | '/' :: '/' :: rest => some (2 + (rest.takeWhile (· != '\n')).length)
  | '/' :: '*' :: rest => some (2 + blockTail rest)
  | '"' :: rest => some (1 + stringTail rest)
  | '\'' :: _ => (charLiteral.firstAt c).map (·.2)
  | 'r' :: _ => if fresh then rawString? 1 c.after else none
  | 'b' :: 'r' :: _ => if fresh then rawString? 2 c.after else none
  | 'b' :: '"' :: rest => if fresh then some (2 + stringTail rest) else none
  | 'b' :: '\'' :: _ => if fresh then (charLiteral.firstAt c).map (·.2) else none
  | _ => none

def sealedClaim : Claim Unit := fun c => (sealedLength? c).map fun n => ((), n)

/-! ## Segments and the code mask -/

structure Segment where
  isCode : Bool
  text : Text
  deriving DecidableEq

/-- Puts a piece before the segments that follow it; neighbouring code characters share one. -/
def Segment.consPiece (piece : Piece Unit) (rest : List Segment) : List Segment :=
  match piece, rest with
  | .claimed _ t, rest => ⟨false, t⟩ :: rest
  | .char c, ⟨true, t⟩ :: rest => ⟨true, c :: t⟩ :: rest
  | .char c, rest => ⟨true, [c]⟩ :: rest

def segments (t : Text) : List Segment :=
  (Text.pieces sealedClaim t).foldr Segment.consPiece []

def codeMask (t : Text) : List Bool :=
  (Text.pieces sealedClaim t).flatMap fun piece =>
    match piece with
    | .char _ => [true]
    | .claimed _ s => s.map fun _ => false

abbrev Marked := List (Char × Bool)

def marked (t : Text) : Marked := t.zip (codeMask t)

def inCode (t : Text) (index : Nat) : Bool := (codeMask t).getD index true

/-! ## Searching and replacing in code -/

variable {α : Type}

/-- The matches that start in code. The search itself runs over the whole text, so a match in a
sealed region still uses up its characters. -/
def findAll (p : Pattern α) (t : Text) : List (Match α) :=
  let mask := codeMask t
  (p.findAll t).filter fun m => mask.getD m.start true

def find? (p : Pattern α) (t : Text) : Option (Match α) := (findAll p t).head?

def occurs (p : Pattern α) (t : Text) : Bool := (find? p t).isSome

/-- Applies a function to each code stretch and keeps the sealed regions. -/
def mapCode (f : Text → Text) (t : Text) : Text :=
  (segments t).flatMap fun s => if s.isCode then f s.text else s.text

def replaceInCode (rule : Pattern Text) (t : Text) : Text := mapCode rule.replaceAll t

/-- Replaces the matches that start in code; a match may reach into a sealed region. -/
def replaceFromCode (rule : Pattern Text) (t : Text) : Text :=
  let mask := codeMask t
  (Text.pieces rule.matchAt t).flatMap fun piece =>
    match piece with
    | .char c => [c]
    | .claimed m s => if mask.getD m.start true then m.value else s

/-- Writes every run of blanks in a code stretch as one space, and trims the result. -/
def collapseBlanks (t : Text) : Text :=
  Text.trim (replaceInCode (do blanks1; pure " ".toList) t)

end AnchorLowering.Source
