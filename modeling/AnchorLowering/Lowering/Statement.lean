import AnchorLowering.Source.Bracket

/-!
# Statements

The last step writes one statement a line and sets the spaces between tokens. A body is cut into
statements along the pieces of its scan: a statement ends at a semicolon outside brackets, or at a
brace that brings the depth back to zero unless the code after it continues the statement. A
comment that stands between statements keeps a line of its own; a line comment inside a statement
becomes a block comment, since the statement goes on after it on the same line.
-/

namespace AnchorLowering.Lowering

open Pattern Source

/-! ## Spaces -/

def keywords : List Text :=
  ["if", "while", "return", "match", "else", "in", "let", "for", "loop", "as", "mut", "move",
   "break", "continue"]

def callableName : Pattern Text := do
  wordBoundary
  notAhead (do let _ ← oneOf keywords; wordBoundary)
  capture word

def beforeOpener : Pattern Unit := ahead (one isOpener)

/-- A blank between a mark and its operand, dropped where the mark cannot be a binary operator. -/
def unaryMark (mark : Char) (starts : Char → Bool) : Pattern Text := do
  after fun c => c == '(' || c == '[' || c == ',' || c == '='
  let gap ← capture blanks
  lit [mark]
  blanks1
  ahead (one starts)
  pure (gap ++ [mark])

/-- The rules for spaces in a code stretch, in the order in which they run. -/
def spacingRules : List (Pattern Text) :=
  [
   -- one space for a run of blanks
   (do blanks1; return " "),
   -- none around the parts of a path
   (do spaced "::"; return "::"),
   -- none around the dot of a member access
   (do
      after fun c => isWord c || c == ')' || c == ']' || c == '?'
      spaced "."
      ahead (one fun c => isLatinLetter c || c == '_')
      return "."),
   -- none after an opening bracket
   (do
      let opener ← one fun c => c == '(' || c == '['
      blanks1
      return [opener]),
   -- none before a closing bracket or a mark that ends something
   (do
      blanks1
      let mark ← one fun c => c == ')' || c == ']' || c == ',' || c == ';' || c == '?'
      return [mark]),
   -- none between a macro's name, its mark and its arguments
   (do
      let name ← callableName
      blanks1
      lit "!"
      blanks
      beforeOpener
      return name ++ ['!']),
   (do
      after isWord
      lit "!"
      blanks1
      beforeOpener
      return "!"),
   -- none between a function's name and its arguments
   (do
      let name ← callableName
      blanks1
      ahead (lit "(")
      return name),
   -- none after a reference or dereference mark
   (do
      lit "&"
      blanks1
      lit "mut"
      wordBoundary
      return "&mut"),
   unaryMark '&' (fun c => isWord c || c == '[' || c == '(' || c == '*'),
   unaryMark '*' (fun c => isWord c || c == '(')]

def spaceCode (code : Text) : Text := spacingRules.foldl (fun t rule => rule.replaceAll t) code

def normalizeSpacing (statement : Text) : Text := Text.trim (mapCode spaceCode statement)

/-! ## Cutting a body -/

/-- The code that follows a closing brace continues the statement. -/
def continuation : Pattern Unit := do
  blanks
  (do lit "else"; wordBoundary) <|> (do lit "as"; wordBoundary)
    <|> (do
      let _ ← one fun c =>
        c == '.' || c == '?' || c == ';' || c == ',' || c == ')' || c == ']')

def asBlockComment (comment : Text) : Text :=
  Text.concat ["/* ", (Text.trim (comment.drop 2)).replace "*/" "* /", " */"]

/-- The statement that the collected parts make up, if it is not empty. The parts are collected
latest first. -/
def closeStatement (parts : List Text) : List Text :=
  let statement := normalizeSpacing parts.reverse.flatten
  if statement.isEmpty then [] else [statement]

/-- The brace at a place closes the statement: what follows does not continue it. The place is given
by the brace and the pieces after it. -/
def endsAtBrace (rest : List (Piece Unit)) : Bool :=
  (continuation ⟨['\x7d'], rest.flatMap Piece.text⟩).isEmpty

/-- Cuts pieces into statements; `parts` are those of the current statement, latest first, and
`depth` counts the brackets that are open in it. -/
def cutPieces : List Text → Nat → List (Piece Unit) → List Text
  | parts, _, [] => closeStatement parts
  | parts, depth, .claimed _ t :: rest =>
    let isLine := t.startsWith "//"
    if (isLine || t.startsWith "/*") && depth == 0 && (Text.trim parts.reverse.flatten).isEmpty then
      Text.trimRight t :: cutPieces [] depth rest
    else cutPieces ((if isLine then asBlockComment t else t) :: parts) depth rest
  | parts, depth, .char c :: rest =>
    let parts := [c] :: parts
    if isOpener c then cutPieces parts (depth + 1) rest
    else if isCloser c then
      let depth := depth - 1
      if c == '\x7d' && depth == 0 && endsAtBrace rest then
        closeStatement parts ++ cutPieces [] depth rest
      else cutPieces parts depth rest
    else if c == ';' && depth == 0 then closeStatement parts ++ cutPieces [] depth rest
    else cutPieces parts depth rest

def statements (body : Text) : List Text := cutPieces [] 0 (Text.pieces sealedClaim body)

def layOut (body : Text) : Text := Text.join "\n" (statements body)

end AnchorLowering.Lowering
