import AnchorLowering.Source.Region

/-!
# Brackets

Brackets pair by depth over the code characters of a text: every opener counts one up and every
closer one down, whatever their kind. Depth decides which bracket closes an opener, where a
statement ends, and at which separators an argument list is split.
-/

namespace AnchorLowering.Source

def isOpener (c : Char) : Bool := c == '(' || c == '[' || c == '\x7b'

def isCloser (c : Char) : Bool := c == ')' || c == ']' || c == '\x7d'

/-! ## Partners -/

/-- The offset of the code bracket that brings the depth back to zero. A closer at depth zero ends
the search without a result. -/
def partnerOffset : Nat → Marked → Option Nat
  | _, [] => none
  | depth, (c, code) :: rest =>
    if code && isOpener c then (partnerOffset (depth + 1) rest).map (· + 1)
    else if code && isCloser c then
      match depth with
      | 0 => none
      | 1 => some 0
      | depth + 1 => (partnerOffset depth rest).map (· + 1)
    else (partnerOffset depth rest).map (· + 1)

def matchingClose (t : Text) (index : Nat) : Option Nat :=
  (partnerOffset 0 ((marked t).drop index)).map (· + index)

/-! ## Statements -/

/-- The offset of the first semicolon in code at depth zero. A closer at depth zero ends the search
without a result. -/
def semicolonOffset : Nat → Marked → Option Nat
  | _, [] => none
  | depth, (c, code) :: rest =>
    if code && isOpener c then (semicolonOffset (depth + 1) rest).map (· + 1)
    else if code && isCloser c then
      match depth with
      | 0 => none
      | depth + 1 => (semicolonOffset depth rest).map (· + 1)
    else if code && c == ';' && depth == 0 then some 0
    else (semicolonOffset depth rest).map (· + 1)

def statementEnd (t : Text) (index : Nat) : Option Nat :=
  (semicolonOffset 0 ((marked t).drop index)).map (· + index)

/-! ## Splitting -/

def consToFirst (c : Char) : List Text → List Text
  | part :: parts => (c :: part) :: parts
  | [] => [[c]]

/-- The parts between the separators in code at depth zero. Depth may fall below zero, and then
separators count again only once it is back. -/
def partsAtDepth (separator : Char) : Int → Marked → List Text
  | _, [] => [[]]
  | depth, (c, code) :: rest =>
    if code && isOpener c then consToFirst c (partsAtDepth separator (depth + 1) rest)
    else if code && isCloser c then consToFirst c (partsAtDepth separator (depth - 1) rest)
    else if code && c == separator && depth == 0 then [] :: partsAtDepth separator depth rest
    else consToFirst c (partsAtDepth separator depth rest)

def dropEmptyLast : List Text → List Text
  | [] => []
  | [t] => if t.isEmpty then [] else [t]
  | t :: rest => t :: dropEmptyLast rest

/-- The trimmed parts of a text between separators outside brackets and sealed regions. An empty
last part is left out, so a trailing separator is allowed. -/
def splitAt (separator : Char) (t : Text) : List Text :=
  dropEmptyLast ((partsAtDepth separator 0 (marked t)).map Text.trim)

def arguments (t : Text) : List Text := splitAt ',' t

/-- A body without the pair of braces that encloses all of it, if one does. -/
def unwrapBody (body : Text) : Text :=
  let trimmed := Text.trim body
  if trimmed.head? == some '\x7b' && matchingClose trimmed 0 == some (trimmed.length - 1) then
    trimmed.drop 1 |>.dropLast
  else trimmed

end AnchorLowering.Source
