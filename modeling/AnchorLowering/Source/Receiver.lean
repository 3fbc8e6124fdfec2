import AnchorLowering.Pattern.Basic

/-!
# Receivers

The parts of a dotted access: the chain of names before the last one, and the place where such a
chain may start.
-/

namespace AnchorLowering.Source

open Pattern

def link : Pattern Unit := do
  wordBoundary
  word
  spaced "."

/-- Any number of names, each with the dot after it. -/
def chain : Pattern Unit := star link

/-- At least one name, each with the dot after it. -/
def chain1 : Pattern Unit := do
  link
  chain

def dottedName : Pattern Unit := do
  chain
  wordBoundary
  word

/-- A receiver may start here: no name ends here, and no dot of a member access stands before. The
second dot of a range is no member access. -/
def receiverStart : Pattern Unit :=
  behind fun before =>
    match before with
    | [] => true
    | '.' :: rest => rest.head? == some '.'
    | c :: _ => !isWord c

def noArguments : Pattern Unit := tokens ["(", ")"]

def receiver (name : Text) : Pattern Unit := do
  receiverStart
  lit name

def wholeReceiver (name : Text) : Pattern Unit := do
  receiver name
  wordBoundary

/-- The keyword of a binding, possibly with `mut`. -/
def letKeyword : Pattern Unit := do
  wordBoundary
  lit "let"
  blanks1
  let _ ← opt (do lit "mut"; blanks1)

/-- A binding of the name, up to the end of the name. -/
def letName (name : Text) : Pattern Unit := do
  letKeyword
  lit name
  wordBoundary

def borrow : Pattern Unit := do
  lit "&"
  blanks
  let _ ← opt (do lit "mut"; blanks1)

end AnchorLowering.Source
