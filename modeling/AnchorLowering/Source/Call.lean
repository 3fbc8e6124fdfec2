import AnchorLowering.Source.Bracket

/-!
# Calls

A call is a head, given by a pattern, followed by a bracketed argument list. Any of the three
kinds of bracket will do, since macros accept them all. On request a question mark and a semicolon
that follow belong to the call.
-/

namespace AnchorLowering.Source

open Pattern

/-- A call with its argument list: `start` and `stop` delimit all of it. -/
structure Call where
  start : Nat
  stop : Nat
  head : Text
  argsText : Text
  hasTry : Bool
  hasSemicolon : Bool
  deriving DecidableEq

namespace Call

def args (call : Call) : List Text := arguments call.argsText

def suffix (call : Call) : Text :=
  (if call.hasTry then "?" else "").toList ++ (if call.hasSemicolon then ";" else "").toList

end Call

/-- The index of the first character at or after `index` that is no blank. -/
def skipBlanks (t : Text) (index : Nat) : Nat := index + Text.blankCount (t.drop index)

/-- The index after the character `mark`, if that is the first one at or after `index` that is no
blank. -/
def afterMark? (t : Text) (mark : Char) (index : Nat) : Option Nat :=
  let i := skipBlanks t index
  if t[i]? == some mark then some (i + 1) else none

/-- The question mark and the semicolon after `index`: whether each is there, and where they end. -/
def readSuffix (t : Text) (index : Nat) : Bool × Bool × Nat :=
  let question? := afterMark? t '?' index
  let stop := question?.getD index
  let semicolon? := afterMark? t ';' stop
  (question?.isSome, semicolon?.isSome, semicolon?.getD stop)

/-- The call whose head takes the characters from `start` to `headStop`. -/
def callWithHead? (t : Text) (takeSuffix : Bool) (start headStop : Nat) : Option Call := do
  let openIndex := skipBlanks t headStop
  if !t[openIndex]?.any isOpener then none
  let close ← matchingClose t openIndex
  let (hasTry, hasSemicolon, stop) :=
    if takeSuffix then readSuffix t (close + 1) else (false, false, close + 1)
  some {
    start, stop, hasTry, hasSemicolon
    head := t.slice start headStop
    argsText := t.slice (openIndex + 1) close }

variable {α : Type}

/-- Claims the calls of a text. A head that starts no call, and one in a sealed region, uses up its
own characters only. -/
def callClaim (t : Text) (head : Pattern α) (takeSuffix : Bool) : Claim (Option Call) :=
  let mask := codeMask t
  fun c => (head.firstAt c).map fun r =>
    let start := c.position
    let call? :=
      if mask.getD start true then callWithHead? t takeSuffix start (start + r.2) else none
    (call?, call?.elim r.2 fun call => call.stop - start)

/-- Every call with the given head that starts in code, from left to right. -/
def findCallsWith (takeSuffix : Bool) (head : Pattern α) (t : Text) : List Call :=
  (Text.pieces (callClaim t head takeSuffix) t).filterMap fun piece => piece.value?.join

def findCalls (head : Pattern α) (t : Text) : List Call := findCallsWith true head t

end AnchorLowering.Source
