import AnchorLowering.Pattern.Basic

/-!
# Searching and replacing

A pattern becomes a claim by its preferred way to match, so searching is a scan: matches are found
from left to right and do not overlap. A pattern whose value is a text is a replacement rule.
-/

namespace AnchorLowering

/-- A match of a pattern: where it starts, where it stops, and what was read. -/
structure Match (α : Type) where
  start : Nat
  stop : Nat
  value : α
  deriving DecidableEq

namespace Pattern

variable {α : Type}

def firstAt (p : Pattern α) : Claim α := fun c => (p c).head?

def readStart? (p : Pattern α) (t : Text) : Option (α × Nat) := p.firstAt (.start t)

def readAll? (p : Pattern α) (t : Text) : Option α :=
  ((p (.start t)).find? fun r => r.2 == t.length).map (·.1)

def matchAt (p : Pattern α) : Claim (Match α) := fun c =>
  (p.firstAt c).map fun r => (⟨c.position, c.position + r.2, r.1⟩, r.2)

/-- The matches that start in code. The search itself runs over the whole text, so a match in a
sealed region still uses up its characters. -/
def findAll (p : Pattern α) (t : Text) : List (Match α) :=
  (Text.pieces p.matchAt t).filterMap Piece.value?

def find? (p : Pattern α) (t : Text) : Option (Match α) := (p.findAll t).head?

def occursIn (p : Pattern α) (t : Text) : Bool := (p.find? t).isSome

/-- Replaces every match in a text by its value. -/
def replaceAll (p : Pattern Text) (t : Text) : Text :=
  (Text.pieces p.firstAt t).flatMap fun piece =>
    match piece with
    | .char c => [c]
    | .claimed replacement _ => replacement

end Pattern

/-- Replaces every occurrence of a fixed text, from left to right. -/
def Text.replace (t old new : Text) : Text :=
  Pattern.replaceAll (do Pattern.lit old; pure new) t

/-- What follows the last occurrence of a separator; the whole text where there is none. -/
def Text.lastPart (separator t : Text) : Text :=
  match ((Pattern.lit separator).findAll t).getLast? with
  | some m => t.drop m.stop
  | none => t

example : Text.lastPart "::" "a::b::c" = "c".toList := by decide
example : Text.replace "a*/b**/" "*/" "* /" = "a* /b** /".toList := by decide

end AnchorLowering
