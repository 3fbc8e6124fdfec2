import AnchorLowering.Text.Basic

/-!
# Cursors and pieces

A scan walks a text from left to right. At each place it asks a *claim* whether something starts
there and how long it is. What the claim takes becomes one piece; a character that nothing claims
is a piece of its own. Comments and literals, matches of a pattern, calls and statements are all
found by scans that differ only in their claim.

Main results: `flatten_pieces` (the pieces spell the text) and `scan_eq_scan_zero` (a scan that is
inside a claimed stretch goes on after it as if started there).
-/

namespace AnchorLowering

/-- A place in a text: the characters before it, nearest first, and those after it. -/
structure Cursor where
  before : Text
  after : Text

namespace Cursor

def start (t : Text) : Cursor := ⟨[], t⟩

/-- The number of characters before the place. -/
def position (c : Cursor) : Nat := c.before.length

/-- The place `n` characters further on, or the end of the text if that is nearer. -/
def advance : Nat → Cursor → Cursor
  | n + 1, ⟨before, x :: after⟩ => advance n ⟨x :: before, after⟩
  | _, c => c

theorem advance_eq (n : Nat) (before after : Text) :
    advance n ⟨before, after⟩ = ⟨(after.take n).reverse ++ before, after.drop n⟩ := by
  induction n generalizing before after with
  | zero => cases after <;> simp [advance]
  | succ n ih => cases after <;> simp [advance, ih]

end Cursor

/-- A piece of a scanned text: one character that nothing claimed, or a claimed stretch with
what was found there. -/
inductive Piece (α : Type) where
  | char (c : Char)
  | claimed (value : α) (text : Text)

namespace Piece

def text {α : Type} : Piece α → Text
  | char c => [c]
  | claimed _ t => t

def value? {α : Type} : Piece α → Option α
  | char _ => none
  | claimed v _ => some v

end Piece

/-- What starts at a place, and its length; none, or length zero, if nothing does. -/
abbrev Claim (α : Type) := Cursor → Option (α × Nat)

namespace Text

/-- The scan behind `pieces`, with `skip` characters of a claimed stretch still to be passed. -/
def scan {α : Type} (claim : Claim α) : Nat → Text → Text → List (Piece α)
  | _, _, [] => []
  | skip + 1, before, c :: after => scan claim skip (c :: before) after
  | 0, before, c :: after =>
    match claim ⟨before, c :: after⟩ with
    | some (v, n + 1) => .claimed v (c :: after.take n) :: scan claim n (c :: before) after
    | _ => .char c :: scan claim 0 (c :: before) after

def pieces {α : Type} (claim : Claim α) (t : Text) : List (Piece α) := scan claim 0 [] t

theorem scan_eq_scan_zero {α : Type} (claim : Claim α) (skip : Nat) (before after : Text) :
    scan claim skip before after
      = scan claim 0 ((after.take skip).reverse ++ before) (after.drop skip) := by
  induction skip generalizing before after with
  | zero => simp
  | succ skip ih =>
    cases after with
    | nil => simp [scan]
    | cons c after => simp [scan, ih]

theorem flatten_scan {α : Type} (claim : Claim α) (skip : Nat) (before after : Text) :
    (scan claim skip before after).flatMap Piece.text = after.drop skip := by
  induction after generalizing skip before with
  | nil => simp [scan]
  | cons c after ih =>
    cases skip with
    | succ skip => simp [scan, ih]
    | zero =>
      rw [scan]
      split
      · simp [Piece.text, ih, List.take_append_drop]
      · simp [Piece.text, ih]

theorem flatten_pieces {α : Type} (claim : Claim α) (t : Text) :
    (pieces claim t).flatMap Piece.text = t := by
  simp [pieces, flatten_scan]

end Text

end AnchorLowering
