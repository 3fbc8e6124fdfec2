import AnchorLowering.Text.Basic

/-!
# Edits

An edit replaces a span of a text. A list of edits is applied from the rightmost to the leftmost,
so that no edit moves the span of another; an edit given twice counts once, and edits whose spans
overlap are refused.
-/

namespace AnchorLowering.Source

structure Edit where
  start : Nat
  stop : Nat
  replacement : Text
  deriving DecidableEq

/-- The span of an edit that overlaps the edit to its right. -/
structure Overlap where
  start : Nat
  stop : Nat
  deriving DecidableEq

def Overlap.message (o : Overlap) : Text :=
  "Overlapping rewrite directives at ".toList ++ Text.ofNat o.start ++ "..".toList ++
    Text.ofNat o.stop

namespace Edit

/-- The first edit starts further right, or starts at the same place and does not stop earlier. -/
def rightOf (a b : Edit) : Bool := b.start < a.start || (a.start == b.start && b.stop ≤ a.stop)

def ordered (edits : List Edit) : List Edit := edits.eraseDups.mergeSort rightOf

/-- Applies edits that come from right to left; `limit` is where the last one started. -/
def applyOrdered (t : Text) (limit : Nat) : List Edit → Except Overlap Text
  | [] => .ok t
  | e :: rest =>
    if limit < e.stop then .error ⟨e.start, e.stop⟩
    else applyOrdered (t.splice e.start e.stop e.replacement) e.start rest

def apply (t : Text) (edits : List Edit) : Except Overlap Text :=
  applyOrdered t (t.length + 1) (ordered edits)

end Edit

end AnchorLowering.Source
