import AnchorLowering.Source.Region

/-!
# The index of sealed regions

A reader that asks many times whether a place is in code keeps an index of the sealed regions: where
each starts and where it stops, from left to right. A place is looked up by a binary search for the
last region that starts at or before it.
-/

namespace AnchorLowering.Source

/-- The sealed regions among pieces, the first piece at `place`, each as its start and its stop. -/
def regionSpans : Nat → List (Piece Unit) → List (Nat × Nat)
  | _, [] => []
  | place, .char _ :: rest => regionSpans (place + 1) rest
  | place, .claimed _ t :: rest => (place, place + t.length) :: regionSpans (place + t.length) rest

/-- The place among ascending entries where those greater than `index` begin, if it lies between
`low` and `high`. -/
def bisectRight (entries : Array Nat) (index low high : Nat) : Nat :=
  if low < high then
    let middle := (low + high) / 2
    if index < entries.getD middle 0 then bisectRight entries index low middle
    else bisectRight entries index (middle + 1) high
  else low
termination_by high - low

/-- Where the sealed regions of a text start and where they stop. -/
structure RegionIndex where
  starts : Array Nat
  stops : Array Nat

namespace RegionIndex

def ofText (t : Text) : RegionIndex :=
  let spans := regionSpans 0 (Text.pieces sealedClaim t)
  ⟨(spans.map (·.1)).toArray, (spans.map (·.2)).toArray⟩

def sealedStop? (r : RegionIndex) (index : Nat) : Option Nat :=
  match bisectRight r.starts index 0 r.starts.size with
  | 0 => none
  | k + 1 =>
    let stop := r.stops.getD k 0
    if index < stop then some stop else none

def inCode (r : RegionIndex) (index : Nat) : Bool := (r.sealedStop? index).isNone

end RegionIndex

end AnchorLowering.Source
