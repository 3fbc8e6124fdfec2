import AnchorLowering.Json.Basic

/-!
# Bounds and codes

A model may give a bound or an error code as a truth value. It counts as one or zero and is shown
as the truth value that it is.
-/

namespace AnchorLowering

/-- The text of a truth value. -/
def truthText (b : Bool) : Text := if b then "True" else "False"

/-- The greatest number of elements of a sequence. -/
inductive Bound where
  | count (n : Nat)
  | flag (b : Bool)
  deriving DecidableEq

namespace Bound

/-- The number that the bound stands for. -/
def toNat : Bound → Nat
  | count n => n
  | flag b => b.toNat

def text : Bound → Text
  | count n => Text.ofNat n
  | flag b => truthText b

def toJson : Bound → Json
  | count n => .nat n
  | flag b => .bool b

def ofJson? : Json → Option Bound
  | .bool b => some (.flag b)
  | .int (.ofNat n) => some (.count n)
  | _ => none

end Bound

/-- The code of a program error. -/
inductive ErrorCode where
  | number (n : Int)
  | flag (b : Bool)
  deriving DecidableEq

namespace ErrorCode

def toJson : ErrorCode → Json
  | number n => .int n
  | flag b => .bool b

def ofJson? : Json → Option ErrorCode
  | .bool b => some (.flag b)
  | .int n => some (.number n)
  | _ => none

end ErrorCode

end AnchorLowering
