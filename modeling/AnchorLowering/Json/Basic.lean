import AnchorLowering.Text.Table

/-!
# JSON values

The values in which program models are written. Integers have any size; a number with a fraction
or an exponent is a decimal, which is a number of its own kind even if its value is whole. Objects
keep the order of their keys.
-/

namespace AnchorLowering

/-- A decimal number: `digits · 10 ^ exponent` with a sign, or one of the three special values. -/
inductive Decimal where
  | finite (negative : Bool) (digits : Nat) (exponent : Int)
  | infinite (negative : Bool)
  | notANumber
  deriving DecidableEq

namespace Decimal

/-- Moves trailing zeros of the digits into the exponent, at most `fuel` of them. -/
def shiftZeros : Nat → Nat → Int → Nat × Int
  | fuel + 1, digits, exponent =>
    if digits % 10 = 0 then shiftZeros fuel (digits / 10) (exponent + 1) else (digits, exponent)
  | 0, digits, exponent => (digits, exponent)

/-- The decimal with the fewest digits: zero has exponent zero, any other has no trailing zero. -/
def normal (negative : Bool) (digits : Nat) (exponent : Int) : Decimal :=
  if digits = 0 then .finite negative 0 0
  else
    let (digits, exponent) := shiftZeros (Nat.toDigits 10 digits).length digits exponent
    .finite negative digits exponent

def isZero : Decimal → Bool
  | finite _ digits _ => digits == 0
  | _ => false

/-- How a decimal is written: positionally if the first digit stands at most sixteen places before
and four places after the point, else with an exponent of at least two digits. A whole number
keeps one zero after the point. -/
def render : Decimal → Text
  | notANumber => "nan"
  | infinite negative => if negative then "-inf" else "inf"
  | finite negative digits exponent =>
    let ds := Text.ofNat digits
    let point : Int := ds.length + exponent
    let body : Text :=
      if digits = 0 then "0.0"
      else if point ≤ -4 ∨ 16 < point then
        let e := point - 1
        let mantissa := ds.take 1 ++ (if ds.length = 1 then [] else '.' :: ds.drop 1)
        let size := Text.ofNat e.natAbs
        mantissa ++ 'e' :: (if e < 0 then '-' else '+') ::
          (List.replicate (2 - size.length) '0' ++ size)
      else if point ≤ 0 then "0.".toList ++ List.replicate (-point).toNat '0' ++ ds
      else if (ds.length : Int) ≤ point then
        ds ++ List.replicate (point.toNat - ds.length) '0' ++ ".0".toList
      else ds.take point.toNat ++ '.' :: ds.drop point.toNat
    if negative then '-' :: body else body

example : render (normal false 150 (-2)) = "1.5".toList := by decide
example : render (normal true 1 20) = "-1e+20".toList := by decide
example : render (normal false 25 (-6)) = "2.5e-05".toList := by decide
example : render (normal false 7 2) = "700.0".toList := by decide

end Decimal

inductive Json where
  | null
  | bool (b : Bool)
  | int (n : Int)
  | decimal (d : Decimal)
  | str (t : Text)
  | arr (items : List Json)
  | obj (fields : List (Text × Json))

namespace Json

instance : Inhabited Json := ⟨null⟩

/-- The value is filled in: it is not null, false, zero or empty. -/
def isFilled : Json → Bool
  | null => false
  | bool b => b
  | int n => n != 0
  | decimal d => !d.isZero
  | str t => !t.isEmpty
  | arr items => !items.isEmpty
  | obj fields => !fields.isEmpty

def text? : Json → Option Text
  | str t => some t
  | _ => none

def items? : Json → Option (List Json)
  | arr items => some items
  | _ => none

def get? (j : Json) (key : Text) : Option Json :=
  match j with
  | obj fields => fields.lookup key
  | _ => none

def ofText? : Option Text → Json
  | some t => str t
  | none => null

def nat (n : Nat) : Json := int n

def texts (ts : List Text) : Json := arr (ts.map str)

/-- An object with the given keys in this order. -/
def object (fields : List (String × Json)) : Json := obj (fields.map fun f => (f.1.toList, f.2))

end Json

end AnchorLowering
