import AnchorLowering.Text.Basic

/-!
# Base 58 keys

A program id is a key of 32 bytes written in base 58. The digits leave out the letters and digits
that are easily confused, and each leading `1` stands for a zero byte.
-/

namespace AnchorLowering.Base58

def alphabet : Text := "123456789ABCDEFGHJKLMNPQRSTUVWXYZabcdefghijkmnopqrstuvwxyz"

def digits? (t : Text) : Option (List Nat) := t.mapM fun c => alphabet.idxOf? c

/-- The number of bytes that a text of digits stands for: one for each leading zero digit, and as
many as the value takes. -/
def byteCount (digits : List Nat) : Nat :=
  let value := digits.foldl (fun n d => 58 * n + d) 0
  (digits.takeWhile (· == 0)).length + if value = 0 then 0 else Nat.log2 value / 8 + 1

inductive KeyError where
  | wrongSize
  | invalidDigit
  deriving DecidableEq

def KeyError.message : KeyError → Text
  | wrongSize => "String is the wrong size"
  | invalidDigit => "Invalid Base58 string"

/-- The greatest number of bytes in the text of a key. -/
def maxKeyText : Nat := 44

def keySize : Nat := 32

/-- Whether a text is a key, and if it is none, why. -/
def checkKey (t : Text) : Except KeyError Unit :=
  if maxKeyText < t.foldl (fun n c => n + c.utf8Size) 0 then .error .wrongSize
  else
    match digits? t with
    | none => .error .invalidDigit
    | some digits => if byteCount digits = keySize then .ok () else .error .wrongSize

end AnchorLowering.Base58
