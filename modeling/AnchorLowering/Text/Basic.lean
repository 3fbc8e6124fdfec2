import AnchorLowering.Text.Class

/-!
# Texts

A text is the list of its code points, so every length, offset and index counts code points.
String literals stand for the text of their characters.
-/

namespace AnchorLowering

abbrev Text := List Char

instance : Coe String Text := ⟨String.toList⟩

namespace Text

/-! ## Trimming and words -/

def trimLeft (t : Text) : Text := t.dropWhile isBlank

def trimRight (t : Text) : Text := (t.reverse.dropWhile isBlank).reverse

/-- The text without the blanks at both ends. -/
def trim (t : Text) : Text := trimRight (trimLeft t)

def trimDots (t : Text) : Text := (t.reverse.dropWhile (· == '.')).reverse

def blankCount (t : Text) : Nat := (t.takeWhile isBlank).length

def withoutBlanks (t : Text) : Text := t.filter (!isBlank ·)

/-- The maximal runs of characters that satisfy `keep`, in order. -/
def runsOf (keep : Char → Bool) : Text → List Text
  | [] => []
  | c :: rest =>
    if keep c then
      match rest, runsOf keep rest with
      | d :: _, run :: runs => if keep d then (c :: run) :: runs else [c] :: run :: runs
      | _, runs => [c] :: runs
    else runsOf keep rest

/-- The words of a text: its maximal runs without blanks. -/
def words (t : Text) : List Text := runsOf (!isBlank ·) t

/-! ## Parts of a text -/

def concat (parts : List Text) : Text := parts.flatten

/-- The texts one after the other, with `separator` between neighbours. -/
def join (separator : Text) (parts : List Text) : Text := separator.intercalate parts

def startsWith (t head : Text) : Bool := head.isPrefixOf t

def endsWith (t tail : Text) : Bool := tail.isSuffixOf t

def holds : Text → Text → Bool
  | [], part => part.isEmpty
  | c :: rest, part => part.isPrefixOf (c :: rest) || holds rest part

/-- The characters from `start` up to `stop`; both ends are cut to the text. -/
def slice (t : Text) (start stop : Nat) : Text := (t.take stop).drop start

/-- The text with the characters from `start` to `stop` replaced. -/
def splice (t : Text) (start stop : Nat) (replacement : Text) : Text :=
  t.take start ++ replacement ++ t.drop stop

/-- What stands before the first `separator` character; the whole text where there is none. -/
def beforeFirst (separator : Char) (t : Text) : Text := t.takeWhile (· != separator)

/-! ## Numbers -/

def ofNat (n : Nat) : Text := Nat.toDigits 10 n

/-- An integer in decimal, a minus sign before a negative one. -/
def ofInt : Int → Text
  | .ofNat n => ofNat n
  | .negSucc n => '-' :: ofNat (n + 1)

def toNat (digits : Text) : Nat := digits.foldl (fun n c => 10 * n + digitValue c) 0

/-- The text with each letter in lower case, as names are looked up in tables. The few forms of more
than one character do not matter there: no name in a table has them. -/
def lower (t : Text) : Text := t.map toLower

example : words " ab  c " = ["ab".toList, "c".toList] := by decide
example : trim "  a b\n" = "a b".toList := by decide
example : splice "abcdef" 4 2 "x" = "abcdxcdef".toList := by decide

end Text

end AnchorLowering
