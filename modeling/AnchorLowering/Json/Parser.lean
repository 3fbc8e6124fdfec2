import AnchorLowering.Json.Basic

/-!
# Reading JSON

The reader takes one value with blanks around it and nothing else. It accepts the names of the
three special numbers, refuses control characters in strings, and of a repeated key takes the last
value at the place of the first.

The reader is a function of the remaining characters. Its recursion is bounded by their number,
since every value, item and key takes at least one.
-/

namespace AnchorLowering.Json

def isSpace (c : Char) : Bool := c == ' ' || c == '\t' || c == '\n' || c == '\r'

def skipSpace (t : Text) : Text := t.dropWhile isSpace

/-! ## Strings -/

def hexValue? (c : Char) : Option Nat :=
  if isDigit c then some (c.toNat - '0'.toNat)
  else if 'a' ≤ c && c ≤ 'f' then some (c.toNat - 'a'.toNat + 10)
  else if 'A' ≤ c && c ≤ 'F' then some (c.toNat - 'A'.toNat + 10)
  else none

def unit? (a b c d : Char) : Option Nat := do
  return (((← hexValue? a) * 16 + (← hexValue? b)) * 16 + (← hexValue? c)) * 16 + (← hexValue? d)

def shortEscape? : Char → Option Char
  | '"' => some '"'
  | '\\' => some '\\'
  | '/' => some '/'
  | 'b' => some '\x08'
  | 'f' => some '\x0c'
  | 'n' => some '\n'
  | 'r' => some '\r'
  | 't' => some '\t'
  | _ => none

def isHighUnit (n : Nat) : Bool := 0xd800 ≤ n && n ≤ 0xdbff

def isLowUnit (n : Nat) : Bool := 0xdc00 ≤ n && n ≤ 0xdfff

def ofPair (high low : Nat) : Char :=
  Char.ofNat (0x10000 + (high - 0xd800) * 0x400 + (low - 0xdc00))

/-- The rest of a string after its opening quote: its text and what follows the closing quote. -/
def stringRest? : Text → Option (Text × Text)
  | [] => none
  | '"' :: rest => some ([], rest)
  | '\\' :: 'u' :: a :: b :: c :: d :: '\\' :: 'u' :: e :: f :: g :: h :: rest => do
    let first ← unit? a b c d
    match unit? e f g h with
    | some second =>
      if isHighUnit first && isLowUnit second then
        let (t, rest) ← stringRest? rest
        some (ofPair first second :: t, rest)
      else
        let (t, rest) ← stringRest? ('\\' :: 'u' :: e :: f :: g :: h :: rest)
        some (Char.ofNat first :: t, rest)
    | none => none
  | '\\' :: 'u' :: a :: b :: c :: d :: rest => do
    let n ← unit? a b c d
    let (t, rest) ← stringRest? rest
    some (Char.ofNat n :: t, rest)
  | '\\' :: x :: rest => do
    let c ← shortEscape? x
    let (t, rest) ← stringRest? rest
    some (c :: t, rest)
  | c :: rest =>
    if c.toNat < 0x20 then none
    else do
      let (t, rest) ← stringRest? rest
      some (c :: t, rest)

/-! ## Numbers -/

/-- The digits at the start of a text, and what follows them. -/
def digits (t : Text) : Text × Text := (t.takeWhile isDigit, t.dropWhile isDigit)

/-- The exponent at the start of a text, and what follows it. -/
def exponent? : Text → Option (Int × Text)
  | e :: rest =>
    if e == 'e' || e == 'E' then
      let (negative, rest) :=
        match rest with
        | '-' :: r => (true, r)
        | '+' :: r => (false, r)
        | r => (false, r)
      let (ds, rest) := digits rest
      if ds.isEmpty then none
      else some (if negative then -(Text.toNat ds : Int) else Text.toNat ds, rest)
    else none
  | [] => none

/-- The digits after a decimal point at the start of a text, and what follows them. -/
def fraction? : Text → Option (Text × Text)
  | '.' :: rest =>
    let (ds, rest) := digits rest
    if ds.isEmpty then none else some (ds, rest)
  | _ => none

/-- A number without its sign. A whole part that starts with zero is that zero alone. -/
def unsigned? (negative : Bool) (t : Text) : Option (Json × Text) :=
  let (whole, rest) :=
    match t with
    | '0' :: r => ("0".toList, r)
    | _ => digits t
  if whole.isEmpty then none
  else
    let (fraction, afterFraction) :=
      ((fraction? rest).map fun r => (some r.1, r.2)).getD (none, rest)
    let (power, afterPower) :=
      ((exponent? afterFraction).map fun r => (some r.1, r.2)).getD (none, afterFraction)
    match fraction, power with
    | none, none =>
      let n := Text.toNat whole
      some (.int (if negative then -(n : Int) else n), rest)
    | _, _ =>
      let places := fraction.getD []
      some (.decimal (Decimal.normal negative (Text.toNat (whole ++ places))
        (power.getD 0 - places.length)), afterPower)

def names : List (String × Json) :=
  [("null", .null), ("true", .bool true), ("false", .bool false), ("NaN", .decimal .notANumber),
   ("Infinity", .decimal (.infinite false)), ("-Infinity", .decimal (.infinite true))]

/-- A name at the start of a text, and what follows it. -/
def named? (t : Text) : Option (Json × Text) :=
  (names.find? fun n => t.startsWith n.1.toList).map fun n => (n.2, t.drop n.1.length)

/-- A number or a name at the start of a text, and what follows it. -/
def scalar? (t : Text) : Option (Json × Text) :=
  match named? t with
  | some r => some r
  | none =>
    match t with
    | '-' :: rest => unsigned? true rest
    | _ => unsigned? false t

/-! ## Values -/

mutual

/-- A value at the start of a text, and what follows it. -/
def readValue? : Nat → Text → Option (Json × Text)
  | 0, _ => none
  | fuel + 1, t =>
    match t with
    | '"' :: rest => (stringRest? rest).map fun r => (.str r.1, r.2)
    | '[' :: rest =>
      match skipSpace rest with
      | ']' :: rest => some (.arr [], rest)
      | rest => (readItems? fuel rest).map fun r => (.arr r.1, r.2)
    | '\x7b' :: rest =>
      match skipSpace rest with
      | '\x7d' :: rest => some (.obj [], rest)
      | rest => (readEntries? fuel rest).map fun r => (.obj (Table.ofEntries r.1), r.2)
    | _ => scalar? t

def readItems? : Nat → Text → Option (List Json × Text)
  | 0, _ => none
  | fuel + 1, t => do
    let (item, rest) ← readValue? fuel (skipSpace t)
    match skipSpace rest with
    | ',' :: rest =>
      let (items, rest) ← readItems? fuel rest
      some (item :: items, rest)
    | ']' :: rest => some ([item], rest)
    | _ => none

/-- The entries of an object, up to its closing brace. -/
def readEntries? : Nat → Text → Option (List (Text × Json) × Text)
  | 0, _ => none
  | fuel + 1, t => do
    let '"' :: rest := skipSpace t | none
    let (key, rest) ← stringRest? rest
    let ':' :: rest := skipSpace rest | none
    let (value, rest) ← readValue? fuel (skipSpace rest)
    match skipSpace rest with
    | ',' :: rest =>
      let (entries, rest) ← readEntries? fuel rest
      some ((key, value) :: entries, rest)
    | '\x7d' :: rest => some ([(key, value)], rest)
    | _ => none

end

def parse? (t : Text) : Option Json := do
  let (value, rest) ← readValue? (t.length + 1) (skipSpace t)
  if (skipSpace rest).isEmpty then some value else none

end AnchorLowering.Json
