import AnchorLowering.Json.Printer

/-!
# Values in running text

Seeds and error messages quote values in running text. There a string stands for itself, and any
other value has the notation below, in which strings are quoted: by single quotes, or by double
quotes where the string holds a single quote and no double one.
-/

namespace AnchorLowering.Json

/-- The character has no picture of its own: controls, separators other than the space, and
formatting marks. -/
def isInvisible (c : Char) : Bool :=
  let n := c.toNat
  n < 0x20 || (0x7f ≤ n && n ≤ 0xa0) || n == 0xad || n == 0x1680 || (0x2000 ≤ n && n ≤ 0x200f)
    || (0x2028 ≤ n && n ≤ 0x202f) || (0x205f ≤ n && n ≤ 0x206f) || n == 0x3000 || n == 0xfeff
    || (0xe000 ≤ n && n ≤ 0xf8ff)

/-- A character of a quoted string; `quote` is the quote in use. -/
def quoteChar (quote c : Char) : Text :=
  if c == quote || c == '\\' then ['\\', c]
  else if c == '\n' then "\\n"
  else if c == '\r' then "\\r"
  else if c == '\t' then "\\t"
  else if isInvisible c then
    if c.toNat < 0x100 then "\\x".toList ++ hexDigits 2 c.toNat
    else "\\u".toList ++ hexDigits 4 c.toNat
  else [c]

def quoteText (t : Text) : Text :=
  let quote := if t.contains '\'' && !t.contains '"' then '"' else '\''
  quote :: t.flatMap (quoteChar quote) ++ [quote]

mutual

def notate : Json → Text
  | null => "None"
  | bool b => if b then "True" else "False"
  | int n => Text.ofInt n
  | decimal d => d.render
  | str t => quoteText t
  | arr [] => "[]"
  | arr (item :: items) => '[' :: notate item ++ notateItems items ++ [']']
  | obj [] => "\x7b\x7d"
  | obj ((key, value) :: fields) =>
    '\x7b' :: quoteText key ++ ": ".toList ++ notate value ++ notateFields fields ++ ['\x7d']

def notateItems : List Json → Text
  | [] => []
  | item :: items => ", ".toList ++ notate item ++ notateItems items

def notateFields : List (Text × Json) → Text
  | [] => []
  | (key, value) :: fields =>
    ", ".toList ++ quoteText key ++ ": ".toList ++ notate value ++ notateFields fields

end

/-- A value in running text: a string stands for itself. -/
def display : Json → Text
  | str t => t
  | j => notate j

example : display (arr [int 1, str "a'b", null]) = "[1, \"a'b\", None]".toList := by decide

end AnchorLowering.Json
