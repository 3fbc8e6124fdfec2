import AnchorLowering.Json.Basic

/-!
# Writing JSON

Values are written either on one line without blanks, or over several lines with two spaces for
each level. Both forms are plain ASCII: any other character is an escape, in two halves where it
lies beyond the first plane. Empty containers stay on one line.
-/

namespace AnchorLowering.Json

/-- A number below `16 ^ width` as hexadecimal digits of that width. -/
def hexDigits (width n : Nat) : Text :=
  let ds := Nat.toDigits 16 n
  List.replicate (width - ds.length) '0' ++ ds

def escapeUnit (n : Nat) : Text := "\\u".toList ++ hexDigits 4 n

def escapeChar (c : Char) : Text :=
  match c with
  | '"' => "\\\""
  | '\\' => "\\\\"
  | '\n' => "\\n"
  | '\r' => "\\r"
  | '\t' => "\\t"
  | '\x08' => "\\b"
  | '\x0c' => "\\f"
  | c =>
    let n := c.toNat
    if 0x20 ≤ n && n ≤ 0x7e then [c]
    else if n < 0x10000 then escapeUnit n
    else escapeUnit (0xd800 + (n - 0x10000) / 0x400) ++ escapeUnit (0xdc00 + (n - 0x10000) % 0x400)

def renderText (t : Text) : Text := '"' :: t.flatMap escapeChar ++ ['"']

/-- A decimal number. The special values have names. -/
def renderDecimal : Decimal → Text
  | .notANumber => "NaN"
  | .infinite negative => if negative then "-Infinity" else "Infinity"
  | d => d.render

/-- How the parts of a container are set apart: what follows a key's colon, and what opens, parts
and closes the lines at each level. -/
structure Style where
  afterColon : Text
  newline : Nat → Text

def Style.compact : Style := ⟨[], fun _ => []⟩

/-- One part a line, indented by two spaces for each level. -/
def Style.indented : Style := ⟨" ", fun level => '\n' :: List.replicate (2 * level) ' '⟩

mutual

def renderWith (style : Style) (level : Nat) : Json → Text
  | null => "null"
  | bool b => if b then "true" else "false"
  | int n => Text.ofInt n
  | decimal d => renderDecimal d
  | str t => renderText t
  | arr [] => "[]"
  | arr (item :: items) =>
    '[' :: style.newline (level + 1) ++ renderWith style (level + 1) item
      ++ renderItems style (level + 1) items ++ style.newline level ++ [']']
  | obj [] => "\x7b\x7d"
  | obj ((key, value) :: fields) =>
    '\x7b' :: style.newline (level + 1) ++ renderText key ++ ':' :: style.afterColon
      ++ renderWith style (level + 1) value ++ renderFields style (level + 1) fields
      ++ style.newline level ++ ['\x7d']

/-- The items of an array after the first. -/
def renderItems (style : Style) (level : Nat) : List Json → Text
  | [] => []
  | item :: items =>
    ',' :: style.newline level ++ renderWith style level item ++ renderItems style level items

/-- The entries of an object after the first. -/
def renderFields (style : Style) (level : Nat) : List (Text × Json) → Text
  | [] => []
  | (key, value) :: fields =>
    ',' :: style.newline level ++ renderText key ++ ':' :: style.afterColon
      ++ renderWith style level value ++ renderFields style level fields

end

def render (j : Json) : Text := renderWith .compact 0 j

def renderIndented (j : Json) : Text := renderWith .indented 0 j

end AnchorLowering.Json
