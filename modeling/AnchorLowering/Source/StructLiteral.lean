import AnchorLowering.Source.Bracket
import AnchorLowering.Text.Table

/-!
# Struct literals

A struct literal names a type and gives its fields, each as `name: value` or as a lone name that
stands for a field of that name and value.
-/

namespace AnchorLowering.Source

open Pattern

/-- A struct literal: the path of its type and its fields in order. -/
structure StructLiteral where
  name : Text
  fields : Table Text

namespace StructLiteral

def shortName (s : StructLiteral) : Text := Text.lastPart "::" s.name

def head : Pattern Text := do
  blanks
  let path ← capture do
    let _ ← one fun c => isLatinLetter c || c == '_'
    many isWord
    star do
      spaced "::"
      word
  blanks
  lit "\x7b"
  pure path

/-- One field of a struct literal. A double colon after the name belongs to a path. -/
def field? (piece : Text) : Option (Text × Text) :=
  let named : Pattern (Text × Text) := do
    let name ← capture word
    blanks
    lit ":"
    notAhead (lit ":")
    blanks
    let value ← capture (many fun _ => true)
    pure (name, Text.trim value)
  match named.readStart? piece with
  | some (field, _) => some field
  | none => if word.readAll? piece |>.isSome then some (piece, piece) else none

def parse? (t : Text) : Option StructLiteral := do
  let (path, headLength) ← head.readStart? t
  let close ← matchingClose t (headLength - 1)
  if !(Text.trim (t.drop (close + 1))).isEmpty then none
  let fields ← (arguments (t.slice headLength close)).mapM field?
  some ⟨Text.withoutBlanks path, Table.ofEntries fields⟩

end StructLiteral

end AnchorLowering.Source
