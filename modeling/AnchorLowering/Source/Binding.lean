import AnchorLowering.Source.Bracket

/-!
# Let bindings

A binding is a statement `let name = value;`, possibly with `mut` and a type.
-/

namespace AnchorLowering.Source

open Pattern

/-- A binding statement: `start` and `stop` delimit it with its semicolon. -/
structure Binding where
  start : Nat
  stop : Nat
  name : Text
  value : Text
  deriving DecidableEq

namespace Binding

/-- A binding of the name up to its equals sign, which must not begin a comparison. -/
def head (name : Text) : Pattern Unit := do
  wordBoundary
  lit "let"
  blanks1
  let _ ← opt (do lit "mut"; blanks1)
  lit name
  blanks
  let _ ← opt (do lit ":"; many1 fun c => c != '=' && c != ';')
  lit "="
  notAhead (lit "=")

def ofHead? (t name : Text) (m : Match Unit) : Option Binding := do
  let semicolon ← statementEnd t m.stop
  some ⟨m.start, semicolon + 1, name, Text.trim (t.slice m.stop semicolon)⟩

/-- The first binding of the name in code. Nothing is found if the statement that the first one
starts does not end. -/
def find? (t name : Text) : Option Binding := do
  let m ← Source.find? (head name) t
  ofHead? t name m

end Binding

end AnchorLowering.Source
