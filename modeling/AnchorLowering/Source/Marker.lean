import AnchorLowering.Pattern.Search

/-!
# Markers

A marker is a comment left in place of a fragment that a step could not lower. It names the step
and quotes the fragment on one line, cut to a fixed length, with every comment mark in it broken
up so that the marker is one comment. The issues of a body are read back from its markers.
-/

namespace AnchorLowering.Source

open Pattern

structure Issue where
  step : Text
  fragment : Text
  deriving DecidableEq

def Issue.describe (issue : Issue) : Text :=
  "[".toList ++ issue.step ++ "] ".toList ++ issue.fragment

namespace Marker

def fragmentLimit : Nat := 96

/-- Breaks up the comment marks of a fragment. -/
def breakComments (t : Text) : Text := (t.replace "*/" "* /").replace "/*" "/ *"

/-- Cuts a fragment that is too long and says so by three dots. -/
def shorten (t : Text) : Text :=
  if fragmentLimit < t.length then
    Text.trimRight (t.take (fragmentLimit - 3)) ++ "...".toList
  else t

def quote (fragment : Text) : Text := shorten (breakComments (Text.join " " fragment.words))

/-- The marker that a step leaves for a fragment. -/
def render (step fragment : Text) : Text :=
  "/* UNRESOLVED(".toList ++ step ++ "): ".toList ++ quote fragment ++ " */".toList

def pattern : Pattern Issue := do
  lit "/* UNRESOLVED("
  let step ← capture word
  lit "): "
  let fragment ← capture (few (· != '\n'))
  lit " */"
  pure ⟨step, fragment⟩

/-- The issues of a body, in order of appearance. -/
def collect (body : Text) : List Issue := (pattern.findAll body).map (·.value)

end Marker

end AnchorLowering.Source
