import AnchorLowering.Text.Basic

/-!
# Snippets of target code

Small pieces of text that several steps write.
-/

namespace AnchorLowering.Lowering

def braces (inner : Text) : Text := Text.concat ["\x7b ", inner, " \x7d"]

/-- A block that returns an error if the condition holds. -/
def guardWith (condition error : Text) : Text :=
  Text.concat ["if ", condition, " ", braces (Text.concat ["return Err(", error, ");"])]

def invalidArgument : Text := "ProgramError::InvalidArgument"

/-- The error for an account whose data do not fit. -/
def invalidAccountData : Text := "ProgramError::InvalidAccountData"

end AnchorLowering.Lowering
