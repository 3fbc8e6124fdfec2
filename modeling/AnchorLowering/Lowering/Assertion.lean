import AnchorLowering.Lowering.Snippet
import AnchorLowering.Lowering.StateAccess
import AnchorLowering.Source.Call
import AnchorLowering.Source.Edit
import AnchorLowering.Source.Marker

/-!
# Assertions

Assertion macros become blocks that return an error if the negated condition holds. A key read from
an account is a reference while a stored key is a value, so a comparison of the two reads the key
from behind its reference.
-/

namespace AnchorLowering.Lowering

open Pattern Source

/-! ## Comparisons of keys -/

/-- One side of a comparison: a dotted name or a call on one without arguments, possibly behind a
reference or dereference mark. -/
def comparisonOperand : Pattern Text := capture do
  let _ ← opt (one fun c => c == '*' || c == '&')
  dottedName
  let _ ← opt (do blanks; noArguments)

def isKeyHandle (operand : Text) : Bool :=
  !operand.head?.any (fun c => c == '*' || c == '&') && (keyCall.readAll? operand).isSome

/-- The comparison with the key read from behind its reference, if only one side is such a key. -/
def dereferencePair (left operator right : Text) : Text :=
  match isKeyHandle left, isKeyHandle right with
  | true, false => Text.concat ["*", left, operator, right]
  | false, true => Text.concat [left, operator, "*", right]
  | _, _ => Text.concat [left, operator, right]

def keyComparison : Pattern Text := do
  behind fun before => !before.head?.any fun c => isWord c || c == '.' || c == '*' || c == '&'
  let left ← comparisonOperand
  let operator ← capture do
    blanks
    let _ ← oneOf ["==", "!="]
    blanks
  let right ← comparisonOperand
  notAhead do
    blanks
    let _ ← one fun c => c == '.' || c == '(' || c == '[' || isWord c
  pure (dereferencePair left operator right)

def dereferenceComparisons (t : Text) : Text := replaceInCode keyComparison t

def dereferenceKey (operand : Text) : Text :=
  let operand := collapseBlanks operand
  if isKeyHandle operand then '*' :: operand else operand

/-! ## Parts of a check -/

def simpleOperand : Pattern Unit := do
  let _ ← opt (one fun c => c == '*' || c == '&')
  many1 fun c => isWord c || c == '.'
  let _ ← opt (lit "()")
  let _ ← opt do
    lit "["
    many (· != ']')
    lit "]"

/-- An operand beside an operator, in brackets if it needs them. -/
def operand (expr : Text) : Text :=
  let expr := collapseBlanks expr
  if (simpleOperand.readAll? expr).isSome then expr else Text.concat ["(", expr, ")"]

/-- The error to return: the one that is given, converted unless it already is, or the default. -/
def errorValue (error : Option Text) (default : Text) : Text :=
  match error with
  | none | some [] => default
  | some error =>
    let error := collapseBlanks error
    if Text.endsWith error ".into()" || Text.startsWith error "ProgramError::" then error
    else Text.concat [error, ".into()"]

/-! ## Macros -/

/-- An assertion macro. A comparison has the operator that makes it fail and the error for that; the
plain assertion takes a condition. -/
structure AssertionMacro where
  name : String
  comparison : Option (String × Text)
  onKeys : Bool

def assertionMacros : List AssertionMacro :=
  [⟨"require_keys_neq", some ("==", invalidAccountData), true⟩,
   ⟨"require_keys_eq", some ("!=", invalidAccountData), true⟩,
   ⟨"require_neq", some ("==", invalidArgument), false⟩,
   ⟨"require_eq", some ("!=", invalidArgument), false⟩,
   ⟨"require_gte", some ("<", invalidArgument), false⟩,
   ⟨"require_gt", some ("<=", invalidArgument), false⟩,
   ⟨"require", none, false⟩]

def assertionHead : Pattern AssertionMacro := do
  wordBoundary
  let m ← choose (assertionMacros.map fun m => (m.name, m))
  blanks
  lit "!"
  pure m

def macroHead (name : String) : Pattern Unit := do
  wordBoundary
  tokens [name.toList, "!"]

/-- The check for a macro's arguments; none if their number does not fit. -/
def AssertionMacro.lower? (m : AssertionMacro) (args : List Text) : Option Text :=
  match m.comparison, args with
  | none, [condition, error] =>
    let condition := dereferenceComparisons (collapseBlanks condition)
    some (guardWith (Text.concat ["!(", condition, ")"]) (errorValue (some error) invalidArgument))
  | some (operator, default), left :: right :: rest =>
    let side := if m.onKeys then dereferenceKey else operand
    let condition := Text.concat [side left, " ", operator.toList, " ", side right]
    match rest with
    | [] => some (guardWith condition (errorValue none default))
    | [error] => some (guardWith condition (errorValue (some error) default))
    | _ => none
  | _, _ => none

def assertionEdit (body : Text) (call : Call) : Edit :=
  let lowered? := (assertionHead.readStart? call.head).bind fun r => r.1.lower? call.args
  ⟨call.start, call.stop,
    lowered?.getD (Marker.render "assertions" (body.slice call.start call.stop))⟩

/-- The edits that lower the calls of an error macro. A call without arguments is kept. -/
def errorEdits (name : String) (render : Text → Text) (body : Text) : List Edit :=
  (findCallsWith false (macroHead name) body).filterMap fun call =>
    if (Text.trim call.argsText).isEmpty then none
    else
      some ⟨call.start, call.stop, render (errorValue (some call.argsText) invalidArgument)⟩

def lowerAssertions (body : Text) : Except Overlap Text := do
  let body ← Edit.apply body ((findCalls assertionHead body).map (assertionEdit body))
  let returned := errorEdits "err" (fun e => Text.concat ["Err(", e, ")"]) body
  let body ← Edit.apply body (returned ++ errorEdits "error" id body)
  return dereferenceComparisons body

end AnchorLowering.Lowering
