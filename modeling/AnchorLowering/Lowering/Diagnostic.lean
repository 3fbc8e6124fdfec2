import AnchorLowering.Lowering.Assertion

/-!
# Diagnostics

The target logs fixed messages only. A message without placeholders is kept, one with placeholders
is commented out, and events are marked. Without logs all of them are removed.
-/

namespace AnchorLowering.Lowering

open Pattern Source

def stringLiteral : Pattern Unit := do
  lit "\""
  star ((do let _ ← one fun c => c != '"' && c != '\\')
    <|> (do lit "\\"; let _ ← one fun _ => true))
  lit "\""

def placeholder : Pattern Unit := do
  lit "\x7b"
  many fun c => c != '\x7b' && c != '\x7d'
  lit "\x7d"

/-- A text without the braces that are written twice. -/
def dropDoubledBraces (t : Text) : Text := (t.replace "\x7b\x7b" []).replace "\x7d\x7d" []

/-- The arguments of a log call are one string literal without placeholders. -/
def isFixedMessage (args : List Text) : Bool :=
  match args with
  | [message] =>
    (stringLiteral.readAll? message).isSome && !placeholder.occursIn (dropDoubledBraces message)
  | _ => false

def commentOut (t : Text) : Text :=
  Text.concat ["/* ", (Text.join " " t.words).replace "*/" "* /", " */"]

/-- The edit for a log call, if it is not kept. -/
def messageEdit? (noLogs : Bool) (body : Text) (call : Call) : Option Edit :=
  if noLogs then some ⟨call.start, call.stop, []⟩
  else if isFixedMessage call.args then none
  else some ⟨call.start, call.stop, commentOut (body.slice call.start call.stop)⟩

def eventEdit (noLogs : Bool) (body : Text) (call : Call) : Edit :=
  ⟨call.start, call.stop,
    if noLogs then [] else Marker.render "diagnostics" (body.slice call.start call.stop)⟩

def lowerDiagnostics (c : Context) (body : Text) : Except Overlap Text :=
  let noLogs := c.config.noLogs
  Edit.apply body <|
    (findCalls (macroHead "msg") body).filterMap (messageEdit? noLogs body)
      ++ (findCalls (macroHead "emit") body).map (eventEdit noLogs body)

end AnchorLowering.Lowering
