import AnchorLowering.Proofs.Bracketing
import AnchorLowering.Proofs.MarkedEdit

/-!
# Nested code

The code brackets of a text are nested if the text is bracketed once its comments and literals are
left out. In such a text every opener in code has a partner (`exists_matchingClose`).
-/

namespace AnchorLowering.Source

open List

/-- The code of a marked text, without its comments and literals. -/
def codeText (ms : Marked) : Text := (ms.filter (·.2)).map (·.1)

/-- Every bracket in code is paired with one of its kind. -/
def Nested (t : Text) : Prop := Bracketed (codeText (marked t))

instance (t : Text) : Decidable (Nested t) := inferInstanceAs (Decidable (Bracketed _))

@[simp]
theorem codeText_nil : codeText [] = [] := rfl

@[simp]
theorem codeText_code (x : Char) (ms : Marked) : codeText ((x, true) :: ms) = x :: codeText ms :=
  rfl

@[simp]
theorem codeText_sealed (x : Char) (ms : Marked) : codeText ((x, false) :: ms) = codeText ms := rfl

@[simp]
theorem codeText_append (a b : Marked) : codeText (a ++ b) = codeText a ++ codeText b := by
  rw [codeText, filter_append, map_append]
  rfl

/-- The search for a partner passes over comments and literals. -/
theorem isSome_partnerOffset (depth : Nat) (ms : Marked) :
    (partnerOffset depth ms).isSome =
    (partnerOffset depth ((codeText ms).map fun x => (x, true))).isSome := by
  induction ms generalizing depth with
  | nil => rfl
  | cons m ms ih =>
    obtain ⟨x, _ | _⟩ := m
    · rw [codeText_sealed, ← ih]
      cases depth <;> simp [partnerOffset]
    · rw [codeText_code, map_cons]
      unfold partnerOffset
      split
      · rw [Option.isSome_map, Option.isSome_map, ih]
      · split
        · split
          · rfl
          · rfl
          · rw [Option.isSome_map, Option.isSome_map, ih]
        · rw [Option.isSome_map, Option.isSome_map, ih]

/-- **An opener in nested code has a partner.** -/
theorem exists_matchingClose {t : Text} (h : Nested t) {i : Nat} {x : Char} (hx : isOpener x = true)
    (hi : (marked t)[i]? = some (x, true)) : ∃ close, matchingClose t i = some close := by
  obtain ⟨hlt, hget⟩ := List.getElem?_eq_some_iff.1 hi
  have hdrop : (marked t).drop i = (x, true) :: (marked t).drop (i + 1) := by
    rw [drop_eq_getElem_cons hlt, hget]
  have hcode : codeText (marked t) = codeText ((marked t).take i) ++ x :: codeText
      ((marked t).drop (i + 1)) := by
    rw [← codeText_code, ← hdrop, ← codeText_append, take_append_drop]
  rw [Nested, hcode] at h
  obtain ⟨inner, rest, hsplit, hinner⟩ := h.exists_partner hx
  have hsome : (partnerOffset 1 ((marked t).drop (i + 1))).isSome = true := by
    rw [isSome_partnerOffset, hsplit, partnerOffset_of_bracketed hinner (isCloser_closerOf hx)]
    rfl
  obtain ⟨offset, hoffset⟩ := Option.isSome_iff_exists.1 hsome
  refine ⟨offset + 1 + i, ?_⟩
  rw [matchingClose, hdrop]
  simp [partnerOffset, hx, hoffset]

end AnchorLowering.Source
