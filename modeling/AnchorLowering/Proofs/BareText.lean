import AnchorLowering.Proofs.CodeStretch

/-!
# Texts without comments and literals

A text is *bare* if it has no slash and no quote. Nothing in a bare text is sealed, so every search
and every replacement in code is one over the whole text (`findAll_of_bare`,
`replaceInCode_of_bare`).
-/

namespace AnchorLowering.Source

open List Pattern

/-- A comment or a literal may start with the character, or with letters before it. -/
def isQuoting (x : Char) : Bool := x == '/' || x == '"' || x == '\''

/-- A text without slashes and quotes. -/
def Bare (t : Text) : Prop := ∀ x ∈ t, isQuoting x = false

instance (t : Text) : Decidable (Bare t) :=
  decidable_of_iff (t.all (fun x => !isQuoting x) = true) (by simp [Bare])

/-- A plain character opens no comment and no literal. -/
theorem isQuoting_of_isPlain {x : Char} (h : isPlain x = true) : isQuoting x = false := by
  by_contra hx
  have hmem : x = '/' ∨ x = '"' ∨ x = '\'' := by
    simpa only [isQuoting, Bool.not_eq_false, Bool.or_eq_true, beq_iff_eq, or_assoc] using hx
  rcases hmem with rfl | rfl | rfl <;> exact absurd h (by decide)

namespace Bare

variable {t u : Text}

theorem nil : Bare [] := by
  intro x hx
  cases hx

theorem cons {x : Char} (hx : isQuoting x = false) (h : Bare t) : Bare (x :: t) :=
  forall_mem_cons.2 ⟨hx, h⟩

theorem append (ht : Bare t) (hu : Bare u) : Bare (t ++ u) :=
  forall_mem_append.2 ⟨ht, hu⟩

/-- A text of some of the characters of a bare one is bare. -/
theorem of_subset (ht : Bare t) (h : ∀ x ∈ u, x ∈ t) : Bare u := fun x hx => ht x (h x hx)

theorem left (h : Bare (t ++ u)) : Bare t := h.of_subset fun _ hx => mem_append_left u hx

theorem right (h : Bare (t ++ u)) : Bare u := h.of_subset fun _ hx => mem_append_right t hx

theorem of_plain (h : ∀ x ∈ t, isPlain x = true) : Bare t :=
  fun x hx => isQuoting_of_isPlain (h x hx)

/-- A text of word characters is bare. -/
theorem of_word (h : ∀ x ∈ t, isWord x = true) : Bare t :=
  of_plain fun x hx => isPlain_of_isWord (h x hx)

/-- Nothing in a bare text is sealed. -/
theorem not_sealedAt (h : Bare t) (before : Text) (n : Nat) : ¬ SealedAt before t n := by
  intro hsealed
  have hmem : '/' ∈ t ∨ '"' ∈ t ∨ '\'' ∈ t := by
    cases hsealed with
    | line => exact .inl (by simp)
    | block => exact .inl (by simp)
    | string hmark => exact .inr (.inl (by simp))
    | char hmark _ => exact .inr (.inr (by simp))
    | raw hmark _ => exact .inr (.inl (by simp))
  rcases hmem with hx | hx | hx
  · exact absurd (h _ hx) (by decide)
  · exact absurd (h _ hx) (by decide)
  · exact absurd (h _ hx) (by decide)

/-- A bare text is read character by character, whatever comes before it. -/
theorem lexes (h : Bare t) (before : Text) : Lexes before (chars t) [] := by
  induction t generalizing before with
  | nil => trivial
  | cons x t ih =>
    refine ⟨?_, ih (h.of_subset fun _ hy => mem_cons_of_mem x hy) _⟩
    show ∀ n, ¬ SealedAt before (x :: (spell (chars t) ++ [])) n
    rw [spell_chars, append_nil]
    exact h.not_sealedAt before

end Bare

section

variable {t : Text} (h : Bare t)

include h

theorem pieces_of_bare : Text.pieces sealedClaim t = chars t :=
  pieces_eq_iff.2 ⟨spell_chars t, h.lexes []⟩

theorem codeMask_of_bare : codeMask t = replicate t.length true := by
  rw [codeMask_eq, pieces_of_bare h]
  clear h
  induction t with
  | nil => rfl
  | cons x t ih => exact congrArg (true :: ·) ih

theorem getD_codeMask_of_bare (index : Nat) : (codeMask t).getD index true = true := by
  rw [codeMask_of_bare h, getD_eq_getElem?_getD, getElem?_replicate]
  split <;> rfl

/-- In a bare text nothing that matches is held back. -/
theorem findAll_of_bare {α : Type} (p : Pattern α) : Source.findAll p t = p.findAll t :=
  filter_eq_self.2 fun m _ => getD_codeMask_of_bare h m.start

/-- In a bare text a rule is applied to the whole. -/
theorem replaceInCode_of_bare (rule : Pattern Text) : replaceInCode rule t = rule.replaceAll t := by
  by_cases hne : t = []
  · rw [hne]
    rfl
  · have hsegments : segments t = [⟨true, t⟩] := by
      rw [segments, pieces_of_bare h]
      exact foldr_consPiece_chars hne (by simp)
    rw [replaceInCode, mapCode, hsegments]
    exact append_nil _

end

end AnchorLowering.Source
