import AnchorLowering.Proofs.BareText

/-!
# Bracketed texts

The search for a bracket's partner counts openers and closers of every kind alike. A text is
*bracketed* if each closer is of the kind of the opener that it closes and every opener is closed.
In such a text the partner of an opener is the closer of its own kind (`exists_partner`,
`partnerOffset_of_bracketed`), what stands between the two is bracketed again.

The invariant behind this is the list of closers that a reader still waits for, nearest first. A
bracketed text leaves whatever list it is read with as it was.
-/

namespace AnchorLowering.Source

open List

variable {y : Char} {p : Char → Bool} {a b : Text}

/-- The bracket that closes an opener. -/
def closerOf (x : Char) : Char := if x = '(' then ')' else if x = '[' then ']' else '\x7d'

/-- The closers that are awaited after a text; none if a closer comes that is not the next one
awaited. -/
def awaited : List Char → Text → Option (List Char)
  | closers, [] => some closers
  | closers, x :: t =>
    if isOpener x then awaited (closerOf x :: closers) t
    else if isCloser x then
      match closers with
      | [] => none
      | y :: closers => if x = y then awaited closers t else none
    else awaited closers t

/-- Every closer in the text closes an opener of its kind, and every opener is closed. -/
def Bracketed (t : Text) : Prop := awaited [] t = some []

instance (t : Text) : Decidable (Bracketed t) := inferInstanceAs (Decidable (_ = _))

section

variable {closers closers' below : List Char} {x : Char} {t u : Text}

theorem awaited_opener (hx : isOpener x = true) :
    awaited closers (x :: t) = awaited (closerOf x :: closers) t := by
  simp only [awaited, hx, if_true]

theorem awaited_other (hopen : isOpener x = false) (hclose : isCloser x = false) :
    awaited closers (x :: t) = awaited closers t := by
  simp only [awaited, hopen, hclose, Bool.false_eq_true, if_false]

theorem isOpener_iff : isOpener x = true ↔ x = '(' ∨ x = '[' ∨ x = '\x7b' := by
  simp only [isOpener, Bool.or_eq_true, beq_iff_eq, or_assoc]

theorem isCloser_iff : isCloser x = true ↔ x = ')' ∨ x = ']' ∨ x = '\x7d' := by
  simp only [isCloser, Bool.or_eq_true, beq_iff_eq, or_assoc]

theorem isOpener_of_isCloser (hx : isCloser x = true) : isOpener x = false := by
  rcases isCloser_iff.1 hx with rfl | rfl | rfl <;> rfl

theorem isCloser_closerOf (hx : isOpener x = true) : isCloser (closerOf x) = true := by
  rcases isOpener_iff.1 hx with rfl | rfl | rfl <;> rfl

/-- A class of characters without the six brackets has no brackets. -/
theorem not_bracket_of_class (hx : p x = true)
    (hp : "()[]\x7b\x7d".toList.any p = false) : isOpener x = false ∧ isCloser x = false := by
  have hmem : x ∉ "()[]\x7b\x7d".toList := by
    intro hmem
    rw [any_eq_true.2 ⟨x, hmem, hx⟩] at hp
    cases hp
  constructor
  · refine Bool.eq_false_iff.2 fun hopen => hmem ?_
    rcases isOpener_iff.1 hopen with rfl | rfl | rfl <;> decide
  · refine Bool.eq_false_iff.2 fun hclose => hmem ?_
    rcases isCloser_iff.1 hclose with rfl | rfl | rfl <;> decide

theorem awaited_closer (hx : isCloser x = true) :
    awaited (x :: closers) (x :: t) = awaited closers t := by
  simp only [awaited, isOpener_of_isCloser hx, hx, Bool.false_eq_true, if_false, if_true]

/-- The only closer that may come is the next one awaited. -/
theorem eq_of_awaited_closer (hx : isCloser x = true)
    (h : awaited closers (x :: t) = some closers') :
    ∃ rest, closers = x :: rest ∧ awaited rest t = some closers' := by
  simp only [awaited, isOpener_of_isCloser hx, hx, Bool.false_eq_true, if_false, if_true] at h
  split at h
  · cases h
  · rename_i y rest
    split at h
    · rename_i heq
      exact ⟨rest, by rw [heq], h⟩
    · cases h

theorem awaited_append (closers : List Char) (t u : Text) :
    awaited closers (t ++ u) = (awaited closers t).bind (awaited · u) := by
  induction t generalizing closers with
  | nil => rfl
  | cons x t ih =>
    by_cases hopen : isOpener x = true
    · rw [cons_append, awaited_opener hopen, awaited_opener hopen, ih]
    · by_cases hclose : isCloser x = true
      · cases closers with
        | nil => simp [awaited, hopen, hclose]
        | cons y closers =>
          by_cases hxy : x = y
          · rw [cons_append, hxy, awaited_closer (hxy ▸ hclose), awaited_closer (hxy ▸ hclose), ih]
          · simp [awaited, hopen, hclose, hxy]
      · rw [Bool.not_eq_true] at hopen hclose
        rw [cons_append, awaited_other hopen hclose, awaited_other hopen hclose, ih]

/-- What is awaited further out has no say in how a text is read. -/
theorem awaited_below (h : awaited closers t = some closers') (below : List Char) :
    awaited (closers ++ below) t = some (closers' ++ below) := by
  induction t generalizing closers with
  | nil =>
    cases h
    rfl
  | cons x t ih =>
    by_cases hopen : isOpener x = true
    · rw [awaited_opener hopen] at h ⊢
      exact ih h
    · by_cases hclose : isCloser x = true
      · obtain ⟨rest, rfl, hrest⟩ := eq_of_awaited_closer hclose h
        rw [cons_append, awaited_closer hclose]
        exact ih hrest
      · rw [Bool.not_eq_true] at hopen hclose
        rw [awaited_other hopen hclose] at h ⊢
        exact ih h

/-- A text without brackets is read with nothing changed. -/
theorem bracketed_of_none (h : ∀ x ∈ t, isOpener x = false ∧ isCloser x = false) : Bracketed t := by
  induction t with
  | nil => rfl
  | cons x t ih =>
    obtain ⟨hopen, hclose⟩ := h x mem_cons_self
    rw [Bracketed, awaited_other hopen hclose]
    exact ih fun y hy => h y (mem_cons_of_mem x hy)

namespace Bracketed

theorem awaited_eq (h : Bracketed t) (closers : List Char) : awaited closers t = some closers := by
  have := awaited_below h closers
  rwa [nil_append] at this

theorem append (ht : Bracketed t) (hu : Bracketed u) : Bracketed (t ++ u) := by
  rw [Bracketed, awaited_append, ht, Option.bind_some]
  exact hu

theorem of_class (h : ∀ x ∈ t, p x = true) (hp : "()[]\x7b\x7d".toList.any p = false) :
    Bracketed t :=
  bracketed_of_none fun x hx => not_bracket_of_class (h x hx) hp

theorem wrap (hx : isOpener x = true) (h : Bracketed t) : Bracketed (x :: (t ++ [closerOf x])) := by
  rw [Bracketed, awaited_opener hx, awaited_append, h.awaited_eq, Option.bind_some,
    awaited_closer (isCloser_closerOf hx)]
  rfl

end Bracketed

/-! ## Partners -/

/-- The closer that is awaited comes, and what stands before it is read with nothing of it
awaited. -/
theorem exists_awaited {y : Char} (h : awaited (closers ++ y :: below) t = some closers')
    (hlen : closers'.length ≤ below.length) :
    ∃ inner rest, t = inner ++ y :: rest ∧ awaited closers inner = some [] ∧ awaited below rest =
    some closers' := by
  induction t generalizing closers with
  | nil =>
    cases h
    simp at hlen
    omega
  | cons x t ih =>
    by_cases hopen : isOpener x = true
    · rw [awaited_opener hopen] at h
      obtain ⟨inner, rest, rfl, hinner, hrest⟩ := @ih (closerOf x :: closers) h
      exact ⟨x :: inner, rest, rfl, by rw [awaited_opener hopen, hinner], hrest⟩
    · by_cases hclose : isCloser x = true
      · obtain ⟨left, hleft, hread⟩ := eq_of_awaited_closer hclose h
        cases closers with
        | nil =>
          obtain ⟨rfl, rfl⟩ := cons.inj hleft
          exact ⟨[], t, rfl, rfl, hread⟩
        | cons z closers =>
          obtain ⟨rfl, rfl⟩ := cons.inj hleft
          obtain ⟨inner, rest, rfl, hinner, hrest⟩ := ih hread
          exact ⟨z :: inner, rest, rfl, by rw [awaited_closer hclose, hinner], hrest⟩
      · rw [Bool.not_eq_true] at hopen hclose
        rw [awaited_other hopen hclose] at h
        obtain ⟨inner, rest, rfl, hinner, hrest⟩ := ih h
        exact ⟨x :: inner, rest, rfl, by rw [awaited_other hopen hclose, hinner], hrest⟩

/-- In a bracketed text an opener has a partner of its kind, and the text between them is
bracketed. -/
theorem Bracketed.exists_partner (hx : isOpener x = true) (h : Bracketed (t ++ x :: u)) :
    ∃ inner rest, u = inner ++ closerOf x :: rest ∧ Bracketed inner := by
  rw [Bracketed, awaited_append] at h
  obtain ⟨below, -, hu⟩ := Option.bind_eq_some_iff.1 h
  rw [awaited_opener hx] at hu
  obtain ⟨inner, rest, hsplit, hinner, -⟩ :=
    @exists_awaited [] [] below u (closerOf x) hu (Nat.zero_le _)
  exact ⟨inner, rest, hsplit, hinner⟩

end

/-- The depth that the search counts is the number of closers awaited. -/
theorem partnerOffset_append {closers closers' : List Char} {t : Text}
    (h : awaited closers t = some closers') (depth : Nat) (rest : Marked) :
    partnerOffset (closers.length + depth + 1) (t.map (fun x => (x, true)) ++ rest) =
      (partnerOffset (closers'.length + depth + 1) rest).map (· + t.length) := by
  induction t generalizing closers with
  | nil =>
    cases h
    simp
  | cons x t ih =>
    have hshift : ∀ {n m : Nat}, partnerOffset n (t.map (fun x => (x, true)) ++ rest) =
        (partnerOffset m rest).map (· + t.length) →
        (partnerOffset n (t.map (fun x => (x, true)) ++ rest)).map (· + 1) =
          (partnerOffset m rest).map (· + (x :: t).length) := by
      intro n m heq
      rw [heq, Option.map_map]
      rfl
    by_cases hopen : isOpener x = true
    · rw [awaited_opener hopen] at h
      have := ih h
      rw [length_cons, Nat.add_right_comm closers.length 1] at this
      simpa only [map_cons, cons_append, partnerOffset, hopen, Bool.and_self, if_true]
        using hshift this
    · by_cases hclose : isCloser x = true
      · obtain ⟨closers, rfl, hread⟩ := eq_of_awaited_closer hclose h
        have := ih hread
        rw [length_cons, Nat.add_right_comm closers.length 1]
        simpa only [map_cons, cons_append, partnerOffset, hopen, hclose, Bool.and_self, if_true,
          Bool.and_false, Bool.false_eq_true, if_false] using hshift this
      · rw [Bool.not_eq_true] at hopen hclose
        rw [awaited_other hopen hclose] at h
        simpa only [map_cons, cons_append, partnerOffset, hopen, hclose, Bool.and_false,
          Bool.false_eq_true, if_false] using hshift (ih h)

theorem partnerOffset_of_bracketed {inner rest : Text} (h : Bracketed inner)
    (hy : isCloser y = true) :
    partnerOffset 1 ((inner ++ y :: rest).map fun x => (x, true)) = some inner.length := by
  have := partnerOffset_append h 0 (((y :: rest).map fun x => (x, true)))
  rw [map_append]
  simp [length_nil, partnerOffset, isOpener_of_isCloser hy, hy] at this
  simpa using this

end AnchorLowering.Source
