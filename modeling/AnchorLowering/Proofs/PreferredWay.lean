import AnchorLowering.Proofs.CommentSearch
import AnchorLowering.Proofs.Lexeme
import AnchorLowering.Proofs.PatternWay

/-!
# Preferred ways

Of the ways in which a pattern can match, a search takes the one that comes first. Where the first
way of every part of a pattern goes on to a match, the first way of the pattern is put together from
them (`Prefers.bind`), and a search or a replacement that comes to such a place is determined
(`Prefers.matchesFrom_eq`). A pattern that needs a character is not found in a text without it
(`findAll_eq_nil`).
-/

namespace AnchorLowering.Lowering

open List Pattern Source

variable {x : Char} {test : Char → Bool} {t : Text}

/-! ## Preferred ways -/

/-- The way that the pattern prefers takes the text `u`, with the rest of the text after it. -/
def Prefers {α : Type} (p : Pattern α) (before : Text) (a : α) (u rest : Text) : Prop :=
  p.firstAt ⟨before, u ++ rest⟩ = some (a, u.length)

section

variable {α β : Type} {p : Pattern α} {before u w rest : Text} {e : α} {f : α → Pattern β} {b : β}

theorem Prefers.bind (hp : Prefers p before e u (w ++ rest))
    (hf : Prefers (f e) (u.reverse ++ before) b w rest) :
    Prefers (p >>= f) before b (u ++ w) rest := by
  rw [Prefers, Pattern.firstAt] at hp hf ⊢
  obtain ⟨l, hl⟩ := head?_eq_some_iff.1 hp
  obtain ⟨l', hl'⟩ := head?_eq_some_iff.1 hf
  rw [append_assoc, bind_apply, hl, flatMap_cons, Cursor.advance_eq, take_left, drop_left, hl',
    length_append]
  rfl

/-- The last part takes nothing. -/
theorem Prefers.bind_nil (hp : Prefers p before e u rest)
    (hf : Prefers (f e) (u.reverse ++ before) b [] rest) :
    Prefers (p >>= f) before b u rest := by
  simpa using Prefers.bind (w := []) hp hf

theorem prefers_pure {before rest : Text} (e : α) : Prefers (pure e) before e [] rest := rfl

theorem prefers_lit (t before rest : Text) : Prefers (lit t) before () t rest := by
  rw [Prefers, firstAt, lit, if_pos (by simp)]
  rfl

theorem prefers_wordBoundary (h : before.head?.any isWord ≠ rest.head?.any isWord) :
    Prefers wordBoundary before () [] rest := by
  rw [Prefers, firstAt, wordBoundary, if_pos (by simpa using h)]
  rfl

theorem prefers_many (hu : ∀ x ∈ u, test x = true) (hrest : rest.head?.any test = false) :
    Prefers (many test) before () u rest := by
  have hnil : rest.takeWhile test = [] := by
    cases rest with
    | nil => rfl
    | cons x rest => exact takeWhile_cons_of_neg (by simpa using hrest)
  rw [Prefers, firstAt, many, spanLengths, range_succ, reverse_append, takeWhile_append_of_pos hu,
    hnil, append_nil]
  rfl

theorem prefers_one (hx : test x = true) : Prefers (one test) before x [x] rest := by
  simp [Prefers, firstAt, one, hx]

/-- A run of characters of a class is read as a whole. -/
theorem prefers_many1 (hne : u ≠ []) (hu : ∀ x ∈ u, test x = true)
    (hrest : rest.head?.any test = false) : Prefers (many1 test) before () u rest := by
  obtain ⟨x, u, rfl⟩ := exists_cons_of_ne_nil hne
  exact (prefers_one (hu x mem_cons_self)).bind
    (prefers_many (fun y hy => hu y (mem_cons_of_mem x hy)) hrest)

theorem Prefers.capture (h : Prefers p before e u rest) : Prefers (capture p) before u u rest := by
  rw [Prefers, firstAt] at h ⊢
  rw [Pattern.capture, head?_map, h, Option.map_some, take_left]

theorem prefers_word (hu : IsName u) (hrest : rest.head?.any isWord = false) :
    Prefers (Pattern.capture word) before u u rest :=
  (prefers_many1 hu.ne_nil hu.word hrest).capture

/-- As few characters as possible are those up to the first place from which the rest of the pattern
matches. -/
theorem prefers_few_bind {f : Text → Pattern β} (hu : ∀ x ∈ u, test x = true)
    (hskip : ∀ v v', u = v ++ v' → v' ≠ [] → f v ⟨v.reverse ++ before, v' ++ (w ++ rest)⟩ = [])
    (hf : Prefers (f u) (u.reverse ++ before) b w rest) :
    Prefers (Pattern.capture (few test) >>= f) before b (u ++ w) rest := by
  obtain ⟨l, hl⟩ := head?_eq_some_iff.1 hf
  rw [Prefers, firstAt, append_assoc, bind_apply, Pattern.capture, few, spanLengths,
    takeWhile_append_of_pos hu, length_append,
    Nat.add_assoc, range_add, range_succ_eq_map, map_map, flatMap_map, flatMap_append,
    flatMap_eq_nil_iff.2, nil_append]
  · simp [Cursor.advance_eq, hl]
  · intro n hn
    have hn := (mem_range.1 hn).le
    simp only [Function.comp_apply]
    rw [Cursor.advance_eq, take_append_of_le_length hn, drop_append_of_le_length hn,
      hskip (u.take n) (u.drop n) (take_append_drop n u).symm (by simpa using mem_range.1 ‹_›)]
    rfl

theorem Prefers.opt (h : Prefers p before e u rest) : Prefers (opt p) before (some e) u rest := by
  rw [Prefers, firstAt] at h ⊢
  rw [Pattern.opt, head?_append, head?_map, h]
  rfl

/-- Where an optional pattern does not match, nothing is taken. -/
theorem prefers_opt_none (h : p ⟨before, rest⟩ = []) : Prefers (opt p) before none [] rest := by
  rw [Prefers, firstAt, Pattern.opt, nil_append, h]
  rfl

theorem Prefers.withText (h : Prefers p before e u rest) :
    Prefers (withText p) before (e, u) u rest := by
  rw [Prefers, firstAt] at h ⊢
  rw [Pattern.withText, head?_map, h, Option.map_some, take_left]

/-- The blanks on both sides of a spaced text are taken, however many there are. -/
theorem prefers_spaced_gaps {g g' : Text} (hx : isBlank x = false) (hg : Blank g)
    (hg' : Blank g') (hrest : rest.head?.any isBlank = false) :
    Prefers (spaced (x :: t)) before () (g ++ (x :: t ++ g')) rest := by
  refine Prefers.bind (prefers_many hg (by simpa using hx)) ?_
  exact Prefers.bind (prefers_lit _ _ _) (prefers_many hg' hrest)

theorem prefers_spaced (hx : isBlank x = false) (hrest : rest.head?.any isBlank = false) :
    Prefers (spaced (x :: t)) before () (' ' :: (x :: t ++ [' '])) rest :=
  have hspace : ∀ x ∈ [' '], isBlank x = true := by decide
  prefers_spaced_gaps (g := [' ']) hx hspace hspace hrest

end

/-! ## Searching -/

section

variable {α : Type} {p : Pattern α} {before u rest : Text}

/-- Matches in a text whose start has none are those in the rest. -/
theorem matchesFrom_append
    (h : ∀ v w, u = v ++ w → w ≠ [] → p ⟨v.reverse ++ before, w ++ rest⟩ = []) :
    matchesFrom p 0 before (u ++ rest) = matchesFrom p 0 (u.reverse ++ before) rest := by
  induction u generalizing before with
  | nil => rfl
  | cons x u ih =>
    have hnone : ∀ v n, p.firstAt ⟨before, x :: (u ++ rest)⟩ ≠ some (v, n + 1) := by
      intro v n
      have hnil : p ⟨before, x :: (u ++ rest)⟩ = [] := h [] (x :: u) rfl (cons_ne_nil x u)
      rw [firstAt, hnil]
      simp
    rw [cons_append, matchesFrom_of_not_some hnone, ih]
    · simp
    · intro v w hvw hw
      simpa using h (x :: v) w (by rw [hvw]; rfl) hw

theorem matchesFrom_length (p : Pattern α) (before u rest : Text) :
    matchesFrom p u.length before (u ++ rest) = matchesFrom p 0 (u.reverse ++ before) rest := by
  induction u generalizing before with
  | nil => rfl
  | cons x u ih =>
    rw [length_cons, cons_append, matchesFrom_succ, ih]
    simp

/-- A match at the start of a text is the first one, and the search goes on after it. -/
theorem Prefers.matchesFrom_eq {e : α} (hu : u ≠ []) (h : Prefers p before e u rest) :
    matchesFrom p 0 before (u ++ rest) =
      ⟨before.length, before.length + u.length, e⟩ :: matchesFrom p 0 (u.reverse ++ before)
        rest := by
  obtain ⟨x, u, rfl⟩ := exists_cons_of_ne_nil hu
  have hfirst : p.firstAt ⟨before, x :: (u ++ rest)⟩ = some (e, u.length + 1) := h
  rw [cons_append, matchesFrom_of_some hfirst, matchesFrom_length]
  simp

end

/-! ## Patterns that match in one way -/

/-- A pattern with one way to match prefers it. -/
theorem firstAt_of_forall {α : Type} {c : Cursor} {p : Pattern α} {r : α × Nat} (hmem : r ∈ p c)
    (hall : ∀ s ∈ p c, s = r) : p.firstAt c = some r := by
  rw [Pattern.firstAt]
  cases h : p c with
  | nil => simp [h] at hmem
  | cons s l => rw [head?_cons, hall s (by rw [h]; exact mem_cons_self)]

theorem firstAt_of_way {α : Type} {before u rest : Text} {p : Pattern α} (hp : Bounded p) {a : α}
    (h : Way p before a u rest)
    (hall : ∀ {a' u' rest'}, Way p before a' u' rest' → u' ++ rest' = u ++ rest → a' = a ∧ u' = u) :
    p.firstAt ⟨before, u ++ rest⟩ = some (a, u.length) := by
  refine firstAt_of_forall h ?_
  rintro ⟨a', n⟩ hmem
  obtain ⟨u', rest', hsplit, rfl, hway⟩ := (mem_iff_way hp).1 hmem
  obtain ⟨rfl, rfl⟩ := hall hway hsplit.symm
  rfl

/-- A pattern is not found in a text without one of the characters that it takes. -/
theorem findAll_eq_nil {α : Type} {p : Pattern α} (hp : Bounded p)
    (htakes : ∀ {before e u rest}, Way p before e u rest → x ∈ u) (hx : x ∉ t) :
    p.findAll t = [] := by
  refine eq_nil_iff_forall_not_mem.2 fun m hm => ?_
  obtain ⟨v, w, n, ht, -, -, hfirst⟩ := mem_matchesFrom hm
  obtain ⟨u, rest, hsplit, -, hway⟩ := (mem_iff_way hp).1 (mem_of_mem_head? hfirst)
  dsimp only at hsplit
  refine hx ?_
  rw [ht, hsplit]
  exact mem_append_right v (mem_append_left rest (htakes hway))

end AnchorLowering.Lowering
