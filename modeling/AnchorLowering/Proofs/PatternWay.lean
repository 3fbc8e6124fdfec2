import AnchorLowering.Proofs.PatternReach

/-!
# Patterns as relations

`Way p before a u rest` says that the pattern takes `u`, reads it as `a`, and has `before` before it
(backwards) and `rest` after it. A sequence of patterns splits the text that it takes, and each part
sees the others around it; so what a pattern with look-around matches is worked out by rewriting,
one part after the other.
-/

namespace AnchorLowering.Pattern

open List

variable {test : Char → Bool} {c : Cursor} {texts ts : List Text} {n : Nat} {t : Text} {a : Unit}

variable {α β : Type} {u : Text}

/-- The pattern takes `u` as `a`, with `before` before it, backwards, and `rest` after it. -/
def Way (p : Pattern α) (before : Text) (a : α) (u rest : Text) : Prop :=
  (a, u.length) ∈ p ⟨before, u ++ rest⟩

/-- No way of the pattern goes beyond the text. -/
abbrev Bounded (p : Pattern α) : Prop := Takes (fun _ => True) p

/-- The matches of a pattern are its ways to take a start of the text. -/
theorem mem_iff_way {p : Pattern α} (hp : Bounded p) {a : α} :
    (a, n) ∈ p c ↔ ∃ u rest, c.after = u ++ rest ∧ n = u.length ∧ Way p c.before a u rest := by
  constructor
  · intro h
    have hn : n ≤ c.after.length := (hp c _ h).1
    have hlen : (c.after.take n).length = n := by rw [length_take, Nat.min_eq_left hn]
    refine ⟨c.after.take n, c.after.drop n, (take_append_drop n _).symm, hlen.symm, ?_⟩
    rw [Way, hlen, take_append_drop]
    exact h
  · rintro ⟨u, rest, hafter, rfl, h⟩
    rw [Way, ← hafter] at h
    exact h

/-- A pattern matches iff there is a way to take some start of the text. -/
theorem ne_nil_iff_way {p : Pattern α} (hp : Bounded p) {before : Text} :
    p ⟨before, t⟩ ≠ [] ↔ ∃ a u rest, t = u ++ rest ∧ Way p before a u rest := by
  constructor
  · intro hne
    obtain ⟨⟨a, n⟩, hmem⟩ := exists_mem_of_ne_nil _ hne
    obtain ⟨u, rest, ht, -, hway⟩ := (mem_iff_way hp).1 hmem
    exact ⟨a, u, rest, ht, hway⟩
  · rintro ⟨a, u, rest, rfl, hway⟩
    exact ne_nil_of_mem hway

/-! ## Further bounds -/

namespace Takes

variable {allowed : Char → Prop} {p : Pattern α}

theorem notAhead : Takes allowed (Pattern.notAhead p) := of_zero fun _ _ hr => (mem_notAhead.1 hr).2

theorem behind {test : Text → Bool} : Takes allowed (Pattern.behind test) :=
  of_zero fun _ _ hr => (mem_behind.1 hr).2

theorem withText (hp : Takes allowed p) : Takes allowed (Pattern.withText p) := by
  intro c r hr
  obtain ⟨s, hs, rfl⟩ := mem_withText.1 hr
  exact hp c s hs

end Takes

theorem mem_oneOf : (t, n) ∈ oneOf texts c ↔ t ∈ texts ∧ t <+: c.after ∧ n = t.length := by
  simp only [oneOf, mem_flatMap]
  constructor
  · rintro ⟨u, hu, hmem⟩
    split at hmem
    · rename_i hpre
      obtain ⟨rfl, rfl⟩ := Prod.mk.inj (mem_singleton.1 hmem)
      exact ⟨hu, isPrefixOf_iff_prefix.1 hpre, rfl⟩
    · cases hmem
  · rintro ⟨ht, hpre, rfl⟩
    refine ⟨t, ht, ?_⟩
    rw [if_pos (List.isPrefixOf_iff_prefix.2 hpre)]
    exact mem_singleton.2 rfl

theorem Takes.oneOf {allowed : Char → Prop} (h : ∀ t ∈ texts, ∀ x ∈ t, allowed x) :
    Takes allowed (Pattern.oneOf texts) := by
  rintro c ⟨t, n⟩ hr
  obtain ⟨ht, hpre, rfl⟩ := mem_oneOf.1 hr
  exact Takes.lit (h t ht) c ((), _) (mem_lit.2 ⟨hpre, rfl⟩)

namespace Bounded

theorem lit : Bounded (Pattern.lit t) := Takes.lit fun _ _ => trivial

theorem one : Bounded (Pattern.one test) := Takes.one fun _ _ => trivial

theorem many : Bounded (Pattern.many test) := Takes.many fun _ _ => trivial

theorem many1 : Bounded (Pattern.many1 test) := one.bind fun _ => many

theorem oneOf : Bounded (Pattern.oneOf texts) := Takes.oneOf fun _ _ _ _ => trivial

theorem spaced : Bounded (Pattern.spaced t) := many.bind fun _ => lit.bind fun _ => many

theorem tokens : Bounded (Pattern.tokens ts) := by
  induction ts with
  | nil => exact .pure _
  | cons t ts ih =>
    cases ts with
    | nil => exact lit
    | cons t' ts => exact lit.bind fun _ => many.bind fun _ => ih

end Bounded

/-! ## The parts of a pattern -/

section

variable {before u rest : Text}

@[simp]
theorem way_pure {a b : α} : Way (pure b) before a u rest ↔ a = b ∧ u = [] := by
  simp [Way]

/-- A sequence of two patterns takes a text in two parts. -/
@[simp]
theorem way_bind {p : Pattern α} {f : α → Pattern β} {b : β} :
    Way (p >>= f) before b u rest ↔ ∃ a v w, u = v ++ w ∧ Way p before a v (w ++ rest) ∧
      Way (f a) (v.reverse ++ before) b w rest := by
  rw [Way, mem_bind]
  constructor
  · rintro ⟨⟨a, k⟩, ha, ⟨b', m⟩, hb, heq⟩
    obtain ⟨rfl, hlen⟩ := Prod.mk.inj heq
    have hk : (u.take k).length = k := by
      rw [length_take]
      omega
    have hm : (u.drop k).length = m := by
      rw [length_drop]
      omega
    refine ⟨a, u.take k, u.drop k, (take_append_drop k u).symm, ?_, ?_⟩
    · rw [Way, hk, ← append_assoc, take_append_drop]
      exact ha
    · have hle : k ≤ u.length := by omega
      rw [Cursor.advance_eq, take_append_of_le_length hle, drop_append_of_le_length hle] at hb
      rw [Way, hm]
      exact hb
  · rintro ⟨a, v, w, rfl, ha, hb⟩
    refine ⟨(a, v.length), ?_, (b, w.length), ?_, by simp⟩
    · rw [Way, ← append_assoc] at ha
      exact ha
    · rw [Cursor.advance_eq, append_assoc, take_left, drop_left]
      exact hb

@[simp]
theorem way_lit : Way (lit t) before a u rest ↔ u = t := by
  rw [Way, mem_lit]
  constructor
  · rintro ⟨hpre, hlen⟩
    exact prefix_iff_eq_take.1 hpre ▸ by rw [← hlen, take_left]
  · rintro rfl
    exact ⟨prefix_append u rest, rfl⟩

@[simp]
theorem way_require {condition : Bool} :
    Way (require condition) before a u rest ↔ condition = true ∧ u = [] := by
  simp [Way, mem_require]

@[simp]
theorem way_one {x : Char} : Way (one test) before x u rest ↔ u = [x] ∧ test x = true := by
  rw [Way, mem_one]
  constructor
  · rintro ⟨tail, hafter, hx, hlen⟩
    obtain ⟨y, rfl⟩ := length_eq_one_iff.1 hlen
    exact ⟨by rw [(cons.inj hafter).1], hx⟩
  · rintro ⟨rfl, hx⟩
    exact ⟨rest, rfl, hx, rfl⟩

/-- A run may be taken in part: a pattern after it decides how much of it. -/
@[simp]
theorem way_many : Way (many test) before a u rest ↔ ∀ x ∈ u, test x = true := by
  rw [Way, mem_many]
  constructor
  · intro hn x hx
    have htake := take_eq_take_takeWhile hn
    rw [take_left] at htake
    rw [htake] at hx
    exact mem_takeWhile_imp (mem_of_mem_take hx)
  · intro hu
    rw [takeWhile_append_of_pos hu]
    simp

@[simp]
theorem way_few : Way (few test) before a u rest ↔ ∀ x ∈ u, test x = true := by
  have hmany : Way (few test) before a u rest ↔ Way (many test) before a u rest := by
    rw [Way, Way, mem_few, mem_many]
  rw [hmany, way_many]

@[simp]
theorem way_many1 : Way (many1 test) before a u rest ↔ u ≠ [] ∧ ∀ x ∈ u, test x = true := by
  simp only [many1, way_bind, way_one, way_many]
  constructor
  · rintro ⟨x, v, w, rfl, ⟨rfl, hx⟩, hw⟩
    exact ⟨by simp, by simpa using ⟨hx, hw⟩⟩
  · rintro ⟨hne, hu⟩
    obtain ⟨x, w, rfl⟩ := exists_cons_of_ne_nil hne
    exact ⟨x, [x], w, rfl, ⟨rfl, hu x mem_cons_self⟩, fun y hy => hu y (mem_cons_of_mem _ hy)⟩

/-- An optional pattern takes what the pattern takes, or nothing. -/
@[simp]
theorem way_opt {p : Pattern α} {o : Option α} :
    Way (opt p) before o u rest ↔ (∃ a, o = some a ∧ Way p before a u rest) ∨
    (o = none ∧ u = []) := by
  rw [Way, mem_opt]
  constructor
  · rintro (⟨⟨a, n⟩, ha, heq⟩ | heq)
    · obtain ⟨rfl, rfl⟩ := Prod.mk.inj heq
      exact .inl ⟨a, rfl, ha⟩
    · obtain ⟨rfl, hlen⟩ := Prod.mk.inj heq
      exact .inr ⟨rfl, eq_nil_of_length_eq_zero hlen⟩
  · rintro (⟨a, rfl, ha⟩ | ⟨rfl, rfl⟩)
    · exact .inl ⟨(a, u.length), ha, rfl⟩
    · exact .inr rfl

@[simp]
theorem way_capture {p : Pattern α} :
    Way (capture p) before t u rest ↔ t = u ∧ ∃ a, Way p before a u rest := by
  rw [Way, mem_capture]
  constructor
  · rintro ⟨⟨a, n⟩, ha, heq⟩
    obtain ⟨rfl, rfl⟩ := Prod.mk.inj heq
    exact ⟨take_left, a, ha⟩
  · rintro ⟨rfl, a, ha⟩
    exact ⟨(a, t.length), ha, by rw [take_left]⟩

@[simp]
theorem way_withText {p : Pattern α} {r : α × Text} :
    Way (withText p) before r u rest ↔ r.2 = u ∧ Way p before r.1 u rest := by
  rw [Way, mem_withText]
  constructor
  · rintro ⟨⟨a, n⟩, ha, heq⟩
    obtain ⟨rfl, rfl⟩ := Prod.mk.inj heq
    exact ⟨take_left, ha⟩
  · rintro ⟨rfl, ha⟩
    exact ⟨(r.1, r.2.length), ha, by rw [take_left]⟩

/-- Looking ahead takes nothing. -/
@[simp]
theorem way_ahead {p : Pattern α} :
    Way (ahead p) before a u rest ↔ u = [] ∧ p ⟨before, rest⟩ ≠ [] := by
  rw [Way, mem_ahead]
  constructor
  · rintro ⟨hne, hlen⟩
    obtain rfl := eq_nil_of_length_eq_zero hlen
    exact ⟨rfl, hne⟩
  · rintro ⟨rfl, hne⟩
    exact ⟨hne, rfl⟩

@[simp]
theorem way_notAhead {p : Pattern α} :
    Way (notAhead p) before a u rest ↔ u = [] ∧ p ⟨before, rest⟩ = [] := by
  rw [Way, mem_notAhead]
  constructor
  · rintro ⟨hnil, hlen⟩
    obtain rfl := eq_nil_of_length_eq_zero hlen
    exact ⟨rfl, hnil⟩
  · rintro ⟨rfl, hnil⟩
    exact ⟨hnil, rfl⟩

@[simp]
theorem way_behind {test : Text → Bool} :
    Way (behind test) before a u rest ↔ u = [] ∧ test before = true := by
  rw [Way, mem_behind, and_comm, length_eq_zero_iff]

/-- A word boundary takes nothing: it only compares the characters on either side. -/
@[simp]
theorem way_wordBoundary : Way wordBoundary before a u rest ↔
    u = [] ∧ before.head?.any isWord ≠ rest.head?.any isWord := by
  rw [Way, mem_wordBoundary]
  constructor
  · rintro ⟨hne, hlen⟩
    obtain rfl := eq_nil_of_length_eq_zero hlen
    exact ⟨rfl, hne⟩
  · rintro ⟨rfl, hne⟩
    exact ⟨hne, rfl⟩

@[simp]
theorem way_oneOf : Way (oneOf texts) before t u rest ↔ u = t ∧ t ∈ texts := by
  rw [Way, mem_oneOf]
  constructor
  · rintro ⟨ht, hpre, hlen⟩
    refine ⟨?_, ht⟩
    exact (List.append_inj (prefix_iff_exists_eq_append.1 hpre).choose_spec hlen).1
  · rintro ⟨rfl, ht⟩
    exact ⟨ht, prefix_append u rest, rfl⟩

/-- Blanks around a spaced text are taken with it. -/
@[simp]
theorem way_spaced :
    Way (spaced t) before a u rest ↔ ∃ g g', u = g ++ (t ++ g') ∧ Blank g ∧ Blank g' := by
  simp only [spaced, blanks, way_bind, way_lit, way_many]
  constructor
  · rintro ⟨-, g, _, rfl, hg, -, _, g', rfl, rfl, hg'⟩
    exact ⟨g, g', rfl, hg, hg'⟩
  · rintro ⟨g, g', rfl, hg, hg'⟩
    exact ⟨(), g, _, rfl, hg, (), t, g', rfl, rfl, hg'⟩

theorem way_orElse {p q : Pattern α} {a : α} :
    Way (p <|> q) before a u rest ↔ Way p before a u rest ∨ Way q before a u rest := mem_orElse

/-- Tokens may have blanks between them. -/
theorem way_tokens_cons {t' : Text} :
    Way (tokens (t :: t' :: ts)) before a u rest ↔ ∃ g w, u = t ++ (g ++ w) ∧ Blank g ∧
      Way (tokens (t' :: ts)) (g.reverse ++ (t.reverse ++ before)) () w rest := by
  simp only [tokens, blanks, way_bind, way_lit, way_many]
  constructor
  · rintro ⟨-, _, _, rfl, rfl, -, g, w, rfl, hg, hw⟩
    exact ⟨g, w, rfl, hg, hw⟩
  · rintro ⟨g, w, rfl, hg, hw⟩
    exact ⟨(), t, _, rfl, rfl, (), g, w, rfl, hg, hw⟩

end

/-- What the tokens take starts with the first of them. -/
theorem prefix_of_way_tokens {before rest : Text} (h : Way (tokens (t :: ts)) before () u rest) :
    t <+: u := by
  cases ts with
  | nil => exact (way_lit.1 h) ▸ prefix_rfl
  | cons t' ts =>
    obtain ⟨g, w, rfl, -, -⟩ := way_tokens_cons.1 h
    exact prefix_append _ _

/-! ## Repetition -/

/-- The text is taken in non-empty parts, one after the other. -/
inductive Repeats (p : Pattern α) : Text → Text → Text → Prop where
  | nil {before rest : Text} : Repeats p before [] rest
  | cons {before v w rest : Text} {a : α} (hne : v ≠ []) (hp : Way p before a v (w ++ rest))
    (h : Repeats p (v.reverse ++ before) w rest) : Repeats p before (v ++ w) rest

/-- The bound on the repetitions is no restriction: each of them takes a character. -/
theorem mem_starUpTo_iff {p : Pattern α} (bound : Nat) (before u rest : Text)
    (hu : u.length ≤ bound) :
    u.length ∈ starUpTo p bound ⟨before, u ++ rest⟩ ↔ Repeats p before u rest := by
  induction bound generalizing before u with
  | zero =>
    obtain rfl := eq_nil_of_length_eq_zero (Nat.le_zero.1 hu)
    exact ⟨fun _ => .nil, fun _ => mem_singleton.2 rfl⟩
  | succ bound ih =>
    rw [mem_starUpTo_succ]
    constructor
    · rintro (⟨⟨a, k⟩, ha, hk, m, hm, hlen⟩ | hzero)
      · have hkv : (u.take k).length = k := by
          rw [length_take]
          omega
        have hmw : (u.drop k).length = m := by
          rw [length_drop]
          omega
        have hle : k ≤ u.length := by omega
        have hk : k ≠ 0 := hk
        rw [Cursor.advance_eq, take_append_of_le_length hle, drop_append_of_le_length hle, ← hmw]
          at hm
        rw [← take_append_drop k u]
        refine .cons (a := a) ?_ ?_ ((ih _ _ (by omega)).1 hm)
        · intro hnil
          rw [hnil] at hkv
          exact hk hkv.symm
        · rw [Way, hkv, ← append_assoc, take_append_drop]
          exact ha
      · rw [eq_nil_of_length_eq_zero hzero]
        exact .nil
    · intro h
      cases h with
      | nil => exact .inr rfl
      | @cons _ v w _ a hne hp h =>
        have hpos := length_pos_of_ne_nil hne
        rw [length_append] at hu
        refine .inl ⟨(a, v.length), ?_, hpos.ne', w.length, ?_, by simp⟩
        · rw [Way, ← append_assoc] at hp
          exact hp
        · rw [Cursor.advance_eq, append_assoc, take_left, drop_left]
          exact (ih _ _ (by omega)).2 h

/-- A repeated pattern takes a text in non-empty parts. -/
@[simp]
theorem way_star {p : Pattern α} {before rest : Text} :
    Way (star p) before a u rest ↔ Repeats p before u rest := by
  rw [Way, mem_star]
  exact mem_starUpTo_iff _ before u rest (by simp)

end AnchorLowering.Pattern
