import AnchorLowering.Pattern.Search
import Mathlib.Data.List.Basic
import Mathlib.Data.List.TakeWhile

/-!
# What a pattern reads

A pattern without look-around is decided by the characters that it takes, and one whose parts cannot
take a given character is decided by what stands before that character. Both facts are
compositional: they hold of the single-character patterns and pass through every way of putting
patterns together.
-/

namespace AnchorLowering

open List

variable {test : Char → Bool} {n : Nat} {t : Text} {r : Unit × Nat} {c : Cursor}

/-! ## Deciding over a text

A statement about the characters of a text is decided along the text. The instances stand above the
general ones, which may run through every character there is.
-/

instance (priority := 2000) decidableForallMem (t : Text) (p : Char → Prop) [DecidablePred p] :
    Decidable (∀ x ∈ t, p x) :=
  List.decidableBAll p t

instance (priority := 2000) decidableExistsMem (t : Text) (p : Char → Prop) [DecidablePred p] :
    Decidable (∃ x ∈ t, p x) :=
  List.decidableBEx p t

/-- A text of blanks. -/
@[simp]
abbrev Blank (t : Text) : Prop := ∀ x ∈ t, isBlank x = true

/-! ## Moving a cursor -/

namespace Cursor

@[simp]
theorem after_advance (n : Nat) (c : Cursor) : (c.advance n).after = c.after.drop n := by
  obtain ⟨before, after⟩ := c
  rw [advance_eq]

@[simp]
theorem before_advance (n : Nat) (c : Cursor) :
    (c.advance n).before = (c.after.take n).reverse ++ c.before := by
  obtain ⟨before, after⟩ := c
  rw [advance_eq]

@[simp]
theorem advance_zero (c : Cursor) : c.advance 0 = c := by
  obtain ⟨before, after⟩ := c
  simp [advance_eq]

end Cursor

/-- The leading characters of a text up to the first that fails the test are those of the run. -/
theorem take_eq_take_takeWhile (h : n ≤ (t.takeWhile test).length) :
    t.take n = (t.takeWhile test).take n := by
  calc t.take n = (t.takeWhile test ++ t.dropWhile test).take n := by
        rw [takeWhile_append_dropWhile]
    _ = (t.takeWhile test).take n := take_append_of_le_length h

theorem takeWhile_drop (h : n ≤ (t.takeWhile test).length) :
    (t.drop n).takeWhile test = (t.takeWhile test).drop n := by
  induction n generalizing t with
  | zero => rfl
  | succ n ih =>
    cases t with
    | nil => rfl
    | cons x t =>
      by_cases hx : test x = true
      · simp only [takeWhile_cons, hx, if_true, length_cons, drop_succ_cons] at h ⊢
        exact ih (Nat.le_of_succ_le_succ h)
      · simp [hx] at h

namespace Text

/-- A start of a text that stops before a character is a start of the part before it. -/
theorem take_eq_take_beforeFirst {stop : Char} (h : n ≤ (t.beforeFirst stop).length) :
    t.take n = (t.beforeFirst stop).take n :=
  take_eq_take_takeWhile h

theorem beforeFirst_drop {stop : Char} (h : n ≤ (t.beforeFirst stop).length) :
    beforeFirst stop (t.drop n) = (t.beforeFirst stop).drop n :=
  takeWhile_drop h

end Text

namespace Pattern

variable {α β : Type} {c c' : Cursor}

/-! ## The ways of a pattern -/

/-- A match of a sequence is a match of the first pattern and one of the second where it ends. -/
theorem mem_bind {p : Pattern α} {f : α → Pattern β} {r : β × Nat} :
    r ∈ (p >>= f) c ↔ ∃ q ∈ p c, ∃ s ∈ f q.1 (c.advance q.2), r = (s.1, q.2 + s.2) := by
  simp only [bind_apply, mem_flatMap, mem_map, eq_comm]

theorem mem_orElse {p q : Pattern α} {r : α × Nat} : r ∈ (p <|> q) c ↔ r ∈ p c ∨ r ∈ q c := by
  simp

theorem mem_require {condition : Bool} :
    r ∈ require condition c ↔ condition = true ∧ r = ((), 0) := by
  unfold require
  split <;> simp_all

/-- One character is taken, and it passes the test. -/
theorem mem_one {r : Char × Nat} :
    r ∈ one test c ↔ ∃ rest, c.after = r.1 :: rest ∧ test r.1 = true ∧ r.2 = 1 := by
  obtain ⟨x, n⟩ := r
  unfold one
  split
  · rename_i y rest heq
    by_cases hy : test y = true
    · simp only [hy, if_true, mem_singleton, Prod.mk.injEq, heq, cons.injEq]
      constructor
      · rintro ⟨rfl, rfl⟩
        exact ⟨rest, ⟨rfl, rfl⟩, hy, rfl⟩
      · rintro ⟨rest', ⟨rfl, -⟩, -, rfl⟩
        exact ⟨rfl, rfl⟩
    · simp only [hy, Bool.false_eq_true, if_false, not_mem_nil, heq, cons.injEq, false_iff]
      rintro ⟨rest', ⟨rfl, -⟩, hx, -⟩
      exact hy hx
  · rename_i heq
    simp [heq]

theorem mem_lit : r ∈ lit t c ↔ t <+: c.after ∧ r.2 = t.length := by
  unfold lit
  split <;> simp_all [Prod.ext_iff]

theorem mem_spanLengths {t : Text} :
    n ∈ spanLengths test t ↔ n ≤ (t.takeWhile test).length := by
  rw [spanLengths, mem_range, Nat.lt_succ_iff]

/-- Every start of the longest run is a match. -/
theorem mem_many : r ∈ many test c ↔ r.2 ≤ (c.after.takeWhile test).length := by
  rw [many, mem_map]
  simp only [mem_reverse, mem_spanLengths]
  exact ⟨by rintro ⟨n, hn, rfl⟩; exact hn, fun h => ⟨r.2, h, rfl⟩⟩

/-- A run that prefers to be short has the same matches. -/
theorem mem_few : r ∈ few test c ↔ r.2 ≤ (c.after.takeWhile test).length := by
  rw [few, mem_map]
  simp only [mem_spanLengths]
  exact ⟨by rintro ⟨n, hn, rfl⟩; exact hn, fun h => ⟨r.2, h, rfl⟩⟩

theorem mem_opt {p : Pattern α} {r : Option α × Nat} :
    r ∈ opt p c ↔ (∃ q ∈ p c, r = (some q.1, q.2)) ∨ r = (none, 0) := by
  simp [opt, eq_comm]

/-- A capture returns the text that is taken. -/
theorem mem_capture {p : Pattern α} {r : Text × Nat} :
    r ∈ capture p c ↔ ∃ q ∈ p c, r = (c.after.take q.2, q.2) := by
  simp [capture, eq_comm]

theorem mem_withText {p : Pattern α} {r : (α × Text) × Nat} :
    r ∈ withText p c ↔ ∃ q ∈ p c, r = ((q.1, c.after.take q.2), q.2) := by
  simp [withText, eq_comm]

theorem mem_ahead {p : Pattern α} : r ∈ ahead p c ↔ p c ≠ [] ∧ r.2 = 0 := by
  unfold ahead
  split <;> simp_all [Prod.ext_iff]

theorem mem_notAhead {p : Pattern α} : r ∈ notAhead p c ↔ p c = [] ∧ r.2 = 0 := by
  unfold notAhead
  split <;> simp_all [Prod.ext_iff]

theorem mem_behind {test : Text → Bool} : r ∈ behind test c ↔ test c.before = true ∧ r.2 = 0 := by
  unfold behind
  split <;> simp_all [Prod.ext_iff]

/-- Exactly one of the characters on either side is of a word. -/
theorem mem_wordBoundary :
    r ∈ wordBoundary c ↔ c.before.head?.any isWord ≠ c.after.head?.any isWord ∧ r.2 = 0 := by
  unfold wordBoundary
  split <;> simp_all [Prod.ext_iff]

theorem mem_star {p : Pattern α} : r ∈ star p c ↔ r.2 ∈ starUpTo p c.after.length c := by
  simp [star, Prod.ext_iff]

/-- One repetition more: the pattern takes something and the rest is repeated, or nothing is
taken. -/
theorem mem_starUpTo_succ {p : Pattern α} {bound : Nat} : n ∈ starUpTo p (bound + 1) c ↔
      (∃ q ∈ p c, q.2 ≠ 0 ∧ ∃ k ∈ starUpTo p bound (c.advance q.2), n = q.2 + k) ∨ n = 0 := by
  simp only [starUpTo, mem_append, mem_flatMap, mem_singleton]
  refine or_congr_left (exists_congr fun q => and_congr_right fun _ => ?_)
  split <;> simp_all [eq_comm]

/-- A repetition takes nothing, or it starts as the pattern does. -/
theorem mem_star_cases {p : Pattern α} (h : r ∈ star p c) : r.2 = 0 ∨ p c ≠ [] := by
  have h := mem_star.1 h
  cases hn : c.after.length with
  | zero =>
    rw [hn] at h
    exact .inl (by simpa [starUpTo] using h)
  | succ n =>
    rw [hn] at h
    obtain ⟨q, hq, -⟩ | h := mem_starUpTo_succ.1 h
    · exact .inr (ne_nil_of_mem hq)
    · exact .inl h

/-- Of a table the entry is returned whose text comes next. -/
theorem mem_choose {table : List (String × α)} {r : α × Nat} :
    r ∈ choose table c ↔ ∃ e ∈ table, e.1.toList <+: c.after ∧ r = (e.2, e.1.toList.length) := by
  simp only [choose, mem_flatMap, mem_map, mem_lit]
  refine exists_congr fun e => and_congr_right fun _ => ?_
  constructor
  · rintro ⟨q, ⟨hpre, hq⟩, rfl⟩
    exact ⟨hpre, by rw [hq]⟩
  · rintro ⟨hpre, rfl⟩
    exact ⟨((), _), ⟨hpre, rfl⟩, rfl⟩

/-! ## Taking characters of one class -/

/-- Every way of the pattern takes characters of the class only, and not more than there are. -/
def Takes (allowed : Char → Prop) (p : Pattern α) : Prop :=
  ∀ c, ∀ r ∈ p c, r.2 ≤ c.after.length ∧ ∀ x ∈ c.after.take r.2, allowed x

namespace Takes

variable {allowed : Char → Prop} {p q : Pattern α}

/-- What takes nothing takes only what is allowed. -/
theorem of_zero (h : ∀ c, ∀ r ∈ p c, r.2 = 0) : Takes allowed p := by
  intro c r hr
  rw [h c r hr]
  simp

theorem pure (a : α) : Takes allowed (Pure.pure a : Pattern α) :=
  of_zero fun c r hr => by simp_all

/-- Two patterns that take only what is allowed do so one after the other. -/
theorem bind {f : α → Pattern β} (hp : Takes allowed p) (hf : ∀ a, Takes allowed (f a)) :
    Takes allowed (p >>= f) := by
  intro c r hr
  obtain ⟨s, hs, k, hk, rfl⟩ := mem_bind.1 hr
  obtain ⟨hslen, hschars⟩ := hp c s hs
  obtain ⟨hklen, hkchars⟩ := hf s.1 _ k hk
  rw [Cursor.after_advance] at hklen hkchars
  refine ⟨by rw [length_drop] at hklen; omega, fun x hx => ?_⟩
  rw [take_add, mem_append] at hx
  exact hx.elim (hschars x) (hkchars x)

theorem orElse (hp : Takes allowed p) (hq : Takes allowed q) : Takes allowed (p <|> q) :=
  fun c r hr => (mem_orElse.1 hr).elim (hp c r) (hq c r)

theorem one (h : ∀ x, test x = true → allowed x) : Takes allowed (Pattern.one test) := by
  rintro c ⟨x, n⟩ hr
  obtain ⟨rest, hafter, hx, rfl⟩ := mem_one.1 hr
  simp [hafter, h x hx]

theorem lit (h : ∀ x ∈ t, allowed x) : Takes allowed (Pattern.lit t) := by
  rintro c ⟨u, n⟩ hr
  obtain ⟨⟨rest, hafter⟩, rfl⟩ := mem_lit.1 hr
  rw [← hafter]
  simpa using h

theorem many (h : ∀ x, test x = true → allowed x) : Takes allowed (Pattern.many test) := by
  rintro c ⟨u, n⟩ hr
  have hn := mem_many.1 hr
  refine ⟨Nat.le_trans hn (takeWhile_sublist _).length_le, fun x hx => h x ?_⟩
  rw [take_eq_take_takeWhile hn] at hx
  exact all_eq_true.1 all_takeWhile x (mem_of_mem_take hx)

theorem few (h : ∀ x, test x = true → allowed x) : Takes allowed (Pattern.few test) :=
  fun c r hr => many h c r (mem_many.2 (mem_few.1 hr))

theorem opt (hp : Takes allowed p) : Takes allowed (Pattern.opt p) := by
  intro c r hr
  obtain ⟨s, hs, rfl⟩ | rfl := mem_opt.1 hr
  · exact hp c s hs
  · simp

theorem capture (hp : Takes allowed p) : Takes allowed (Pattern.capture p) := by
  intro c r hr
  obtain ⟨s, hs, rfl⟩ := mem_capture.1 hr
  exact hp c s hs

theorem ahead : Takes allowed (Pattern.ahead p) := of_zero fun _ _ hr => (mem_ahead.1 hr).2

theorem wordBoundary : Takes allowed Pattern.wordBoundary :=
  of_zero fun _ _ hr => (mem_wordBoundary.1 hr).2

theorem choose {table : List (String × α)} (h : ∀ e ∈ table, ∀ x ∈ e.1.toList, allowed x) :
    Takes allowed (Pattern.choose table) := by
  intro c r hr
  obtain ⟨e, he, hpre, rfl⟩ := mem_choose.1 hr
  exact lit (h e he) c ((), _) (mem_lit.2 ⟨hpre, rfl⟩)

/-- Repetition keeps to what is allowed, by induction on the bound. -/
theorem starUpTo (hp : Takes allowed p) (bound : Nat) (c : Cursor) :
    ∀ n ∈ Pattern.starUpTo p bound c,
      n ≤ c.after.length ∧ ∀ x ∈ c.after.take n, allowed x := by
  induction bound generalizing c with
  | zero => simp [Pattern.starUpTo]
  | succ bound ih =>
    intro n hn
    obtain ⟨s, hs, -, k, hk, rfl⟩ | rfl := mem_starUpTo_succ.1 hn
    · obtain ⟨hslen, hschars⟩ := hp c s hs
      obtain ⟨hklen, hkchars⟩ := ih _ k hk
      rw [Cursor.after_advance] at hklen hkchars
      refine ⟨by rw [length_drop] at hklen; omega, fun x hx => ?_⟩
      rw [take_add, mem_append] at hx
      exact hx.elim (hschars x) (hkchars x)
    · simp

theorem star (hp : Takes allowed p) : Takes allowed (Pattern.star p) :=
  fun c _ hr => starUpTo hp _ c _ (mem_star.1 hr)

end Takes

/-- More may be allowed. -/
theorem Takes.mono {p : Pattern α} {allowed allowed' : Char → Prop} (h : Takes allowed p)
    (hsub : ∀ x, allowed x → allowed' x) : Takes allowed' p :=
  fun c r hr => ⟨(h c r hr).1, fun x hx => hsub x ((h c r hr).2 x hx)⟩

/-! ## Stopping at a character -/

end Pattern

/-- Two places that look alike up to the next `stop`: the same character stands before them, the
texts after them agree up to the first `stop`, and are of one length. -/
structure Cursor.AlikeUpTo (stop : Char) (c c' : Cursor) : Prop where
  before : c.before.head? = c'.before.head?
  after : c.after.beforeFirst stop = c'.after.beforeFirst stop
  length : c.after.length = c'.after.length

namespace Cursor.AlikeUpTo

variable {stop : Char} {c c' : Cursor}

/-- Up to the stop two alike places have the same text. -/
theorem take_eq (h : AlikeUpTo stop c c') (hn : n ≤ (c.after.beforeFirst stop).length) :
    c.after.take n = c'.after.take n := by
  have hn' : n ≤ (c'.after.beforeFirst stop).length := h.after ▸ hn
  rw [Text.take_eq_take_beforeFirst hn, Text.take_eq_take_beforeFirst hn', h.after]

/-- Two alike places are alike further on, up to the stop. -/
theorem advance (h : AlikeUpTo stop c c') (hn : n ≤ (c.after.beforeFirst stop).length) :
    AlikeUpTo stop (c.advance n) (c'.advance n) where
  before := by
    rw [Cursor.before_advance, Cursor.before_advance, h.take_eq hn, head?_append, head?_append,
      h.before]
  after := by
    rw [Cursor.after_advance, Cursor.after_advance, Text.beforeFirst_drop hn,
      Text.beforeFirst_drop (h.after ▸ hn), h.after]
  length := by simp [h.length]

/-- Two places that look alike see the same next character, unless both see the stop. -/
theorem head? (h : AlikeUpTo stop c c') : c.after.head? = c'.after.head? := by
  obtain ⟨before, after⟩ := c
  obtain ⟨before', after'⟩ := c'
  obtain ⟨-, hafter, hlength⟩ := h
  cases after with
  | nil => cases after' <;> simp_all
  | cons x after =>
    cases after' with
    | nil => simp at hlength
    | cons y after' =>
      by_cases hx : x = stop <;> by_cases hy : y = stop <;> simp_all [Text.beforeFirst]

end Cursor.AlikeUpTo

namespace Pattern

/-- The ways of the pattern depend on nothing from the next `stop` on, and do not reach it. -/
def StopsAt (stop : Char) (p : Pattern α) : Prop :=
  ∀ c c' : Cursor, c.AlikeUpTo stop c' →
    p c = p c' ∧ ∀ r ∈ p c, r.2 ≤ (c.after.beforeFirst stop).length

namespace StopsAt

variable {stop : Char} {p q : Pattern α}

theorem pure (a : α) : StopsAt stop (Pure.pure a : Pattern α) := by
  intro c c' _
  simp

/-- A sequence of two patterns that do not look past the stop does not either. -/
theorem bind {f : α → Pattern β} (hp : StopsAt stop p) (hf : ∀ a, StopsAt stop (f a)) :
    StopsAt stop (p >>= f) := by
  intro c c' h
  obtain ⟨heq, hreach⟩ := hp c c' h
  refine ⟨?_, fun r hr => ?_⟩
  · rw [bind_apply, bind_apply, ← heq]
    refine flatMap_congr fun r hr => ?_
    rw [(hf r.1 _ _ (h.advance (hreach r hr))).1]
  · obtain ⟨s, hs, k, hk, rfl⟩ := mem_bind.1 hr
    have hs := hreach s hs
    have hk := (hf s.1 _ _ (h.advance hs)).2 k hk
    rw [Cursor.after_advance, Text.beforeFirst_drop hs, length_drop] at hk
    show s.2 + k.2 ≤ _
    omega

theorem one (h : test stop = false) : StopsAt stop (Pattern.one test) := by
  intro c c' halike
  have hhead := halike.head?
  have hreach : ∀ r ∈ Pattern.one test c, r.2 ≤ (c.after.beforeFirst stop).length := by
    rintro ⟨x, n⟩ hr
    obtain ⟨rest, hafter, hx, rfl⟩ := mem_one.1 hr
    have hne : x ≠ stop := by rintro rfl; simp [h] at hx
    simp [hafter, Text.beforeFirst, hne]
  refine ⟨?_, hreach⟩
  unfold Pattern.one
  cases hc : c.after <;> cases hc' : c'.after <;> simp_all

theorem lit (h : stop ∉ t) : StopsAt stop (Pattern.lit t) := by
  intro c c' halike
  have hreach : ∀ c : Cursor, t <+: c.after → t.length ≤ (c.after.beforeFirst stop).length := by
    rintro c ⟨rest, hafter⟩
    rw [← hafter, Text.beforeFirst, takeWhile_append_of_pos (by grind)]
    simp
  have hiff : t <+: c.after ↔ t <+: c'.after := by
    rw [prefix_iff_eq_take, prefix_iff_eq_take]
    constructor
    · intro ht
      rw [← halike.take_eq (hreach c (prefix_iff_eq_take.2 ht))]
      exact ht
    · intro ht
      rw [halike.take_eq (halike.after ▸ hreach c' (prefix_iff_eq_take.2 ht))]
      exact ht
  refine ⟨?_, ?_⟩
  · simp only [Pattern.lit, isPrefixOf_iff_prefix, hiff]
  · rintro ⟨u, n⟩ hr
    obtain ⟨hpre, rfl⟩ := mem_lit.1 hr
    exact hreach c hpre

/-- A run ends at a stop that fails its test. -/
theorem many (h : test stop = false) : StopsAt stop (Pattern.many test) := by
  have hrun : ∀ t : Text, t.takeWhile test = (t.beforeFirst stop).takeWhile test := by
    intro t
    rw [Text.beforeFirst, takeWhile_takeWhile]
    congr 1
    funext x
    by_cases hx : x = stop <;> simp_all
  intro c c' halike
  refine ⟨?_, fun r hr => ?_⟩
  · rw [Pattern.many, Pattern.many, spanLengths, spanLengths, hrun c.after, hrun c'.after,
      halike.after]
  · have := mem_many.1 hr
    rw [hrun] at this
    exact Nat.le_trans this (takeWhile_sublist _).length_le

theorem opt (hp : StopsAt stop p) : StopsAt stop (Pattern.opt p) := by
  intro c c' h
  obtain ⟨heq, hreach⟩ := hp c c' h
  refine ⟨by simp only [Pattern.opt, heq], fun r hr => ?_⟩
  obtain ⟨s, hs, rfl⟩ | rfl := mem_opt.1 hr
  · exact hreach s hs
  · exact Nat.zero_le _

theorem capture (hp : StopsAt stop p) : StopsAt stop (Pattern.capture p) := by
  intro c c' h
  obtain ⟨heq, hreach⟩ := hp c c' h
  refine ⟨?_, fun r hr => ?_⟩
  · rw [Pattern.capture, Pattern.capture, ← heq]
    exact map_congr_left fun r hr => by rw [h.take_eq (hreach r hr)]
  · obtain ⟨s, hs, rfl⟩ := mem_capture.1 hr
    exact hreach s hs

theorem ahead (hp : StopsAt stop p) : StopsAt stop (Pattern.ahead p) := by
  intro c c' h
  refine ⟨by rw [Pattern.ahead, Pattern.ahead, (hp c c' h).1], fun r hr => ?_⟩
  rw [(mem_ahead.1 hr).2]
  exact Nat.zero_le _

theorem wordBoundary : StopsAt stop Pattern.wordBoundary := by
  intro c c' h
  refine ⟨by rw [Pattern.wordBoundary, Pattern.wordBoundary, h.before, h.head?], fun r hr => ?_⟩
  rw [(mem_wordBoundary.1 hr).2]
  exact Nat.zero_le _

theorem choose {table : List (String × α)} (h : ∀ e ∈ table, stop ∉ e.1.toList) :
    StopsAt stop (Pattern.choose table) := by
  intro c c' halike
  refine ⟨flatMap_congr fun e he => by rw [(lit (h e he) c c' halike).1], fun r hr => ?_⟩
  obtain ⟨e, he, hpre, rfl⟩ := mem_choose.1 hr
  exact (lit (h e he) c c' halike).2 ((), _) (mem_lit.2 ⟨hpre, rfl⟩)

/-- Repetitions at two alike places are the same, by induction on the bound. -/
theorem starUpTo (hp : StopsAt stop p) (bound : Nat) {c' : Cursor} (h : c.AlikeUpTo stop c') :
    Pattern.starUpTo p bound c = Pattern.starUpTo p bound c' ∧
      ∀ n ∈ Pattern.starUpTo p bound c, n ≤ (c.after.beforeFirst stop).length := by
  induction bound generalizing c c' with
  | zero => simp [Pattern.starUpTo]
  | succ bound ih =>
    obtain ⟨heq, hreach⟩ := hp c c' h
    refine ⟨?_, fun n hn => ?_⟩
    · rw [Pattern.starUpTo, Pattern.starUpTo, ← heq]
      congr 1
      refine flatMap_congr fun r hr => ?_
      rw [(ih (h.advance (hreach r hr))).1]
    · obtain ⟨s, hs, -, k, hk, rfl⟩ | rfl := mem_starUpTo_succ.1 hn
      · have hs := hreach s hs
        have hk := (ih (h.advance hs)).2 k hk
        rw [Cursor.after_advance, Text.beforeFirst_drop hs, length_drop] at hk
        omega
      · exact Nat.zero_le _

theorem star (hp : StopsAt stop p) : StopsAt stop (Pattern.star p) := by
  intro c c' h
  obtain ⟨heq, hreach⟩ := starUpTo hp c.after.length h
  refine ⟨by rw [Pattern.star, Pattern.star, heq, h.length], fun r hr => ?_⟩
  exact hreach _ (mem_star.1 hr)

end StopsAt

/-! ## Starting with a word -/

/-- The pattern matches only where a word character comes next. -/
def StartsWithWord (p : Pattern α) : Prop :=
  ∀ c : Cursor, p c ≠ [] → c.after.head?.any isWord = true

namespace StartsWithWord

variable {p : Pattern α} {f : α → Pattern β}

/-- A pattern that starts with a word does not match before another character. -/
theorem firstAt_eq_none (hp : StartsWithWord p) (h : c.after.head?.any isWord = false) :
    p.firstAt c = none := by
  by_contra hne
  have hc : p c ≠ [] := by
    intro hnil
    exact hne (by rw [Pattern.firstAt, hnil]; rfl)
  rw [hp c hc] at h
  cases h

theorem bind (hp : StartsWithWord p) : StartsWithWord (p >>= f) := by
  intro c hc
  obtain ⟨r, hr⟩ := exists_mem_of_ne_nil _ hc
  obtain ⟨s, hs, -⟩ := mem_bind.1 hr
  exact hp c (ne_nil_of_mem hs)

/-- A pattern that takes a character only where a word comes next, before one that starts with a
word. -/
theorem bind_after (hp : ∀ c, ∀ r ∈ p c, r.2 = 0 ∨ c.after.head?.any isWord = true)
    (hf : ∀ a, StartsWithWord (f a)) : StartsWithWord (p >>= f) := by
  intro c hc
  obtain ⟨r, hr⟩ := exists_mem_of_ne_nil _ hc
  obtain ⟨s, hs, k, hk, -⟩ := mem_bind.1 hr
  obtain hzero | hword := hp c s hs
  · have := hf s.1 _ (ne_nil_of_mem hk)
    rwa [hzero, Cursor.advance_zero] at this
  · exact hword

theorem capture (hp : StartsWithWord p) : StartsWithWord (Pattern.capture p) := by
  intro c hc
  obtain ⟨r, hr⟩ := exists_mem_of_ne_nil _ hc
  obtain ⟨s, hs, -⟩ := mem_capture.1 hr
  exact hp c (ne_nil_of_mem hs)

theorem withText (hp : StartsWithWord p) : StartsWithWord (Pattern.withText p) := by
  intro c hc
  obtain ⟨r, hr⟩ := exists_mem_of_ne_nil _ hc
  obtain ⟨s, hs, -⟩ := mem_withText.1 hr
  exact hp c (ne_nil_of_mem hs)

theorem word : StartsWithWord Pattern.word := by
  intro c hc
  obtain ⟨r, hr⟩ := exists_mem_of_ne_nil _ hc
  obtain ⟨s, hs, -⟩ := mem_bind.1 hr
  obtain ⟨rest, hafter, hword, -⟩ := mem_one.1 hs
  simpa [hafter] using hword

theorem lit (h : t.head?.any isWord = true) : StartsWithWord (Pattern.lit t) := by
  intro c hc
  obtain ⟨r, hr⟩ := exists_mem_of_ne_nil _ hc
  obtain ⟨⟨rest, hafter⟩, -⟩ := mem_lit.1 hr
  cases t with
  | nil => simp at h
  | cons x t => simpa [← hafter] using h

end StartsWithWord

end Pattern

end AnchorLowering
