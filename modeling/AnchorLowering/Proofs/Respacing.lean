import AnchorLowering.Proofs.NestedLayout
import Mathlib.Logic.Relation

/-!
# Exchanging blanks

Setting spaces exchanges runs of blanks. A run may become another one anywhere, but it may vanish
only beside a mark (`Respaced`), so that two names never become one. The eleven rules for spaces do
nothing else (`respaces_spacingRules`): each match keeps what it reads but for the blanks beside its
mark.

**What such exchanges keep** (`OnlyBlanksDiffer`). The characters that are no blanks, in order, and
a blank between any two characters of names that blanks part. This is a property of the whole text
before and after, while single exchanges may be made in a part of a text, whatever stands around it
(`Reflowed.around`).
-/

namespace AnchorLowering.Lowering

open List Pattern Source

variable {x : Char} {u g t p s v : Text}

/-- A character that is neither a blank nor part of a name. -/
def isMarkChar (x : Char) : Bool := !isWord x && !isBlank x

/-- A run of blanks is exchanged for another one. It may vanish only beside a mark. -/
inductive Respaced : Text → Text → Prop where
  | exchange {a g g' b : Text} (hg : ∀ x ∈ g, isBlank x = true) (hg' : ∀ x ∈ g', isBlank x = true)
    (hkeep : g' = [] → g = [] ∨ a.getLast?.any isMarkChar = true ∨ b.head?.any isMarkChar = true) :
    Respaced (a ++ (g ++ b)) (a ++ (g' ++ b))

/-- Runs of blanks are exchanged, one after the other. -/
abbrev Reflowed (t u : Text) : Prop := Relation.ReflTransGen Respaced t u

/-- The second text has the characters of the first one but for blanks, and where blanks part two
characters of names in the first, they do so in the second. -/
structure OnlyBlanksDiffer (t u : Text) : Prop where
  same : Text.withoutBlanks u = Text.withoutBlanks t
  apart : ∀ p x g y q, t = p ++ x :: (g ++ y :: q) → g ≠ [] → (∀ z ∈ g, isBlank z = true) →
    isWord x = true → isWord y = true → ∃ p' g' q', u = p' ++ x :: (g' ++ y :: q') ∧ g' ≠ [] ∧
      (∀ z ∈ g', isBlank z = true) ∧ Text.withoutBlanks p' = Text.withoutBlanks p ∧
      Text.withoutBlanks q' = Text.withoutBlanks q

/-- A character of a concatenation stands in the first part or in the second. -/
theorem append_eq_append_cons {a r : Text} (h : a ++ r = p ++ x :: s) :
    (∃ a', a = p ++ x :: a' ∧ s = a' ++ r) ∨ ∃ p', p = a ++ p' ∧ r = p' ++ x :: s := by
  obtain ⟨p', hp, hr⟩ | ⟨a', rfl, hs⟩ := append_eq_append_iff.1 h
  · exact .inr ⟨p', hp, hr⟩
  · obtain ⟨rfl, hr⟩ | ⟨a', rfl, hs⟩ := cons_eq_append_iff.1 hs
    · exact .inr ⟨[], by simp, hr⟩
    · exact .inl ⟨a', rfl, by simpa using hs⟩

/-- What stands before a character that is no blank begins with the blanks that the whole begins
with. -/
theorem exists_append_of_blanks {b : Text} (hg : Blank g) (hx : isBlank x = false)
    (h : g ++ b = p ++ x :: s) : ∃ p', p = g ++ p' ∧ b = p' ++ x :: s := by
  obtain ⟨g', rfl, -⟩ | hp := append_eq_append_cons h
  · rw [hg x (by simp)] at hx
    cases hx
  · exact hp

theorem Respaced.onlyBlanksDiffer (h : Respaced t u) : OnlyBlanksDiffer t u := by
  obtain @⟨a, g, g', b, hg, hg', hkeep⟩ := h
  have hnil := withoutBlanks_eq_nil hg
  have hnil' := withoutBlanks_eq_nil hg'
  refine ⟨by simp only [withoutBlanks_append, hnil, hnil'], fun p x h y q heq hh hblank hx hy => ?_⟩
  -- the first of the two characters stands before the run or after it, and so does the second
  obtain ⟨a', rfl, hrest⟩ | ⟨p', rfl, hrest⟩ := append_eq_append_cons heq
  · obtain ⟨a'', rfl, rfl⟩ | ⟨h', rfl, hrun⟩ := append_eq_append_cons hrest.symm
    · exact ⟨p, h, a'' ++ (g' ++ b),
        by simp, hh, hblank, rfl, by simp only [withoutBlanks_append, hnil, hnil']⟩
    · obtain ⟨h'', rfl, rfl⟩ := exists_append_of_blanks hg (isBlank_of_isWord hy) hrun
      refine ⟨p, a' ++ (g' ++ h''), q, by simp, fun hempty => ?_, by grind, rfl, rfl⟩
      simp only [append_eq_nil_iff] at hempty
      obtain ⟨rfl, rfl, rfl⟩ := hempty
      simp [isMarkChar, hx, hy] at hkeep
      simp [hkeep] at hh
  · obtain ⟨p'', rfl, rfl⟩ := exists_append_of_blanks hg (isBlank_of_isWord hx) hrest
    exact ⟨a ++ (g' ++ p''), h, q,
      by simp, hh, hblank, by simp only [withoutBlanks_append, hnil, hnil'], rfl⟩

theorem OnlyBlanksDiffer.trans (h : OnlyBlanksDiffer t u) (h' : OnlyBlanksDiffer u v) :
    OnlyBlanksDiffer t v where
  same := h'.same.trans h.same
  apart p x g y q heq hne hg hx hy := by
    obtain ⟨p', g', q', heq, hne, hg, hp, hq⟩ := h.apart p x g y q heq hne hg hx hy
    obtain ⟨p'', g'', q'', heq, hne, hg, hp', hq'⟩ := h'.apart p' x g' y q' heq hne hg hx hy
    exact ⟨p'', g'', q'', heq, hne, hg, hp'.trans hp, hq'.trans hq⟩

theorem Reflowed.onlyBlanksDiffer (h : Reflowed t u) : OnlyBlanksDiffer t u := by
  induction h with
  | refl => exact ⟨rfl, fun p x g y q heq hne hg _ _ => ⟨p, g, q, heq, hne, hg, rfl, rfl⟩⟩
  | tail _ hstep ih => exact ih.trans hstep.onlyBlanksDiffer

namespace Reflowed

variable {t t' u u' : Text}

/-- What stands around a text hinders no exchange in it. -/
theorem around (h : Reflowed t u) (a b : Text) : Reflowed (a ++ (t ++ b)) (a ++ (u ++ b)) := by
  refine h.lift (fun t => a ++ (t ++ b)) fun t u hstep => ?_
  obtain @⟨a', g, g', b', hg, hg', hkeep⟩ := hstep
  have hstep : Respaced ((a ++ a') ++ (g ++ (b' ++ b))) ((a ++ a') ++ (g' ++ (b' ++ b))) := by
    refine .exchange hg hg' fun hnil => ?_
    rcases hkeep hnil with h | h | h
    · exact .inl h
    · exact .inr (.inl (by cases a' using reverseRecOn <;> simp_all))
    · exact .inr (.inr (by cases b' <;> simp_all))
  simpa [Function.onFun] using hstep

theorem append (h : Reflowed t u) (h' : Reflowed t' u') : Reflowed (t ++ t') (u ++ u') := by
  have hfirst := h.around [] t'
  have hsecond := h'.around u []
  simp only [nil_append, append_nil] at hfirst hsecond
  exact hfirst.trans hsecond

theorem blanks {g' : Text} (hg : Blank g) (hg' : Blank g') (h : g' = [] → g = []) :
    Reflowed g g' := by
  have hstep : Respaced ([] ++ (g ++ [])) ([] ++ (g' ++ [])) :=
    .exchange hg hg' fun hnil => .inl (h hnil)
  simpa using Relation.ReflTransGen.single hstep

/-- The blanks on both sides of a mark may go. -/
theorem closeUp (a g m g' b : Text) (hg : Blank g) (hg' : Blank g')
    (hfirst : m.head?.any isMarkChar = true) (hlast : m.getLast?.any isMarkChar = true) :
    Reflowed (a ++ (g ++ (m ++ (g' ++ b)))) (a ++ (m ++ b)) := by
  obtain ⟨x, m, rfl⟩ : ∃ x m', m = x :: m' := by cases m <;> simp_all
  have hbefore : Respaced (a ++ (g ++ (x :: m ++ (g' ++ b))))
      (a ++ ([] ++ (x :: m ++ (g' ++ b)))) :=
    .exchange hg (by simp) fun _ => .inr (.inr hfirst)
  have hafter : Respaced ((a ++ x :: m) ++ (g' ++ b)) ((a ++ x :: m) ++ ([] ++ b)) :=
    .exchange hg' (by simp) fun _ =>
      .inr (.inl (by rw [getLast?_append_of_ne_nil _ (by simp)]; exact hlast))
  refine .head hbefore (.single ?_)
  simpa using hafter

end Reflowed

/-- Every match of the rule changes blanks only, given what follows it. -/
def Respaces (rule : Pattern Text) : Prop :=
  ∀ before v u rest, Way rule before v u rest → Reflowed (u ++ rest) (v ++ rest)

theorem Respaces.reflowed {rule : Pattern Text} (hbounded : Bounded rule) (h : Respaces rule)
    (before t : Text) :
    Reflowed t (replacedFrom rule before t) := by
  induction hlen : t.length using Nat.strong_induction_on generalizing before t with
  | _ n ih =>
    cases t with
    | nil => exact .refl
    | cons x t =>
      rcases replacedFrom_cases hbounded before x t with ⟨v, u, rest, hsplit, hne, -, hway,
        heq⟩ | heq
      · have hlt : rest.length < n := by
          have := congrArg List.length hsplit
          have := length_pos_iff.2 hne
          simp only [length_append] at *
          omega
        rw [heq, hsplit]
        exact (h before v u rest hway).trans (Reflowed.append .refl (ih _ hlt _ rest rfl))
      · rw [heq]
        exact .append (t := [x]) .refl (ih _ (by rw [← hlen]; simp) _ t rfl)

theorem eq_of_way_callableName {before rest : Text} (h : Way callableName before v u rest) :
    v = u := by
  simp only [callableName, way_bind, way_wordBoundary, way_notAhead, way_capture] at h
  obtain ⟨-, _, _, rfl, ⟨rfl, -⟩, -, _, _, rfl, ⟨rfl, -⟩, rfl, -⟩ := h
  rfl

theorem respaces_unaryMark {mark : Char} {starts : Char → Bool} (hmark : isMarkChar mark = true) :
    Respaces (unaryMark mark starts) := by
  intro before v u rest h
  simp only [unaryMark, Pattern.after, way_bind, way_pure, blanks, blanks1, way_many1, way_many,
    way_capture, way_lit, way_ahead, way_behind] at h
  obtain ⟨-, _, _, rfl, ⟨rfl, -⟩, gap, _, _, rfl, ⟨rfl, -⟩, -, _, _, rfl, rfl, -, g, _, rfl,
      ⟨-, hg⟩, -, _, _, rfl,
    ⟨rfl, -⟩, rfl, rfl⟩ := h
  simpa using Reflowed.closeUp gap [] [mark] g rest (by simp) hg hmark hmark

theorem respaces_spacingRules : ∀ rule ∈ spacingRules, Respaces rule := by
  simp only [spacingRules, forall_mem_cons]
  refine ⟨?_, ?_, ?_, ?_, ?_, ?_, ?_, ?_, ?_, respaces_unaryMark (by decide),
    respaces_unaryMark (by decide), by simp⟩ <;> intro before v u rest h
  · simp only [way_bind, way_pure, blanks1, way_many1] at h
    obtain ⟨-, g, _, rfl, ⟨hne, hg⟩, rfl, rfl⟩ := h
    have hstep : Respaced ([] ++ (g ++ rest)) ([] ++ ([' '] ++ rest)) :=
      .exchange hg (by decide) (by simp)
    simpa using Relation.ReflTransGen.single hstep
  · simp only [way_bind, way_pure, way_spaced] at h
    obtain ⟨-, _, _, rfl, ⟨g, g', rfl, hg, hg'⟩, rfl, rfl⟩ := h
    simpa using Reflowed.closeUp [] g "::" g' rest hg hg' (by decide) (by decide)
  · simp only [way_bind, way_pure, way_spaced, Pattern.after, way_behind, way_ahead] at h
    obtain ⟨-, _, _, rfl, ⟨rfl, -⟩, -, _, _, rfl, ⟨g, g', rfl, hg, hg'⟩, -, _, _, rfl,
        ⟨rfl, -⟩, rfl, rfl⟩ := h
    simpa using Reflowed.closeUp [] g "." g' rest hg hg' (by decide) (by decide)
  · simp only [way_bind, way_pure, way_one, blanks1, way_many1] at h
    obtain ⟨x, _, _, rfl, ⟨rfl, hx⟩, -, g, _, rfl, ⟨-, hg⟩, rfl, rfl⟩ := h
    have hmark : isMarkChar x = true := by
      simp only [Bool.or_eq_true, beq_iff_eq] at hx
      rcases hx with rfl | rfl <;> decide
    simpa using Reflowed.closeUp [] [] [x] g rest (by simp) hg hmark hmark
  · simp only [way_bind, way_pure, way_one, blanks1, way_many1] at h
    obtain ⟨-, g, _, rfl, ⟨-, hg⟩, x, _, _, rfl, ⟨rfl, hx⟩, rfl, rfl⟩ := h
    have hmark : isMarkChar x = true := by
      simp only [Bool.or_eq_true, beq_iff_eq] at hx
      rcases hx with (((rfl | rfl) | rfl) | rfl) | rfl <;> decide
    simpa using Reflowed.closeUp [] g [x] [] rest hg (by simp) hmark hmark
  · simp only [way_bind, way_pure, blanks, blanks1, way_many1, way_many, way_lit, beforeOpener,
      way_ahead] at h
    obtain ⟨_, name, _, rfl, hname, -, g, _, rfl, ⟨-, hg⟩, -, _, _, rfl, rfl, -, g', _, rfl,
        hg', -, _, _, rfl,
      ⟨rfl, -⟩, rfl, rfl⟩ := h
    rw [eq_of_way_callableName hname]
    simpa using Reflowed.closeUp name g "!" g' rest hg hg' (by decide) (by decide)
  · simp only [way_bind, way_pure, blanks1, way_many1, way_lit, beforeOpener, way_ahead,
      Pattern.after, way_behind] at h
    obtain ⟨-, _, _, rfl, ⟨rfl, -⟩, -, _, _, rfl, rfl, -, g, _, rfl, ⟨-, hg⟩, -, _, _, rfl,
        ⟨rfl, -⟩, rfl, rfl⟩ := h
    simpa using Reflowed.closeUp [] [] "!" g rest (by simp) hg (by decide) (by decide)
  · simp only [way_bind, way_pure, blanks1, way_many1, way_ahead] at h
    obtain ⟨_, name, _, rfl, hname, -, g, _, rfl, ⟨-, hg⟩, -, _, _, rfl, ⟨rfl, hopen⟩, rfl, rfl⟩ :=
      h
    rw [eq_of_way_callableName hname]
    obtain ⟨rest, rfl⟩ : ∃ rest', rest = '(' :: rest' := by
      obtain ⟨r, hr⟩ := exists_mem_of_ne_nil _ hopen
      obtain ⟨rest', hrest⟩ := (mem_lit.1 hr).1
      exact ⟨rest', hrest.symm⟩
    simpa using Reflowed.closeUp name g "(" [] rest hg (by simp) (by decide) (by decide)
  · simp only [way_bind, way_pure, blanks1, way_many1, way_lit, way_wordBoundary] at h
    obtain ⟨-, _, _, rfl, rfl, -, g, _, rfl, ⟨-, hg⟩, -, _, _, rfl, rfl, -, _, _, rfl,
        ⟨rfl, -⟩, rfl, rfl⟩ := h
    simpa using Reflowed.closeUp [] [] "&" g ("mut".toList ++ rest) (by simp) hg (by decide)
      (by decide)

theorem reflowed_spaceCode (code : Text) : Reflowed code (spaceCode code) := by
  suffices ∀ rules : List (Pattern Text), (∀ rule ∈ rules, Respaces rule ∧ KeepsBrackets rule) →
      ∀ t,
      Reflowed t (rules.foldl (fun t rule => rule.replaceAll t) t) from
    this spacingRules (fun rule hrule => ⟨respaces_spacingRules rule hrule,
      keepsBrackets_spacingRules rule hrule⟩) code
  intro rules hrules
  induction rules with
  | nil => exact fun t => .refl
  | cons rule rules ih =>
    intro t
    obtain ⟨hrule, hbrackets⟩ := hrules rule (by simp)
    have hbounded : Bounded rule := fun c r hr => ⟨(hbrackets c r hr).1, fun _ _ => trivial⟩
    have hone : Reflowed t (rule.replaceAll t) := hrule.reflowed hbounded [] t
    exact hone.trans (ih (fun r hr => hrules r (by simp [hr])) _)

theorem reflowed_mapCode {f : Text → Text} (h : ∀ code, Reflowed code (f code)) (t : Text) :
    Reflowed t (mapCode f t) := by
  suffices ∀ ss : List Segment,
      Reflowed (ss.flatMap Segment.text) ((ss.map (Segment.mapCode f)).flatMap Segment.text) by
    simpa [mapCode_eq_flatMap, flatMap_text_segments] using this (segments t)
  intro ss
  induction ss with
  | nil => exact .refl
  | cons s ss ih =>
    refine .append ?_ ih
    unfold Segment.mapCode
    split
    · exact h s.text
    · exact .refl

end AnchorLowering.Lowering
