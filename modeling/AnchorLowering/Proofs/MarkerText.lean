import AnchorLowering.Proofs.AliasBinding
import AnchorLowering.Proofs.CodeReplacement
import AnchorLowering.Proofs.PreferredWay

/-!
# The text of a marker

A marker quotes a fragment on one line with every comment mark in it broken up. So the first place
where it can be closed is its end, and reading the issues of a marker gives back the one that it was
written for (`collect_render`).
-/

namespace AnchorLowering

open List

variable {issue : Issue} {step t : Text} {c : Char}

/-! ## Fixed texts that are replaced -/

namespace Text

theorem scan_congr_before {α : Type} {claim : Claim α}
    (h : ∀ before before' after, claim ⟨before, after⟩ = claim ⟨before', after⟩) (skip : Nat)
    (before before' after : Text) :
    scan claim skip before after = scan claim skip before' after := by
  induction after generalizing skip before before' with
  | nil => simp [scan]
  | cons c after ih =>
    cases skip with
    | succ skip => exact ih ..
    | zero =>
      rw [scan, scan, h before before']
      split
      · rw [ih]
      · rw [ih]

theorem firstAt_fixed (old new before after : Text) :
    (do Pattern.lit old; pure new : Pattern Text).firstAt ⟨before, after⟩ =
      if old.isPrefixOf after then some (new, old.length) else none := by
  simp only [Pattern.firstAt, Pattern.bind_apply, Pattern.pure_apply, Pattern.lit]
  split <;> simp

variable {old new : Text}

/-- An occurrence at the start is replaced. -/
theorem replace_append (hne : old ≠ []) (t : Text) :
    replace (old ++ t) old new = new ++ replace t old new := by
  obtain ⟨c, u, rfl⟩ := exists_cons_of_ne_nil hne
  have hfirst := firstAt_fixed (c :: u) new [] (c :: (u ++ t))
  rw [if_pos (by simp)] at hfirst
  rw [cons_append, replace, Source.replaceAll_eq_replacedFrom,
    Source.replacedFrom_of_some (by simp) hfirst]
  have hrest : (c :: (u ++ t)).drop (u.length + 1) = t := by simp
  rw [hrest, replace, Source.replaceAll_eq_replacedFrom, Source.replacedFrom, Source.replacedFrom]
  congr 2
  exact scan_congr_before (fun _ _ _ => by rw [firstAt_fixed, firstAt_fixed]) ..

theorem replace_cons (h : ¬ old <+: c :: t) :
    replace (c :: t) old new = c :: replace t old new := by
  rw [replace, Source.replaceAll_eq_replacedFrom, Source.replacedFrom_of_not_some]
  · congr 1
    rw [replace, Source.replaceAll_eq_replacedFrom, Source.replacedFrom, Source.replacedFrom]
    congr 1
    exact scan_congr_before (fun _ _ _ => by rw [firstAt_fixed, firstAt_fixed]) ..
  · intro v n
    rw [firstAt_fixed, if_neg (by simpa using h)]
    simp

end Text

/-! ## Pairs of characters -/

/-- The characters `a` and `b` do not follow one another. -/
abbrev NoPair (a b : Char) (t : Text) : Prop := t.IsChain fun x y => ¬ (x = a ∧ y = b)

namespace NoPair

variable {a b : Char}

abbrev broken (a b : Char) (t : Text) : Text := t.replace [a, b] [a, ' ', b]

/-- A pair at the start, or none: the two ways to break up a text. -/
theorem broken_cases (a b c : Char) (t : Text) :
    (∃ u, c = a ∧ t = b :: u ∧ broken a b (c :: t) = a :: ' ' :: b :: broken a b u) ∨
      ¬ (c = a ∧ t.head? = some b) ∧ broken a b (c :: t) = c :: broken a b t := by
  by_cases h : [a, b] <+: c :: t
  · obtain ⟨u, hu⟩ := h
    obtain ⟨rfl, rfl⟩ := cons.inj hu
    exact .inl ⟨u, rfl, rfl, Text.replace_append (by simp) u⟩
  · refine .inr ⟨?_, Text.replace_cons h⟩
    rintro ⟨rfl, hhead⟩
    obtain ⟨u, rfl⟩ := head?_eq_some_iff.1 hhead
    exact h ⟨u, rfl⟩

/-- A text starts as before when its pairs are broken up. -/
theorem head?_broken (a b : Char) (t : Text) : (broken a b t).head? = t.head? := by
  cases t with
  | nil => rfl
  | cons c t =>
    obtain ⟨u, rfl, rfl, h⟩ | ⟨-, h⟩ := broken_cases a b c t <;> rw [h] <;> rfl

/-- There is nothing to break up in a text without the pair. -/
theorem broken_eq (h : NoPair a b t) : broken a b t = t := by
  induction t with
  | nil => rfl
  | cons c t ih =>
    obtain ⟨u, rfl, rfl, -⟩ | ⟨-, hbroken⟩ := broken_cases a b c t
    · exact absurd ⟨rfl, rfl⟩ (isChain_cons_cons.1 h).1
    · rw [hbroken, ih h.tail]

/-- Breaking up the pairs of a text leaves none of them, and brings up no other pair. -/
theorem of_broken {x y : Char} (hab : a ≠ b) (hx : x ≠ ' ') (hy : y ≠ ' ') (t : Text)
    (h : (x = a ∧ y = b) ∨ NoPair x y t) : NoPair x y (broken a b t) := by
  induction hn : t.length using Nat.strong_induction_on generalizing t with
  | _ n ih =>
    cases t with
    | nil => exact .nil
    | cons c t =>
      rw [length_cons] at hn
      obtain ⟨u, rfl, rfl, hbroken⟩ | ⟨hnot, hbroken⟩ := broken_cases a b c t
      · rw [length_cons] at hn
        have hu := ih u.length (by omega) u (h.imp_right fun h => h.tail.tail) rfl
        have hnext : ∀ z ∈ (broken c b u).head?, ¬ (b = x ∧ z = y) := by
          rw [head?_broken]
          rintro z hz ⟨rfl, rfl⟩
          obtain ⟨rfl, -⟩ | h := h
          · exact hab rfl
          · exact (isChain_cons.1 h.tail).1 z hz ⟨rfl, rfl⟩
        rw [hbroken]
        exact .cons_cons (fun hp => hy hp.2.symm)
          (.cons_cons (fun hp => hx hp.1.symm) (isChain_cons.2 ⟨hnext, hu⟩))
      · have ht := ih t.length (by omega) t (h.imp_right fun h => h.tail) rfl
        have hnext : ∀ z ∈ (broken a b t).head?, ¬ (c = x ∧ z = y) := by
          rw [head?_broken]
          rintro z hz ⟨rfl, rfl⟩
          obtain ⟨rfl, rfl⟩ | h := h
          · exact hnot ⟨rfl, hz⟩
          · exact (isChain_cons.1 h).1 z hz ⟨rfl, rfl⟩
        rw [hbroken]
        exact isChain_cons.2 ⟨hnext, ht⟩

end NoPair

/-! ## Words on one line -/

namespace Text

/-- A text of words on one line: no blank at its ends, and one space between neighbouring words. -/
inductive Tight : Text → Prop
  | nil : Tight []
  | letter {x : Char} {t : Text} : isBlank x = false → Tight t → Tight (x :: t)
  | gap {x : Char} {t : Text} : isBlank x = false → Tight t → t ≠ [] → Tight (x :: ' ' :: t)

theorem join_modifyHead {runs : List Text} (hne : runs ≠ []) (separator : Text) (x : Char) :
    join separator (runs.modifyHead (x :: ·)) = x :: join separator runs := by
  obtain ⟨run, runs, rfl⟩ := exists_cons_of_ne_nil hne
  cases runs <;> simp [join, intercalate_cons_cons]

theorem words_cons_blank (hc : isBlank c = true) (t : Text) : words (c :: t) = words t :=
  words_append_cons [] t hc

namespace Tight

theorem head? (h : Tight t) : t.head?.any isBlank = false := by
  cases h with
  | nil => rfl
  | letter hx => simpa using hx
  | gap hx => simpa using hx

theorem getLast? (h : Tight t) : ∀ x, t.getLast? = some x → isBlank x = false := by
  induction h with
  | nil => simp
  | @letter y t hy ht ih =>
    cases t with
    | nil => simpa using hy
    | cons z t => simpa using ih
  | @gap y t hy ht hne ih =>
    obtain ⟨z, t, rfl⟩ := exists_cons_of_ne_nil hne
    simpa using ih

theorem newline_not_mem (h : Tight t) : '\n' ∉ t := by
  have hblank {x : Char} (hx : isBlank x = false) : '\n' ≠ x := by
    rintro rfl
    exact absurd hx (by decide)
  induction h with
  | nil => exact not_mem_nil
  | letter hx ht ih => exact not_mem_cons_of_ne_of_not_mem (hblank hx) ih
  | gap hx ht hne ih =>
    exact not_mem_cons_of_ne_of_not_mem (hblank hx) (not_mem_cons_of_ne_of_not_mem (by decide) ih)

theorem append (h : Tight t) {u : Text} (hu : ∀ x ∈ u, isBlank x = false) : Tight (t ++ u) := by
  induction h with
  | nil =>
    induction u with
    | nil => exact .nil
    | cons x u ih => exact .letter (hu x mem_cons_self) (ih fun y hy => hu y (mem_cons_of_mem x hy))
  | letter hx ht ih => exact .letter hx ih
  | gap hx ht hne ih => exact .gap hx ih (append_ne_nil_of_left_ne_nil hne u)

/-- The start of a tight text is tight, but for a space at its end. -/
theorem take (h : Tight t) (n : Nat) : ∃ u b, t.take n = u ++ b ∧ Tight u ∧ Blank b := by
  induction h generalizing n with
  | nil => exact ⟨[], [], by simp, .nil, by simp⟩
  | @letter x t hx ht ih =>
    cases n with
    | zero => exact ⟨[], [], rfl, .nil, by simp⟩
    | succ n =>
      obtain ⟨u, b, htake, hu, hb⟩ := ih n
      exact ⟨x :: u, b, by rw [take_succ_cons, htake, cons_append], .letter hx hu, hb⟩
  | @gap x t hx ht hne ih =>
    rcases n with _ | _ | n
    · exact ⟨[], [], rfl, .nil, by simp⟩
    · exact ⟨[x], [], rfl, .letter hx .nil, by simp⟩
    · obtain ⟨u, b, htake, hu, hb⟩ := ih n
      rw [take_succ_cons, take_succ_cons, htake]
      cases u with
      | nil => exact ⟨[x], ' ' :: b, rfl, .letter hx .nil, forall_mem_cons.2 ⟨by decide, hb⟩⟩
      | cons y u => exact ⟨x :: ' ' :: y :: u, b, rfl, .gap hx hu (cons_ne_nil y u), hb⟩

theorem join_words (h : Tight t) : join " " t.words = t := by
  have hsingle {x : Char} (hx : isBlank x = false) : words [x] = [[x]] := by
    simp [words, runsOf, hx]
  induction h with
  | nil => rfl
  | @letter x t hx ht ih =>
    cases t with
    | nil => rw [hsingle hx]; rfl
    | cons y t =>
      have hy : isBlank y = false := by simpa using ht.head?
      rw [words, runsOf_cons (by simpa using hx), if_pos (by simpa using hy),
        join_modifyHead (runsOf_cons_ne_nil (by simpa using hy) t)]
      exact congrArg (x :: ·) ih
  | @gap x t hx ht hne ih =>
    have hwords : words (x :: ' ' :: t) = [x] :: words t := by
      rw [← singleton_append, words_append_cons _ _ (by decide), hsingle hx, singleton_append]
    cases hw : words t with
    | nil => exact absurd (by rw [← ih, hw]; rfl) hne
    | cons w ws =>
      rw [hwords, hw, join, intercalate_cons_cons, ← hw]
      exact congrArg (fun u => x :: ' ' :: u) ih

theorem broken {a b : Char} (ha : isBlank a = false) (hb : isBlank b = false) (h : Tight t) :
    Tight (NoPair.broken a b t) := by
  have hspace (v : Text) : NoPair.broken a b (' ' :: v) = ' ' :: NoPair.broken a b v := by
    obtain ⟨-, rfl, -⟩ | ⟨-, h⟩ := NoPair.broken_cases a b ' ' v
    · exact absurd ha (by decide)
    · exact h
  induction hn : t.length using Nat.strong_induction_on generalizing t with
  | _ n ih =>
    -- what follows a letter is tight, or a space and a tight text
    have htail {c : Char} {u : Text} (hlt : u.length < n) (hcu : Tight (c :: u)) :
        Tight (c :: NoPair.broken a b u) := by
      cases hcu with
      | letter hc hu => exact .letter hc (ih _ hlt hu rfl)
      | @gap _ v hc hv hne =>
        rw [hspace]
        refine .gap hc (ih _ (Nat.lt_of_succ_lt hlt) hv rfl) ?_
        rwa [ne_eq, ← head?_eq_none_iff, NoPair.head?_broken, head?_eq_none_iff]
    cases t with
    | nil => exact .nil
    | cons c t =>
      rw [length_cons] at hn
      obtain ⟨u, rfl, rfl, hbroken⟩ | ⟨-, hbroken⟩ := NoPair.broken_cases a b c t
      · have hu : Tight (b :: u) := by
          cases h with
          | letter _ hu => exact hu
          | gap => exact absurd hb (by decide)
        rw [hbroken]
        rw [length_cons] at hn
        exact .gap ha (htail (by omega) hu) (cons_ne_nil _ _)
      · rw [hbroken]
        exact htail (by omega) h

end Tight

theorem trimRight_prefix (t : Text) : trimRight t <+: t := by
  rw [trimRight, ← reverse_suffix, reverse_reverse]
  exact dropWhile_suffix _

/-- The words of a text, with spaces between them, are tight. -/
theorem tight_join_words (t : Text) :
    Tight (join " " t.words) ∧ (join " " t.words = [] → t.words = []) := by
  induction t with
  | nil => exact ⟨.nil, fun _ => rfl⟩
  | cons c t ih =>
    cases hc : isBlank c with
    | true =>
      rw [words_cons_blank hc]
      exact ih
    | false =>
      rw [words, runsOf_cons (by simpa using hc)]
      split
      · rename_i hletter
        obtain ⟨d, t, rfl⟩ : ∃ d u, t = d :: u :=
          exists_cons_of_ne_nil (by rintro rfl; cases hletter)
        rw [join_modifyHead (runsOf_cons_ne_nil (by simpa using hletter) t)]
        exact ⟨.letter hc ih.1, fun hnil => absurd hnil (cons_ne_nil _ _)⟩
      · rw [words] at ih
        cases hw : runsOf (!isBlank ·) t with
        | nil => exact ⟨.letter hc .nil, fun hnil => absurd hnil (cons_ne_nil _ _)⟩
        | cons w ws =>
          rw [hw] at ih
          rw [join, intercalate_cons_cons]
          exact ⟨.gap hc ih.1 fun hnil => cons_ne_nil _ _ (ih.2 hnil),
            fun hnil => absurd hnil (cons_ne_nil _ _)⟩

end Text

/-! ## Markers -/

namespace Source.Marker

open Lowering Pattern

/-- What is quoted stands on one line and has no comment mark. -/
structure Quoted (t : Text) : Prop where
  tight : t.Tight
  noClose : NoPair '*' '/' t
  noOpen : NoPair '/' '*' t

theorem quoted_breakComments (fragment : Text) :
    Quoted (breakComments (Text.join " " fragment.words)) where
  tight := ((Text.tight_join_words fragment).1.broken (by decide) (by decide)).broken (by decide)
    (by decide)
  noClose := .of_broken (by decide) (by decide) (by decide) _
    (.inr (.of_broken (by decide) (by decide) (by decide) _ (.inl ⟨rfl, rfl⟩)))
  noOpen := .of_broken (by decide) (by decide) (by decide) _ (.inl ⟨rfl, rfl⟩)

theorem Quoted.shorten (h : Quoted t) : Quoted (shorten t) := by
  unfold Marker.shorten
  split
  · obtain ⟨u, b, htake, hu, hb⟩ := h.tight.take (fragmentLimit - 3)
    have hpre : u <+: t := (prefix_append u b).trans (htake ▸ take_prefix _ t)
    have hdots {x y : Char} (hy : y ≠ '.') (h : NoPair x y t) : NoPair x y (u ++ "...".toList) := by
      refine isChain_append.2 ⟨ IsChain.prefix h hpre, ?_, ?_⟩
      · have hdot : ∀ z w : Char, w = '.' → ¬ (z = x ∧ w = y) := fun z w hw hp => hy (hp.2 ▸ hw)
        exact .cons_cons (hdot _ _ rfl) (.cons_cons (hdot _ _ rfl) (.singleton _))
      · intro z _ w hw hp
        obtain rfl : '.' = w := by simpa using hw
        exact hy hp.2.symm
    rw [htake, trimRight_append hb hu.getLast?]
    exact ⟨hu.append (by decide), hdots (by decide) h.noClose, hdots (by decide) h.noOpen⟩
  · exact h

theorem quoted_quote (fragment : Text) : Quoted (quote fragment) :=
  (quoted_breakComments fragment).shorten

theorem length_quote (fragment : Text) : (quote fragment).length ≤ fragmentLimit := by
  unfold quote shorten
  split
  · have := (Text.trimRight_prefix ((breakComments (Text.join " " fragment.words)).take
      (fragmentLimit - 3))).length_le
    rw [length_take] at this
    rw [length_append]
    exact Nat.le_trans (Nat.add_le_add_right (Nat.le_trans this (Nat.min_le_left _ _)) _)
      (by decide)
  · omega

/-- **A quoted fragment is quoted as it is.** -/
theorem quote_quote (fragment : Text) : quote (quote fragment) = quote fragment := by
  have h := quoted_quote fragment
  have hbreak : breakComments (quote fragment) = quote fragment := by
    change NoPair.broken '/' '*' (NoPair.broken '*' '/' (quote fragment)) = quote fragment
    rw [h.noClose.broken_eq, h.noOpen.broken_eq]
  rw [quote, h.tight.join_words, hbreak, Marker.shorten,
    if_neg (Nat.not_lt.2 (length_quote fragment))]

theorem render_eq (step fragment : Text) : render step fragment =
    "/* UNRESOLVED(".toList ++ (step ++ ("): ".toList ++ (quote fragment ++ " */".toList))) := by
  unfold render
  simp only [append_assoc]

theorem render_ne_nil (step fragment : Text) : render step fragment ≠ [] := by
  rw [render_eq]
  exact append_ne_nil_of_left_ne_nil (by decide) _

/-- A quoted text does not close its marker. -/
theorem Quoted.not_prefix (h : Quoted t) {v v' rest : Text} (ht : t = v ++ v') (hne : v' ≠ []) :
    ¬ " */".toList <+: v' ++ (" */".toList ++ rest) := by
  rintro ⟨r, hr⟩
  have hpair : NoPair '*' '/' v' := h.noClose.suffix (ht ▸ suffix_append v v')
  rcases v' with _ | ⟨x, _ | ⟨y, _ | ⟨z, v'⟩⟩⟩
  · exact hne rfl
  · simp at hr
  · simp at hr
  · obtain ⟨-, rfl, rfl, -⟩ : ' ' = x ∧ '*' = y ∧ '/' = z ∧ _ := by simpa using hr
    exact (isChain_cons_cons.1 hpair.tail).1 ⟨rfl, rfl⟩

/-- The pattern takes a marker whole, whatever stands around it. -/
theorem prefers_pattern (hstep : IsName step) (fragment before rest : Text) :
    Prefers pattern before ⟨step, quote fragment⟩ (render step fragment) rest := by
  have hquoted := quoted_quote fragment
  have hmiddle (t : Text) : ("): ".toList ++ t).head?.any isWord = false := rfl
  rw [render_eq]
  refine (prefers_lit _ _ _).bind (Prefers.bind (prefers_word hstep (hmiddle _)) ?_)
  refine (prefers_lit _ _ _).bind
    (prefers_few_bind ?_ ?_ ((prefers_lit _ _ _).bind_nil (prefers_pure _)))
  · exact fun x hx => bne_iff_ne.2 fun hnewline => hquoted.tight.newline_not_mem (hnewline ▸ hx)
  · intro v v' hv hne
    rw [Pattern.bind_apply, lit, if_neg (by simpa using hquoted.not_prefix hv hne)]
    rfl

/-- The issues of a marker: the one that it was written for. -/
theorem collect_render (hstep : IsName step) (fragment : Text) :
    collect (render step fragment) = [⟨step, quote fragment⟩] := by
  have hfind := (prefers_pattern hstep fragment [] []).matchesFrom_eq (render_ne_nil _ _)
  rw [append_nil] at hfind
  rw [collect, findAll_eq_matchesFrom, hfind]
  rfl

end Source.Marker

end AnchorLowering
