import AnchorLowering.Proofs.NestedSequence
import AnchorLowering.Proofs.KeyDereference
import AnchorLowering.Proofs.LiteralText
import Mathlib.Data.List.Permutation

/-!
# Calls of other programs that are written out

A call of another program with its call context in place is read by a search for its head, a cut of
its arguments, a search for the head of the call context, another cut, and the reading of a struct
literal. If each part is self-contained and holds neither the head of such a call nor a borrow of a
balance, all of these find what was written.

Main result: `lowerProgramCalls_written`.

That nothing else is found is shown for a whole text from its parts. Heads and borrows have few
characters that are no part of names, so the marks that part a written call cut none of them
(`Parted`).
-/

namespace AnchorLowering.Lowering

open List Pattern Source StructLiteral

variable {a b e g name path u v w x y before before' rest rest' : Text} {s : Char} {t : CallTarget}

/-- A stretch of a text lies before a character, after it, or across it. -/
theorem cut_cases (h : a ++ (u ++ b) = x ++ s :: y) :
    (∃ b', x = a ++ (u ++ b') ∧ b = b' ++ s :: y) ∨ (∃ a', a = x ++ s :: a' ∧ y = a' ++ (u ++ b)) ∨
      ∃ p q, u = p ++ s :: q ∧ x = a ++ p ∧ y = q ++ b := by
  rcases append_eq_append_iff.1 h with ⟨p, hx, hub⟩ | ⟨q, ha, hy⟩
  · rcases append_eq_append_iff.1 hub with ⟨k, hp, hb⟩ | ⟨k, hu, hk⟩
    · exact .inl ⟨k, by rw [hx, hp], hb⟩
    · cases k with
      | nil => exact .inl ⟨[], by rw [hx, hu]; simp, by simpa using hk.symm⟩
      | cons z k =>
        obtain ⟨rfl, hy⟩ := cons.inj hk
        exact .inr (.inr ⟨p, k, hu, hx, hy⟩)
  · cases q with
    | nil =>
      cases u with
      | nil => exact .inl ⟨[], by simpa using ha.symm, by simpa using hy.symm⟩
      | cons z u =>
        obtain ⟨rfl, htail⟩ := cons.inj hy
        exact .inr (.inr ⟨[], u, rfl, by simpa using ha.symm, htail⟩)
    | cons z q =>
      obtain ⟨rfl, htail⟩ := cons.inj hy
      exact .inr (.inl ⟨q, ha, htail⟩)

/-! ## Heads in a text -/

/-- The head of a call of the target stands somewhere in the text. -/
def HoldsHead (t : CallTarget) (e : Text) : Prop :=
  ∃ i < e.length, t.head ⟨(e.take i).reverse, e.drop i⟩ ≠ []

instance (t : CallTarget) (e : Text) : Decidable (HoldsHead t e) :=
  inferInstanceAs (Decidable (∃ i < e.length, _ ≠ _))

theorem isName_of_mem_callTargets (ht : t ∈ callTargets) :
    IsName t.program.toList ∧ IsName t.function.toList :=
  (by decide : ∀ t ∈ callTargets, IsName t.program.toList ∧ IsName t.function.toList) t ht

theorem repeats_pathLink_congr (h : Repeats pathLink before u rest)
    (hbefore : before'.head?.any isWord = false) :
    Repeats pathLink before' u rest' := by
  induction h generalizing before' with
  | nil => exact .nil
  | cons hne hp h ih =>
    obtain ⟨-, w, g, g', hname, hg, hg', rfl⟩ := pathLink_of_way hp
    have hlast : ((w ++ (g ++ ("::".toList ++ g'))).reverse ++ before').head?.any isWord =
        false := by
      rw [any_head?_reverse_append hne, getLast?_append_of_ne_nil _ (by simp)]
      rw [getLast?_eq_some_getLast (by simp), Option.any_some]
      exact isWord_of_mem_marks hg hg' _ (getLast_mem _)
    refine .cons (a := ()) hne ?_ (ih hlast)
    simp only [pathLink, word, way_bind, way_wordBoundary, way_many1, way_spaced]
    refine ⟨(), [], w ++ (g ++ ("::".toList ++ g')), rfl, ⟨rfl, ?_⟩, (), w, _, rfl,
      ⟨hname.ne_nil, hname.word⟩, g, g', rfl, hg, hg'⟩
    rw [append_assoc, isName_head? hname, hbefore]
    exact Bool.noConfusion

/-- The head of a call is a name that does not run on. -/
theorem way_head_ends (ht : t ∈ callTargets) (h : Way t.head before () u rest) :
    before.head?.any isWord = false ∧ rest.head?.any isWord = false ∧ u.getLast?.any isWord = true ∧
      ∃ w g r, IsName w ∧ Blank g ∧ u = w ++ (g ++ ("::".toList ++ r)) := by
  obtain ⟨hprogram, hfunction⟩ := isName_of_mem_callTargets ht
  obtain ⟨l, core, rfl, hlinks, ⟨g, g', hg, hg', rfl⟩, hbefore, hrest⟩ :=
    (way_head hprogram hfunction).1 h
  have hlast : (l ++
      (t.program.toList ++ (g ++ ("::".toList ++ (g' ++ t.function.toList))))).getLast?.any
      isWord = true := by
    simp only [← append_assoc]
    rw [getLast?_append_of_ne_nil _ hfunction.ne_nil, hfunction.getLast?]
  cases hlinks with
  | nil => exact ⟨hbefore, hrest, hlast, _, g, _, hprogram, hg, rfl⟩
  | cons _ hp _ =>
    obtain ⟨hstart, w, g, g', hname, hg, -, rfl⟩ := pathLink_of_way hp
    exact ⟨hstart, hrest, hlast, w, g, _, hname, hg, by simp only [append_assoc]; rfl⟩

theorem way_head_congr (ht : t ∈ callTargets) (h : Way t.head before () u rest)
    (hbefore : before'.head?.any isWord = false)
    (hrest : rest'.head?.any isWord = false) : Way t.head before' () u rest' := by
  obtain ⟨hprogram, hfunction⟩ := isName_of_mem_callTargets ht
  obtain ⟨l, core, rfl, hlinks, hcore, hlast, -⟩ := (way_head hprogram hfunction).1 h
  refine (way_head hprogram hfunction).2 ⟨l, core, rfl, repeats_pathLink_congr hlinks hbefore,
    hcore, ?_, hrest⟩
  by_cases hl : l = []
  · rwa [hl]
  · rwa [any_head?_reverse_append hl] at hlast ⊢

/-- A text holds the head of a call iff there is a way to take one in it. -/
theorem holdsHead_iff (ht : t ∈ callTargets) :
    HoldsHead t e ↔ ∃ a u b, e = a ++ (u ++ b) ∧ Way t.head a.reverse () u b := by
  constructor
  · rintro ⟨i, hi, hne⟩
    obtain ⟨_, u, rest, hsplit, hway⟩ := (ne_nil_iff_way (bounded_head t)).1 hne
    refine ⟨e.take i, u, rest, ?_, hway⟩
    rw [← show e.drop i = u ++ rest from hsplit, take_append_drop]
  · rintro ⟨a, u, b, rfl, hway⟩
    obtain ⟨-, -, -, w, g, r, hname, -, rfl⟩ := way_head_ends ht hway
    have := length_pos_of_ne_nil hname.ne_nil
    refine ⟨a.length, by simp only [length_append]; omega, ?_⟩
    rw [take_left, drop_left]
    exact ne_nil_of_mem hway

/-- A head that a text holds lies before a character, after it, or across it. -/
theorem HoldsHead.cases (ht : t ∈ callTargets) (h : HoldsHead t (x ++ s :: y)) :
    HoldsHead t x ∨ HoldsHead t y ∨ ∃ a p q b, x = a ++ p ∧ y = q ++ b ∧
    Way t.head a.reverse () (p ++ s :: q) b := by
  obtain ⟨a, u, b, heq, hway⟩ := (holdsHead_iff ht).1 h
  obtain ⟨hbefore, hrest, -⟩ := way_head_ends ht hway
  rcases cut_cases heq.symm with ⟨b', rfl, rfl⟩ | ⟨a', rfl, rfl⟩ | ⟨p, q, rfl, hx, hy⟩
  · refine .inl ((holdsHead_iff ht).2 ⟨a, u, b', rfl, way_head_congr ht hway hbefore ?_⟩)
    cases b' with
    | nil => rfl
    | cons z b' => exact hrest
  · refine .inr (.inl ((holdsHead_iff ht).2 ⟨a', u, b, rfl, way_head_congr ht hway ?_ hrest⟩))
    by_cases ha' : a' = []
    · rw [ha']
      rfl
    · rw [reverse_append, reverse_cons, append_assoc, any_head?_reverse_append ha'] at hbefore
      rwa [head?_reverse]
  · exact .inr (.inr ⟨a, p, q, b, hx, hy, hway⟩)

/-! ## Borrows in a text -/

/-- A text that has the form of a borrow of a balance stands somewhere in the text. -/
def HoldsBorrow (e : Text) : Prop :=
  ∃ rule ∈ balanceRules, ∃ before v u rest, Way rule before v u rest ∧ u <:+: e

def isBorrowChar (x : Char) : Bool := isDotted x || x == '*'

/-- What is said of the text of a borrow: it is a dotted text with marks, and perhaps a call without
arguments. -/
inductive BorrowText : Text → Prop
  | call {d g : Text} (hd : ∀ x ∈ d, isBorrowChar x = true) (hdot : '.' ∈ d ∧ 'p' ∈ d)
    (hhead : d.head?.any isBlank = false)
    (hg : Blank g) : BorrowText (d ++ '(' :: (g ++ [')']))
  | plain {d : Text} (hd : ∀ x ∈ d, isBorrowChar x = true) (hdot : '.' ∈ d ∧ 'p' ∈ d)
    (hhead : d.head?.any isBlank = false)
    (hlast : d.getLast?.any isBlank = false) : BorrowText d

theorem isBorrowChar_of_blank (hg : Blank g) : ∀ x ∈ g, isBorrowChar x = true :=
  fun x hx => by simp [isBorrowChar, isDotted, hg x hx]

theorem isBorrowChar_of_dotted (h : Dotted u) : ∀ x ∈ u, isBorrowChar x = true :=
  fun x hx => by simp [isBorrowChar, h.isDotted x hx]

theorem borrowText_balanceBorrow {method checked : String}
    (hmethod : ∀ x ∈ method.toList, isBorrowChar x = true)
    (h : Way (balanceBorrow method checked) before v u rest) : BorrowText u := by
  simp only [balanceBorrow, tokens, blanks, way_bind, way_capture, way_lit, way_many, way_opt,
    way_pure, way_dottedName] at h
  obtain ⟨mark, m, _, rfl, hm, d, _, _, rfl, ⟨rfl, _, -, hd⟩, -, g, _, rfl, hg, -, _, _, rfl, h, -,
      rfl⟩ := h
  obtain ⟨-, _, _, rfl, rfl, -, g₁, _, rfl, hg₁, -, _, _, rfl, rfl, -, g₂, _, rfl, hg₂, -, _,
      _, rfl, rfl, -, g₃, _, rfl, hg₃, -,
    _, _, rfl, rfl, -, g₄, _, rfl, hg₄, -, _, _, rfl, rfl, -, g₅, _, rfl, hg₅, rfl⟩ := h
  have hmark : (∀ x ∈ m, isBorrowChar x = true) ∧ (m ++ d).head?.any isBlank = false := by
    rcases hm with ⟨-, -, -, _, _, rfl, rfl, o, v, k, rfl, hv, hk⟩ | ⟨-, rfl⟩
    · refine ⟨?_, rfl⟩
      simp only [forall_mem_append]
      refine ⟨by decide, ?_, isBorrowChar_of_blank hk⟩
      rcases hv with ⟨-, -, rfl⟩ | ⟨-, rfl⟩
      · decide
      · simp
    · exact ⟨by simp, by simpa using not_blank_append hd.ends.2.1 []⟩
  suffices h : BorrowText
      ((m ++ d) ++ (g ++ (".".toList ++ (g₁ ++ ("lamports".toList ++ (g₂ ++ (".".toList ++ (g₃ ++
      (method.toList ++ g₄)))))))) ++ '(' :: (g₅ ++ [')'])) by simpa using h
  refine .call ?_ (by simp) ?_ hg₅
  · simp only [forall_mem_append]
    exact ⟨⟨hmark.1, isBorrowChar_of_dotted hd⟩, isBorrowChar_of_blank hg,
      by decide, isBorrowChar_of_blank hg₁, by decide, isBorrowChar_of_blank hg₂,
      by decide, isBorrowChar_of_blank hg₃, hmethod, isBorrowChar_of_blank hg₄⟩
  · rw [head?_append_of_ne_nil _ (append_ne_nil_of_right_ne_nil m hd.ends.1), hmark.2]

/-- What a rule on balances takes is a borrow of one. -/
theorem borrowText_of_way {rule : Pattern Text} (hrule : rule ∈ balanceRules)
    (h : Way rule before v u rest) :
    BorrowText u := by
  simp only [balanceRules, mem_cons, not_mem_nil, or_false] at hrule
  rcases hrule with rfl | rfl | rfl
  · exact borrowText_balanceBorrow (by decide) h
  · exact borrowText_balanceBorrow (by decide) h
  · simp only [doubleDereference, blanks, way_bind, way_capture, way_lit, way_many, way_spaced,
      way_opt, way_pure, way_wordBoundary, way_dottedName] at h
    obtain ⟨-, _, _, rfl, rfl, -, g, _, rfl, hg, _, _, _, rfl,
        ⟨rfl, -, -, d, _, rfl, ⟨-, hd⟩, -, _, _, rfl, ⟨g₁, g₂, rfl, hg₁, hg₂⟩,
      -, _, _, rfl, rfl, o, k, _, rfl, hk, rfl⟩, -, _, _, rfl, ⟨rfl, -⟩, -, rfl⟩ := h
    have hk : ∀ x ∈ k, isBorrowChar x = true := by
      rcases hk with ⟨-, -, rfl⟩ | ⟨-, rfl⟩
      · decide
      · simp
    suffices h : BorrowText
        ("**".toList ++ (g ++ (d ++ (g₁ ++ (".".toList ++ (g₂ ++ ("try_borrow".toList ++ (k ++
        "_lamports".toList)))))))) by simpa using h
    refine .plain ?_ (by simp) rfl ?_
    · simp only [forall_mem_append]
      exact ⟨by decide, isBorrowChar_of_blank hg, isBorrowChar_of_dotted hd,
        isBorrowChar_of_blank hg₁, by decide, isBorrowChar_of_blank hg₂, by decide, hk, by decide⟩
    · simp only [← append_assoc]
      rw [getLast?_append_of_ne_nil _ (by decide)]
      decide

theorem BorrowText.mem (h : BorrowText u) : '.' ∈ u ∧ 'p' ∈ u := by
  cases h with
  | call _ hdot _ _ => exact ⟨mem_append_left _ hdot.1, mem_append_left _ hdot.2⟩
  | plain _ hdot _ _ => exact hdot

theorem BorrowText.head_not_blank (h : BorrowText u) : u.head?.any isBlank = false := by
  cases h with
  | call _ hdot hhead _ => rwa [head?_append_of_ne_nil _ (ne_nil_of_mem hdot.1)]
  | plain _ _ hhead _ => exact hhead

theorem BorrowText.last_not_blank (h : BorrowText u) : u.getLast?.any isBlank = false := by
  cases h with
  | @call d g _ _ _ _ =>
    have hsplit : d ++ '(' :: (g ++ [')']) = (d ++ '(' :: g) ++ [')'] := by simp
    rw [hsplit, getLast?_append_of_ne_nil _ (cons_ne_nil _ _)]
    decide
  | plain _ _ _ hlast => exact hlast

/-- A borrow is cut only at one of its own brackets. -/
theorem BorrowText.not_cut {p q : Text} (h : BorrowText (p ++ s :: q))
    (hs : isBorrowChar s = false) :
    s = '(' ∧ '.' ∈ p ∨ s = ')' ∧ ∃ g, Blank g ∧ '(' :: g <:+ p := by
  generalize hu : p ++ s :: q = u at h
  cases h with
  | plain hd _ _ _ => exact absurd (hd s (by rw [← hu]; simp)) (by simp [hs])
  | @call d g hd hdot _ hg =>
    have hsplit : d ++ (('(' :: g) ++ [')']) = p ++ s :: q := by simp [hu]
    rcases cut_cases hsplit with ⟨k, hp, hk⟩ | ⟨k, hk, -⟩ | ⟨k, l, hk, hp, -⟩
    · obtain ⟨rfl, rfl⟩ : k = [] ∧ s = ')' := by
        cases k with
        | nil => exact ⟨rfl, (cons.inj hk).1.symm⟩
        | cons z k => simp at hk
      exact .inr ⟨rfl, g, hg, d, by simpa using hp.symm⟩
    · exact absurd (hd s (by rw [hk]; simp)) (by simp [hs])
    · cases k with
      | nil =>
        obtain ⟨rfl, -⟩ := cons.inj hk
        exact .inl ⟨rfl, by simpa [hp] using hdot.1⟩
      | cons z k =>
        obtain ⟨-, hk⟩ := cons.inj hk
        exact absurd (isBorrowChar_of_blank hg s (by rw [hk]; simp)) (by simp [hs])

theorem not_holdsBorrow (h : ¬ ('.' ∈ e ∧ 'p' ∈ e)) : ¬ HoldsBorrow e := by
  rintro ⟨rule, hrule, before, v, u, rest, hway, hu⟩
  exact h ((borrowText_of_way hrule hway).mem.imp (hu.subset ·) (hu.subset ·))

/-- A borrow that a text holds lies before a character, after it, or across it. -/
theorem HoldsBorrow.cases (h : HoldsBorrow (x ++ s :: y)) :
    HoldsBorrow x ∨ HoldsBorrow y ∨ ∃ a p q b, x = a ++ p ∧ y = q ++ b ∧
    BorrowText (p ++ s :: q) := by
  obtain ⟨rule, hrule, before, v, u, rest, hway, a, b, hu⟩ := h
  rw [append_assoc] at hu
  rcases cut_cases hu with ⟨b', rfl, -⟩ | ⟨a', -, rfl⟩ | ⟨p, q, rfl, hx, hy⟩
  · exact .inl ⟨rule, hrule, before, v, u, rest, hway, a, b', by simp⟩
  · exact .inr (.inl ⟨rule, hrule, before, v, u, rest, hway, a', b, by simp⟩)
  · exact .inr (.inr ⟨a, p, q, b, hx, hy, borrowText_of_way hrule hway⟩)

/-! ## What stands in a written call stands in its parts -/

/-- What is held by a text that is put together with these marks is held by one of its parts. -/
structure Parted (H : Text → Prop) : Prop where
  cut {x y : Text} {s : Char} : s ∈ "(),\x7b\x7d".toList → (s = '(' → '.' ∉ x) →
    (s = ')' → ∀ g, Blank g → ¬ '(' :: g <:+ x) → H (x ++ s :: y) → H x ∨ H y
  lead {e : Text} : H (' ' :: e) → H e
  trail {e : Text} : H (e ++ [' ']) → H e
  field {name e : Text} : IsName name → H (name ++ (": ".toList ++ e)) → H e

theorem parted_holdsHead (ht : t ∈ callTargets) : Parted (HoldsHead t) := by
  have hnil : ¬ HoldsHead t [] := by
    rintro ⟨i, hi, -⟩
    cases hi
  have hlead {e : Text} (h : HoldsHead t (' ' :: e)) : HoldsHead t e := by
    rcases h.cases (x := []) ht with h | h | ⟨a, p, q, b, hx, -, hway⟩
    · exact absurd h hnil
    · exact h
    · obtain ⟨-, rfl⟩ := append_eq_nil_iff.1 hx.symm
      obtain ⟨-, -, -, w, g, r, hname, -, hu⟩ := way_head_ends ht hway
      have := isName_head?_blank hname (g ++ ("::".toList ++ r))
      rw [← hu] at this
      cases this
  refine ⟨fun hs _ _ h => ?_, hlead, fun h => ?_, fun hname h => ?_⟩
  · rcases h.cases ht with h | h | ⟨a, p, q, b, -, -, hway⟩
    · exact .inl h
    · exact .inr h
    · have hmark : ∀ s ∈ "(),\x7b\x7d".toList, isHeadChar s = false := by decide
      have hchar := (CallTarget.takesHead_head ht _ _ hway).2
      simp only [take_left] at hchar
      have hs' := hchar _ (mem_append_right p mem_cons_self)
      rw [hmark _ hs] at hs'
      cases hs'
  · rcases h.cases ht with h | h | ⟨a, p, q, b, -, hy, hway⟩
    · exact h
    · exact absurd h hnil
    · obtain ⟨rfl, -⟩ := append_eq_nil_iff.1 hy.symm
      obtain ⟨-, -, hlast, -⟩ := way_head_ends ht hway
      rw [getLast?_append_of_ne_nil _ (cons_ne_nil _ _)] at hlast
      cases hlast
  · rcases HoldsHead.cases (y := ' ' :: _) ht h with h | h | ⟨a, p, q, b, rfl, hy, hway⟩
    · obtain ⟨a, u, b, rfl, hway⟩ := (holdsHead_iff ht).1 h
      obtain ⟨-, -, -, w, g, r, -, -, rfl⟩ := way_head_ends ht hway
      exact absurd (hname.word ':' (by simp)) (by decide)
    · exact hlead h
    · obtain ⟨-, -, -, w, g, r, hw, hg, hu⟩ := way_head_ends ht hway
      have hmarks {g r : Text} (hg : Blank g) : (g ++ ("::".toList ++ r)).head?.any isWord =
          false := by
        cases g with
        | nil => rfl
        | cons z g => exact isWord_of_isBlank (hg z mem_cons_self)
      have hp : ∀ x ∈ p, isWord x = true := fun x hx => hname.word x (mem_append_right a hx)
      obtain ⟨rfl, htail⟩ := append_inj_of_class hp hw.word rfl (hmarks hg) hu
      cases g with
      | nil =>
        obtain ⟨-, rfl⟩ := cons.inj htail
        cases hy
      | cons z g =>
        obtain ⟨rfl, -⟩ := cons.inj htail
        exact absurd (hg _ mem_cons_self) (by decide)

theorem parted_holdsBorrow : Parted HoldsBorrow := by
  have hlead {e : Text} (h : HoldsBorrow (' ' :: e)) : HoldsBorrow e := by
    rcases h.cases (x := []) with h | h | ⟨a, p, q, b, hx, -, hborrow⟩
    · exact absurd h (not_holdsBorrow (by simp))
    · exact h
    · obtain ⟨-, rfl⟩ := append_eq_nil_iff.1 hx.symm
      cases hborrow.head_not_blank
  refine ⟨fun hs hopen hclose h => ?_, hlead, fun h => ?_, fun hname h => ?_⟩
  · rcases h.cases with h | h | ⟨a, p, q, b, rfl, -, hborrow⟩
    · exact .inl h
    · exact .inr h
    · have hmark : ∀ s ∈ "(),\x7b\x7d".toList, isBorrowChar s = false := by decide
      rcases hborrow.not_cut (hmark _ hs) with ⟨rfl, hdot⟩ | ⟨rfl, g, hg, hsuffix⟩
      · exact absurd (mem_append_right a hdot) (hopen rfl)
      · exact absurd (hsuffix.trans (suffix_append a p)) (hclose rfl g hg)
  · rcases h.cases with h | h | ⟨a, p, q, b, -, hy, hborrow⟩
    · exact h
    · exact absurd h (not_holdsBorrow (by simp))
    · obtain ⟨rfl, -⟩ := append_eq_nil_iff.1 hy.symm
      have := hborrow.last_not_blank
      rw [getLast?_append_of_ne_nil _ (cons_ne_nil _ _)] at this
      cases this
  · rcases HoldsBorrow.cases (y := ' ' :: _) h with h | h | ⟨a, p, q, b, -, -, hborrow⟩
    · exact absurd h (not_holdsBorrow fun hdot => absurd (hname.word _ hdot.1) (by decide))
    · exact hlead h
    · rcases hborrow.not_cut (by decide) with ⟨hs, -⟩ | ⟨hs, -⟩ <;> cases hs

/-! ## The text of a call -/

def CallTarget.callName (t : CallTarget) : Text :=
  Text.concat [t.program.toList, "::", t.function.toList]

/-- A struct literal with its fields written in full. -/
def literalText (path : Text) (fields : List (Text × Text)) : Text :=
  Text.concat [path, " \x7b ", Text.join ", " (fields.map fun f => Text.concat [f.1, ": ", f.2]),
    " \x7d"]

def contextText (program literal : Text) : Text :=
  Text.concat ["CpiContext::new(", program, ", ", literal, ")"]

/-- A call of the target by its bare path, as a statement, with its call context in place. -/
def CallTarget.callText (t : CallTarget) (program literal amount : Text) : Text :=
  Text.concat [t.callName, "(", contextText program literal, ", ", amount, ")?;"]

/-- The statement that issues the instruction of the target, with the accounts that `reference`
gives for their roles. -/
def CallTarget.issuedText (t : CallTarget) (reference : String → Text) (amount : Text) : Text :=
  Text.concat [t.structPath.toList, " \x7b ",
    Text.join ", " (t.roles.map fun role => Text.concat [role.1.toList, ": ", reference role.2]),
    ", ", t.amountField.toList, ": ", amount, " \x7d.invoke()?;"]

variable {program literal amount : Text} {fields : List (Text × Text)} {H : Text → Prop}

theorem Parted.not_cut (h : Parted H) (hs : s ∈ "(),\x7b\x7d".toList) (hopen : s = '(' → '.' ∉ x)
    (hclose : s = ')' → ∀ g, Blank g → ¬ '(' :: g <:+ x) (hx : ¬ H x) (hy : ¬ H y) :
    ¬ H (x ++ s :: y) :=
  fun hxy => (h.cut hs hopen hclose hxy).elim hx hy

/-- The fields of a literal hold nothing that none of them holds. -/
theorem Parted.not_join (h : Parted H) (hnil : ¬ H [])
    (hfields : ∀ f ∈ fields, IsName f.1 ∧ ¬ H f.2) :
    ¬ H (Text.join ", " (fields.map fun f => Text.concat [f.1, ": ", f.2])) := by
  have hfield {f : Text × Text} (hf : IsName f.1 ∧ ¬ H f.2) :
      ¬ H (Text.concat [f.1, ": ", f.2]) := by
    intro hH
    refine hf.2 (h.field hf.1 ?_)
    simpa [Text.concat] using hH
  induction fields with
  | nil => exact hnil
  | cons f fields ih =>
    obtain ⟨hf, hrest⟩ := forall_mem_cons.1 hfields
    cases fields with
    | nil => simpa [Text.join] using hfield hf
    | cons f' fields =>
      have hcut := h.not_cut (s := ',') (by decide) (by simp) (by simp) (hfield hf)
        (mt h.lead (ih hrest))
      simpa [Text.join, intercalate_cons_cons] using hcut

/-- The parts of a written call that are the same in every call of the target. -/
def CallTarget.fixedParts (t : CallTarget) : List Text := ["", t.callName, "CpiContext::new", "?;"]

/-- The text of a call holds nothing that none of its parts holds. -/
theorem Parted.not_callText (h : Parted H) (ht : t ∈ callTargets) (hamount : SelfContained amount)
    (hnames : ∀ f ∈ fields, IsName f.1) (hfixed : ∀ u ∈ t.fixedParts, ¬ H u)
    (hparts : ∀ u ∈ path :: program :: amount :: fields.map Prod.snd, ¬ H u) :
    ¬ H (t.callText program (literalText path fields) amount) := by
  simp only [CallTarget.fixedParts, forall_mem_cons] at hfixed hparts
  obtain ⟨hnil, hhead, hcontext, hend, -⟩ := hfixed
  obtain ⟨hpath, hprogram, hamount', hvalues⟩ := hparts
  have hfields : ∀ f ∈ fields, IsName f.1 ∧ ¬ H f.2 :=
    fun f hf => ⟨hnames f hf, hvalues _ (mem_map_of_mem hf)⟩
  have hdot : '.' ∉ t.callName := (by decide : ∀ t ∈ callTargets, '.' ∉ t.callName) t ht
  have htext : t.callText program (literalText path fields) amount = t.callName ++ '(' ::
      ("CpiContext::new".toList ++ '(' ::
      (program ++ ',' ::
        ((' ' :: (path ++ [' '])) ++ '\x7b' :: ((' ' :: (Text.join ", " (fields.map fun f =>
      Text.concat [f.1, ": ", f.2]) ++ [' '])) ++ '\x7d' ::
        ([] ++ ')' :: ([] ++ ',' :: ((' ' :: amount) ++ ')' ::
      "?;".toList))))))) := by
    simp [CallTarget.callText, contextText, literalText, Text.concat]
  rw [htext]
  refine h.not_cut (by decide) (fun _ => hdot) (by simp) hhead ?_
  refine h.not_cut (by decide) (fun _ => by decide) (by simp) hcontext ?_
  refine h.not_cut (by decide) (by simp) (by simp) hprogram ?_
  refine h.not_cut (by decide) (by simp) (by simp) (mt (h.trail ∘ h.lead) hpath) ?_
  refine h.not_cut (by decide) (by simp) (by simp)
    (mt (h.trail ∘ h.lead) (h.not_join hnil hfields)) ?_
  refine h.not_cut (by decide) (by simp) (by simp) hnil ?_
  refine h.not_cut (by decide) (by simp) (by simp) hnil ?_
  refine h.not_cut (by decide) (by simp) (fun _ g hg hsuffix => ?_) (mt h.lead hamount') hend
  rcases suffix_cons_iff.1 hsuffix with heq | hsuffix
  · cases heq
  · exact hamount.not_suffix hg hsuffix

theorem bounded_balanceRules : ∀ rule ∈ balanceRules, Bounded rule := by
  have hdotted : Bounded dottedName := TakesNoBracket.dottedName.mono fun _ _ => trivial
  have hborrow (method checked : String) : Bounded (balanceBorrow method checked) :=
    (Bounded.lit.bind fun _ => Bounded.lit.opt.bind fun _ => Bounded.many).opt.bind fun _ =>
      hdotted.capture.bind fun _ => Bounded.many.bind fun _ => Bounded.tokens.bind fun _ => .pure _
  simp only [balanceRules, forall_mem_cons]
  refine ⟨hborrow _ _, hborrow _ _, ?_, by simp⟩
  exact Bounded.lit.bind fun _ => Bounded.many.bind fun _ =>
    (hdotted.bind fun _ => Bounded.spaced.bind fun _ => Bounded.lit.bind fun _ =>
      Bounded.lit.opt.bind fun _ =>
      Bounded.lit).capture.bind fun _ => Takes.wordBoundary.bind fun _ => .pure _

/-- A text without a borrow of a balance is kept. -/
theorem lowerBalances_eq_self (h : ¬ HoldsBorrow e) : lowerBalances e = e := by
  suffices h : ∀ rule ∈ balanceRules, KeepsCode rule e from foldl_replaceInCode_eq h
  intro rule hrule s hs _ v u hmem
  obtain ⟨w, rest, n, hsplit, hclaim, -⟩ := exists_claim_of_mem_scan hmem
  obtain ⟨u', rest', hrest, -, hway⟩ :=
    (mem_iff_way (bounded_balanceRules rule hrule)).1 (mem_of_mem_head? hclaim)
  refine absurd ⟨rule, hrule, _, _, u', rest', hway, ?_⟩ h
  have hinfix : s.text <:+: e := by
    rw [← flatMap_text_segments e]
    exact infix_of_mem_flatten (mem_map_of_mem hs)
  refine IsInfix.trans ?_ hinfix
  rw [hsplit, show rest = u' ++ rest' from hrest]
  exact ⟨w, rest', by simp⟩

/-! ## Reading a call -/

theorem callWithHead?_written {takeSuffix : Bool} {r : Bool × Bool × Nat}
    (hu : Opening (u ++ ['('])) (hw : Fits w)
    (hv : Ending (')' :: v)) (hr : (if takeSuffix then readSuffix (u ++ ['('] ++ (w ++ ')' :: v))
      (u.length + 1 + w.length + 1)
      else (false, false, u.length + 1 + w.length + 1)) = r) :
    callWithHead? (u ++ ['('] ++ (w ++ ')' :: v)) takeSuffix 0 u.length =
    some ⟨0, r.2.2, u, w, r.1, r.2.1⟩ := by
  have hclose := matchingClose_of_fits hu (by decide) hw (w := []) rfl hv (by decide)
  rw [append_nil, nil_append] at hclose
  have hdrop : (u ++ ['('] ++ (w ++ ')' :: v)).drop u.length = '(' :: (w ++ ')' :: v) := by simp
  have hskip : skipBlanks (u ++ ['('] ++ (w ++ ')' :: v)) u.length = u.length := by
    rw [skipBlanks, hdrop]
    rfl
  have hopen : (u ++ ['('] ++ (w ++ ')' :: v))[u.length]? = some '(' := by simp
  have hslice : Text.slice (u ++ ['('] ++ (w ++ ')' :: v)) (u.length + 1)
      (u.length + 1 + w.length) = w := by
    rw [Text.slice]
    exact drop_take_middle (u ++ ['(']) w _ (by simp) (by simp)
  rw [callWithHead?, hskip, hopen]
  simp only [Option.any_some, show isOpener '(' = true from rfl, Bool.not_true, Bool.false_eq_true,
    if_false, Option.bind_eq_bind, hclose, Option.bind_some, hslice]
  rw [hr]
  simp [Text.slice]

theorem findCallsWith_written {head : Pattern Unit} (takeSuffix : Bool) {text : Text}
    {r : Bool × Bool × Nat} (hu : Opening (u ++ ['('])) (hw : Fits w) (hv : Ending (')' :: v))
    (htext : text = u ++ ['('] ++ (w ++ ')' :: v))
    (hhead : head.firstAt ⟨[], text⟩ = some ((), u.length))
    (hr : (if takeSuffix then readSuffix text (u.length + 1 + w.length + 1)
      else (false, false, u.length + 1 + w.length + 1)) = r) (hstop : r.2.2 = text.length) :
    findCallsWith takeSuffix head text = [⟨0, text.length, u, w, r.1, r.2.1⟩] := by
  have hcall := callWithHead?_written hu hw hv (htext ▸ hr)
  rw [← htext, hstop] at hcall
  obtain ⟨z, k, hz⟩ := exists_cons_of_ne_nil hu.ne_nil
  have hmarked : (marked text)[0]? = some (z, true) := by
    rw [htext, marked_opening hu, hz]
    rfl
  have hclaim : callClaim text head takeSuffix ⟨[], text ++ []⟩ =
      some (some ⟨0, text.length, u, w, r.1, r.2.1⟩, text.length) := by
    have hmask : (codeMask text).getD 0 true = true := (getElem?_marked_eq_some_iff.1 hmarked).2
    rw [append_nil]
    simp only [callClaim, hhead, Option.map_some, Cursor.position, length_nil, hmask, if_true,
      Nat.zero_add, hcall, Option.elim_some, Nat.sub_zero]
  have hscan := scan_of_some (by simp [htext]) hclaim
  rw [append_nil] at hscan
  rw [findCallsWith, Text.pieces, hscan]
  rfl

/-- The text of a call context is read back as its program and its accounts. -/
theorem parse?_contextText (hprogram : SelfContained program) (hwhole : Whole literal)
    {accounts : StructLiteral} (hparse : StructLiteral.parse? literal = some accounts) :
    CallContext.parse? (contextText program literal) = some ⟨program, accounts, none⟩ ∧
    Whole (contextText program literal) := by
  have hparts : ∀ e ∈ [program, literal], Whole e := by
    simp only [forall_mem_cons]
    exact ⟨hprogram.whole, hwhole, by simp⟩
  have htext : contextText program literal =
      "CpiContext::new".toList ++ ['('] ++ (Text.join ", " [program, literal] ++ ')' :: []) := by
    simp [contextText, Text.concat, Text.join]
  have hfits := fits_argumentList hparts
  have hend : Ending [')'] := ending_cons (by decide) (by simp) (by decide)
  have hctx : Whole (contextText program literal) := by
    rw [htext]
    exact hfits.whole_enclose (by decide) hend rfl rfl rfl rfl (by decide) (by decide)
  refine ⟨?_, hctx⟩
  have hhead : callContextHead.firstAt ⟨[], contextText program literal⟩ =
      some ((), "CpiContext::new".toList.length) := by
    rw [htext]
    cbv
  have hlength : "CpiContext::new".toList.length + 1 + (Text.join ", " [program, literal]).length +
      1 =
      (contextText program literal).length := by
    rw [htext]
    simp only [length_append, length_cons, length_nil]
    omega
  have hcalls := findCallsWith_written false
    (r := (false, false, (contextText program literal).length)) (by decide) hfits hend
    htext hhead (by rw [← hlength]; rfl) rfl
  have hnew : Text.holds "CpiContext::new".toList "new_with_signer".toList = false := by decide
  rw [CallContext.parse?]
  simp only [hctx.trim_eq, hcalls]
  rw [head?_cons, Option.bind_eq_bind, Option.bind_some, Call.args, arguments_of_whole hparts, hnew]
  simp only [bne_self_eq_false, Bool.false_eq_true, if_false, drop_length, callContextArgs?,
    Option.bind_eq_bind, Option.bind_some, hparse]
  rfl

/-! ## Lowering a written call -/

theorem CallTarget.exists_signer (ht : t ∈ callTargets) :
    ∃ source, (t.signerRole, source) ∈ t.roles ∧
    ∀ reference : String → Text,
    ((t.roles.map fun role => (role.1, reference role.2)).lookup t.signerRole).getD [] =
      reference source := by
  simp only [callTargets, mem_cons, not_mem_nil, or_false] at ht
  rcases ht with rfl | rfl | rfl | rfl
  · exact ⟨"authority", by decide, fun _ => rfl⟩
  · exact ⟨"authority", by decide, fun _ => rfl⟩
  · exact ⟨"authority", by decide, fun _ => rfl⟩
  · exact ⟨"from", by decide, fun _ => rfl⟩

/-- The accounts of a call are those that the literal gives to its roles. -/
theorem CallTarget.accounts?_eq (t : CallTarget) (path : Text) (account : String → Text)
    {order : List String} (hroles : ∀ role ∈ t.roles, role.2 ∈ order) :
    t.accounts? ⟨path, order.map fun r => (r.toList, account r)⟩ =
      some (t.roles.map fun role => (role.1, accountReference (account role.2))) := by
  have hget {r : String} (hr : r ∈ order) :
      Table.get? (order.map fun r => (r.toList, account r)) r.toList = some (account r) := by
    clear hroles
    induction order with
    | nil => cases hr
    | cons r' order ih =>
      rw [Table.get?, map_cons, lookup_cons]
      by_cases heq : r = r'
      · simp [heq]
      · have hne : (r.toList == r'.toList) = false := by simpa [String.toList_inj] using heq
        rw [hne]
        exact ih ((mem_cons.1 hr).resolve_left heq)
  rw [CallTarget.accounts?]
  generalize t.roles = roles at hroles
  induction roles with
  | nil => rfl
  | cons role roles ih =>
    obtain ⟨hrole, hrest⟩ := forall_mem_cons.1 hroles
    rw [mapM_cons, hget hrole, ih hrest]
    rfl

theorem literalText_read (hpath : IsLiteralPath path) (hnodup : (fields.map Prod.fst).Nodup)
    (hfields : ∀ f ∈ fields, IsName f.1 ∧ SelfContained f.2) :
    parse? (literalText path fields) = some ⟨path, fields⟩ ∧ Whole (literalText path fields) := by
  have htext : literalText path fields = path ++ " \x7b ".toList ++
      (Text.join ", " (fields.map fun f => f.1 ++ ": ".toList ++ f.2) ++ ([' '] ++ ['\x7d'])) := by
    simp [literalText, Text.concat]
  have hpieces : List.Forall₂ StructLiteral.Spells fields
      (fields.map fun f => f.1 ++ ": ".toList ++ f.2) :=
    forall₂_map_right_iff.2 (forall₂_same.2 fun f _ => .full f.1 f.2)
  have hspace : ∀ x ∈ [' '], isBlank x = true := by decide
  have hall : ∀ x ∈ path, (isWord x || x == ':') = true := fun x hx => by simpa using hpath.mem hx
  rw [htext]
  refine ⟨parse?_eq hpath hnodup hfields hpieces (.blanks hspace) (by simp) fun _ => hspace, ?_⟩
  have hopening : Opening (path ++ " \x7b ".toList) := by
    refine (by decide : Opening " \x7b ".toList).prepend fun x hx => ?_
    rcases hpath.mem hx with hx | rfl
    · exact isPlain_of_isWord hx
    · rfl
  have hhead : (path ++ " \x7b ".toList).head?.any isBlank = false := by
    have hfirst := hpath.first
    cases path with
    | nil => cases hfirst
    | cons x path =>
      rcases hpath.mem mem_cons_self with hx | rfl
      · exact isBlank_of_isWord hx
      · rfl
  have hopens : awaited [] (path ++ " \x7b ".toList) = some ['\x7d'] := by
    rw [awaited_append, Bracketed.of_brackets_eq_nil (brackets_of_class hall (by decide))]
    rfl
  have hcomma : ',' ∉ path ++ " \x7b ".toList := by
    rw [mem_append, not_or]
    exact ⟨fun hmem => absurd (hall _ hmem) (by decide), by decide⟩
  have hend : Ending ([' '] ++ ['\x7d']) := ending_cons (by decide) (by simp) (by decide)
  exact (fits_argumentList (mapM_field? hpieces hfields).2).whole_enclose hopening hend hhead rfl
    hopens rfl hcomma (by decide)

theorem readSuffix_end (u : Text) :
    readSuffix (u ++ "?;".toList) u.length = (true, true, u.length + 2) := by
  have hquestion : afterMark? (u ++ "?;".toList) '?' u.length = some (u.length + 1) := by
    simp [afterMark?, skipBlanks, Text.blankCount, isBlank]
  have hsemicolon : afterMark? (u ++ "?;".toList) ';' (u.length + 1) = some (u.length + 2) := by
    simp [afterMark?, skipBlanks, Text.blankCount, isBlank]
  rw [readSuffix, hquestion]
  simp only [Option.getD_some, hsemicolon]
  rfl

/-- The call is found in its own text, with both of its arguments. -/
theorem findCalls_callText (ht : t ∈ callTargets)
    (hw : Fits (Text.join ", " [contextText program literal, amount])) :
    ∃ call, findCalls t.head (t.callText program literal amount) = [call] ∧ call.start = 0 ∧
      call.stop = (t.callText program literal amount).length ∧ call.suffix = "?;".toList ∧
      call.argsText = Text.join ", " [contextText program literal, amount] := by
  generalize hcontext : contextText program literal = context at hw
  obtain ⟨text, hcall⟩ : ∃ text, text = t.callText program literal amount := ⟨_, rfl⟩
  have htext : text = t.callName ++ ['('] ++ (Text.join ", " [context, amount] ++ ')' ::
      "?;".toList) := by
    simp [hcall, hcontext, CallTarget.callText, Text.concat, Text.join]
  rw [← hcall]
  have hopening : Opening (t.callName ++ ['(']) :=
    (by decide : ∀ t ∈ callTargets, Opening (t.callName ++ ['('])) t ht
  have hend : Ending (')' :: "?;".toList) := ending_cons (by decide) (by simp) (by decide)
  have hhead : t.head.firstAt ⟨[], text⟩ = some ((), t.callName.length) := by
    rw [htext]
    simp only [callTargets, mem_cons, not_mem_nil, or_false] at ht
    rcases ht with rfl | rfl | rfl | rfl <;> cbv
  refine ⟨_, findCallsWith_written true hopening hw hend htext hhead
    (r := (true, true, text.length)) ?_ rfl, rfl, rfl,
    by simp [Call.suffix], rfl⟩
  have hsuffix := readSuffix_end
    (t.callName ++ ['('] ++ (Text.join ", " [context, amount] ++ [')']))
  have hplace : t.callName.length + 1 + (Text.join ", " [context, amount]).length + 1 =
      (t.callName ++ ['('] ++ (Text.join ", " [context, amount] ++ [')'])).length := by
    simp only [length_append, length_singleton]
    omega
  have hlength : text.length =
      (t.callName ++ ['('] ++ (Text.join ", " [context, amount] ++ [')'])).length + 2 := by
    rw [htext]
    simp only [length_append, length_cons]
    rfl
  rw [if_pos rfl, hplace, hlength, htext, ← hsuffix]
  simp

theorem lowerProgramCalls_of_found {c : Context} {call : Call} {text written : Text}
    (ht : t ∈ callTargets)
    (hbalances : lowerBalances text = text) (hothers : ∀ t' ∈ callTargets, t' ≠ t →
      findCalls t'.head text = [])
    (hfound : findCalls t.head text = [call]) (hstart : call.start = 0)
    (hstop : call.stop = text.length)
    (hlower : t.lower? c text call 0 = some ⟨written, [], false⟩) :
    lowerProgramCalls c text = .ok written := by
  have hcalls : (callTargets.flatMap fun t => (findCalls t.head text).map fun call => (call, t)) =
      [(call, t)] := by
    have hdistinct : callTargets.Nodup := by decide
    obtain ⟨ts, ts', hsplit⟩ := append_of_mem ht
    rw [hsplit] at hothers hdistinct ⊢
    obtain ⟨-, hnodup, hfresh⟩ := nodup_append.1 hdistinct
    have hnone {l : List CallTarget} (hl : ∀ t' ∈ l, t' ∈ ts ++ t :: ts') (hnot : t ∉ l) :
        (l.flatMap fun t => (findCalls t.head text).map fun call => (call, t)) = [] := by
      refine flatMap_eq_nil_iff.2 fun t' ht' => ?_
      rw [hothers t' (hl t' ht') fun heq => hnot (heq ▸ ht'), map_nil]
    rw [flatMap_append, flatMap_cons, hfound, hnone (by simp +contextual) fun hmem =>
      hfresh t hmem t mem_cons_self rfl,
      hnone (by simp +contextual) (nodup_cons.1 hnodup).1]
    rfl
  have hlowered : t.lowerOrMark c text call 0 = ⟨written, [], false⟩ := by
    rw [CallTarget.lowerOrMark, hlower]; rfl
  rw [lowerProgramCalls_of_single hbalances hcalls rfl (by rw [hlowered]; rfl)
    (by simp [hlowered]), hlowered]
  simp [Edit.applyOrdered, Text.splice, hstart, hstop]

theorem CallTarget.lower?_written {c : Context} {context : Text} {call : Call}
    {accounts : List (String × Text)}
    (hinline : c.config.inlineCpi = false) (hargs : call.argsText = Text.join ", " [context,
      amount])
    (hwhole : ∀ e ∈ [context, amount], Whole e) (hcontext : CallContext.parse? context =
      some ⟨program, ⟨path, fields⟩, none⟩)
    (haccounts : t.accounts? ⟨path, fields⟩ = some accounts)
    (hsigner : c.derivedFor? ((accounts.lookup t.signerRole).getD []) = none) (text : Text)
    (n : Nat) :
    t.lower? c text call n =
      some ⟨Text.concat [t.instruction accounts (collapseBlanks amount), ".invoke()", call.suffix],
        [], false⟩ := by
  have hread : call.args = [context, amount] := by
    rw [Call.args, hargs, arguments_of_whole hwhole]
  simp only [CallTarget.lower?, hread, findCallContext?, hcontext, Option.bind_eq_bind,
    Option.bind_some, haccounts, hinline, hsigner, Bool.and_false, Bool.false_and]
  rfl

theorem lowerBalances_callText (ht : t ∈ callTargets) (hpath : IsLiteralPath path)
    (hnames : ∀ f ∈ fields, IsName f.1)
    (hamount : SelfContained amount) (hparts : ∀ e ∈ program :: amount :: fields.map Prod.snd,
      ¬ HoldsBorrow e) :
    lowerBalances (t.callText program (literalText path fields) amount) =
      t.callText program (literalText path fields) amount := by
  refine lowerBalances_eq_self (parted_holdsBorrow.not_callText ht hamount hnames
    (fun u hu => not_holdsBorrow ?_) ?_)
  · exact fun hdot => (by decide : ∀ t ∈ callTargets, ∀ u ∈ t.fixedParts, '.' ∉ u) t ht u hu hdot.1
  · refine forall_mem_cons.2 ⟨not_holdsBorrow fun hdot => ?_, hparts⟩
    rcases hpath.mem hdot.1 with hdot | hdot
    · exact absurd hdot (by decide)
    · cases hdot

/-- No other call is found in the text of a call. -/
theorem findCalls_callText_of_ne {t' : CallTarget} (ht : t ∈ callTargets) (ht' : t' ∈ callTargets)
    (hne : t' ≠ t) (hnames : ∀ f ∈ fields, IsName f.1) (hamount : SelfContained amount)
    (hparts : ∀ e ∈ path :: program :: amount :: fields.map Prod.snd, ¬ HoldsHead t' e) :
    findCalls t'.head (t.callText program (literalText path fields) amount) = [] := by
  have hfixed : ∀ t ∈ callTargets, ∀ t' ∈ callTargets, t' ≠ t → ∀ u ∈ t.fixedParts,
      ¬ HoldsHead t' u := by decide +kernel
  have hnone := (parted_holdsHead ht').not_callText ht hamount hnames
    (hfixed t ht t' ht' hne) hparts
  refine eq_nil_iff_forall_not_mem.2 fun call hcall => ?_
  obtain ⟨u, v, r, hsplit, -, hr, -⟩ := exists_head_of_mem_findCallsWith hcall
  obtain ⟨w, rest, hv, -, hway⟩ := (mem_iff_way (bounded_head t')).1 (mem_of_mem_head? hr)
  exact hnone ((holdsHead_iff ht').2 ⟨u, w, rest, by rw [hsplit, show v = w ++ rest from hv], hway⟩)

theorem lowerProgramCalls_callText {c : Context} {accounts : List (String × Text)}
    (ht : t ∈ callTargets) (hinline : c.config.inlineCpi = false) (hpath : IsLiteralPath path)
    (hnodup : (fields.map Prod.fst).Nodup) (hnames : ∀ f ∈ fields, IsName f.1)
    (hparts : ∀ e ∈ program :: amount :: fields.map Prod.snd, SelfContained e ∧ ¬ HoldsBorrow e)
    (hheads : ∀ t' ∈ callTargets, t' ≠ t → ∀ e ∈ path :: program :: amount :: fields.map Prod.snd,
      ¬ HoldsHead t' e)
    (haccounts : t.accounts? ⟨path, fields⟩ = some accounts)
    (hsigner : c.derivedFor? ((accounts.lookup t.signerRole).getD []) = none) :
    lowerProgramCalls c (t.callText program (literalText path fields) amount) =
      .ok (Text.concat [t.instruction accounts (collapseBlanks amount), ".invoke()?;"]) := by
  obtain ⟨hprogram, -⟩ := hparts program mem_cons_self
  obtain ⟨hamount, -⟩ := hparts amount (mem_cons_of_mem _ mem_cons_self)
  obtain ⟨hparse, hwhole⟩ := literalText_read hpath hnodup fun f hf =>
    ⟨hnames f hf, (hparts f.2 (mem_cons_of_mem _ (mem_cons_of_mem _ (mem_map_of_mem hf)))).1⟩
  obtain ⟨hcontext, hwhole'⟩ := parse?_contextText hprogram hwhole hparse
  have hargs : ∀ e ∈ [contextText program (literalText path fields), amount], Whole e := by
    simp only [forall_mem_cons]
    exact ⟨hwhole', hamount.whole, by simp⟩
  obtain ⟨call, hfound, hstart, hstop, hsuffix, htext⟩ :=
    findCalls_callText ht (fits_argumentList hargs)
  have hbalances := lowerBalances_callText ht hpath hnames hamount fun e he => (hparts e he).2
  have hothers := fun t' ht' hne => findCalls_callText_of_ne ht ht' hne hnames hamount
    (hheads t' ht' hne)
  have hlower := fun text => CallTarget.lower?_written hinline htext hargs hcontext haccounts
    hsigner text 0
  rw [lowerProgramCalls_of_found ht hbalances hothers hfound hstart hstop (hlower _), hsuffix]
  rfl

/-- **A written call becomes its instruction.** Let the call context of a call stand in place, with
the accounts under the names of their roles, in any order. If the program, the amount and the
accounts are self-contained expressions that hold no head of another such call and no borrow of a
balance, and the account that signs is not derived, the call becomes the statement that issues its
instruction, with each account under the role it has in the instruction. -/
theorem lowerProgramCalls_written {c : Context} (program amount : Text) (account : String → Text)
    (order : List String)
    (ht : t ∈ callTargets) (hinline : c.config.inlineCpi = false) (hpath : IsLiteralPath path)
    (horder : order.Perm (t.roles.map (·.2)))
    (hparts : ∀ e ∈ program :: amount :: order.map account, SelfContained e ∧ ¬ HoldsBorrow e)
    (hheads : ∀ t' ∈ callTargets, t' ≠ t → ∀ e ∈ path :: program :: amount :: order.map account,
      ¬ HoldsHead t' e)
    (hsigner : ∀ role ∈ t.roles, role.1 = t.signerRole →
      c.derivedFor? (accountReference (account role.2)) = none) :
    lowerProgramCalls c
      (t.callText program (literalText path (order.map fun r => (r.toList, account r))) amount) =
      .ok (t.issuedText (fun r => accountReference (account r)) (collapseBlanks amount)) := by
  have hroles : (t.roles.map (·.2.toList)).Nodup ∧ ∀ r ∈ t.roles.map (·.2), IsName r.toList :=
    (by decide : ∀ t ∈ callTargets, (t.roles.map (·.2.toList)).Nodup ∧
      ∀ r ∈ t.roles.map (·.2), IsName r.toList) t ht
  have hvalues : order.map account = (order.map fun r => (r.toList, account r)).map Prod.snd := by
    simp [Function.comp_def]
  rw [hvalues] at hparts hheads
  obtain ⟨source, hsource, hlookup⟩ := CallTarget.exists_signer ht
  rw [lowerProgramCalls_callText ht hinline hpath ?_ ?_ hparts hheads
    (t.accounts?_eq path account fun role hrole => horder.mem_iff.2 (mem_map_of_mem hrole)) ?_]
  · simp [CallTarget.issuedText, CallTarget.instruction, braces, Text.concat, Function.comp_def]
  · have hperm := horder.map String.toList
    rw [map_map] at hperm ⊢
    exact hperm.nodup_iff.2 hroles.1
  · intro f hf
    obtain ⟨r, hr, rfl⟩ := mem_map.1 hf
    exact hroles.2 r (horder.mem_iff.1 hr)
  · rw [hlookup fun r => accountReference (account r)]
    exact hsigner (t.signerRole, source) hsource rfl

/-- The expressions for the accounts of a call, by their roles. -/
def tokenAccount (role : String) : Text :=
  if role = "mint" then "m.to_account_info()" else if role = "from" then "y . clone()"
  else if role = "to" then "x" else "&a[f(1, 2)]"

/-- The fields come in another order than the roles. Two accounts have a conversion, and one has a
borrow mark and a comma. -/
theorem lowerProgramCalls_written_token :
    lowerProgramCalls bareContext
      (Text.concat ["token::transfer(CpiContext::new(q, s::Send \x7b authority: &a[f(1, 2)], ",
        "to: x, from: y . clone() \x7d), n  + ',' as u8)?;"]) =
      .ok (Text.concat ["pinocchio_token::instructions::Transfer \x7b from: y, to: x, ",
        "authority: a[f(1, 2)], amount: n + ',' as u8 \x7d.invoke()?;"]) ∧
    lowerProgramCalls bareContext
      (Text.concat ["token::mint_to(CpiContext::new(q, s::Mint \x7b authority: &a[f(1, 2)], ",
        "to: x, mint: m.to_account_info() \x7d), n  + ',' as u8)?;"]) =
      .ok (Text.concat ["pinocchio_token::instructions::MintTo \x7b mint: m, account: x, ",
        "mint_authority: a[f(1, 2)], amount: n + ',' as u8 \x7d.invoke()?;"]) ∧
    lowerProgramCalls bareContext
      (Text.concat ["token::burn(CpiContext::new(q, s::Burn \x7b authority: &a[f(1, 2)], ",
        "mint: m.to_account_info(), from: y . clone() \x7d), n  + ',' as u8)?;"]) =
      .ok (Text.concat ["pinocchio_token::instructions::Burn \x7b account: y, mint: m, ",
        "authority: a[f(1, 2)], amount: n + ',' as u8 \x7d.invoke()?;"]) := by
  have hpath : ∀ name ∈ ["Send".toList, "Mint".toList, "Burn".toList],
      IsLiteralPath ("s::".toList ++ name) := by
    intro name hname
    have hname : IsName name :=
      (by decide : ∀ u ∈ ["Send".toList, "Mint".toList, "Burn".toList], IsName u) name hname
    exact ⟨rfl, ["s".toList], name, ⟨by decide, hname⟩, rfl⟩
  have hparts : ∀ order ∈ [["authority", "to", "from"], ["authority", "to", "mint"],
      ["authority", "mint", "from"]], ∀ e ∈ "q".toList :: "n  + ',' as u8".toList ::
        order.map tokenAccount, SelfContained e ∧ ¬ ('.' ∈ e ∧ 'p' ∈ e) := by decide +kernel
  have hclean := fun order horder e he =>
    (hparts order horder e he).imp id (not_holdsBorrow (e := e))
  refine ⟨?_, ?_, ?_⟩
  · have hwritten := lowerProgramCalls_written (c := bareContext) "q" "n  + ',' as u8" tokenAccount
      ["authority", "to", "from"] (t := callTargets[0]) (by decide) rfl (hpath "Send" (by decide))
      (by decide) (hclean _ (by decide)) (by decide +kernel) (by decide +kernel)
    refine Eq.trans (congrArg _ ?_) (hwritten.trans (congrArg Except.ok ?_)) <;> decide +kernel
  · have hwritten := lowerProgramCalls_written (c := bareContext) "q" "n  + ',' as u8" tokenAccount
      ["authority", "to", "mint"] (t := callTargets[1]) (by decide) rfl (hpath "Mint" (by decide))
      (by decide) (hclean _ (by decide)) (by decide +kernel) (by decide +kernel)
    refine Eq.trans (congrArg _ ?_) (hwritten.trans (congrArg Except.ok ?_)) <;> decide +kernel
  · have hwritten := lowerProgramCalls_written (c := bareContext) "q" "n  + ',' as u8" tokenAccount
      ["authority", "mint", "from"] (t := callTargets[2]) (by decide) rfl (hpath "Burn" (by decide))
      (by decide) (hclean _ (by decide)) (by decide +kernel) (by decide +kernel)
    refine Eq.trans (congrArg _ ?_) (hwritten.trans (congrArg Except.ok ?_)) <;> decide +kernel

end AnchorLowering.Lowering
