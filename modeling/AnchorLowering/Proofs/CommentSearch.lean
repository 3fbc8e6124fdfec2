import AnchorLowering.Proofs.Lexing
import Mathlib.Data.List.GetD

/-!
# Searching past comments

Two texts are *alike but for comments* if they are cut into the same segments, where a comment may
read otherwise as long as its length is the same. A search over whole texts sees comments: a match
that starts in a comment uses up the characters it takes, and these may be code.

**What a comment can do to a search.** Nothing else: `findAll_congr` says that two texts that are
alike but for comments have the same matches in code, if the pattern stops at slashes, starts with a
word character, and no match that starts in a comment hides another one behind the comment.
-/

namespace AnchorLowering.Source

open List Pattern

variable {c : Char} {ps ps' : List (Piece Unit)} {mask : List Bool} {n place skip : Nat}
  {after before before' t t' r : Text}

/-! ## Texts that are alike but for comments -/

/-- The sealed piece is a comment. -/
def isComment (t : Text) : Bool := t.startsWith "//" || t.startsWith "/*"

/-- Two pieces that are the same, or two comments of one length. -/
inductive AlikePiece : Piece Unit → Piece Unit → Prop where
  | same (p : Piece Unit) : AlikePiece p p
  | comment {t t' : Text} (ht : isComment t = true) (ht' : isComment t' = true)
    (hlen : t.length = t'.length) : AlikePiece (.claimed () t) (.claimed () t')

theorem AlikePiece.symm {p p' : Piece Unit} (h : AlikePiece p p') : AlikePiece p' p := by
  cases h with
  | same p => exact .same p
  | comment ht ht' hlen => exact .comment ht' ht hlen.symm

/-- Two segments that are the same, or two comments of one length. -/
def Segment.Alike (s s' : Segment) : Prop :=
  s = s' ∨ s.isCode = false ∧ s'.isCode = false ∧ isComment s.text = true ∧
    isComment s'.text = true ∧ s.text.length = s'.text.length

instance (s s' : Segment) : Decidable (s.Alike s') := inferInstanceAs (Decidable (_ ∨ _))

/-- Two texts with the same code and the same literals at the same places; comments may differ in
their characters. -/
def AlikeButComments (t t' : Text) : Prop :=
  List.Forall₂ Segment.Alike (segments t) (segments t')

instance (t t' : Text) : Decidable (AlikeButComments t t') :=
  inferInstanceAs (Decidable (List.Forall₂ _ _ _))

theorem forall₂_same (ps : List (Piece Unit)) : Forall₂ AlikePiece ps ps :=
  List.forall₂_same.2 fun p _ => .same p

theorem Segment.Alike.pieces {s s' : Segment} (h : s.Alike s') :
    Forall₂ AlikePiece s.pieces s'.pieces := by
  obtain ⟨isCode, t⟩ := s
  obtain ⟨isCode', t'⟩ := s'
  obtain h | ⟨rfl, rfl, ht, ht', hlen⟩ := h
  · cases h
    exact forall₂_same _
  · exact .cons (.comment ht ht' hlen) .nil

theorem Segment.Alike.consPiece {p p' : Piece Unit} {ss ss' : List Segment} (hp : AlikePiece p p')
    (h : List.Forall₂ Segment.Alike ss ss') :
    List.Forall₂ Segment.Alike (Segment.consPiece p ss) (Segment.consPiece p' ss') := by
  cases hp with
  | comment ht ht' hlen => exact .cons (.inr ⟨rfl, rfl, ht, ht', hlen⟩) h
  | same p =>
    cases p with
    | claimed u t => exact .cons (.inl rfl) h
    | char c =>
      cases h with
      | nil => exact .cons (.inl rfl) .nil
      | @cons s s' ss ss' hs hss =>
        obtain ⟨isCode, t⟩ := s
        obtain ⟨isCode', t'⟩ := s'
        obtain hs | ⟨rfl, rfl, ht, ht', hlen⟩ := hs
        · cases hs
          cases isCode with
          | true => exact .cons (.inl rfl) hss
          | false => exact .cons (.inl rfl) (.cons (.inl rfl) hss)
        · exact .cons (.inl rfl) (.cons (.inr ⟨rfl, rfl, ht, ht', hlen⟩) hss)

theorem alikeButComments_iff : AlikeButComments t t' ↔
      Forall₂ AlikePiece (Text.pieces sealedClaim t) (Text.pieces sealedClaim t') := by
  constructor
  · intro h
    rw [← flatMap_segments t, ← flatMap_segments t']
    exact rel_flatMap h fun s s' hs => hs.pieces
  · intro h
    rw [AlikeButComments, segments, segments]
    generalize Text.pieces sealedClaim t = ps at h ⊢
    generalize Text.pieces sealedClaim t' = ps' at h ⊢
    induction h with
    | nil => exact .nil
    | cons hp _ ih => exact Segment.Alike.consPiece hp ih

theorem length_spell_of_alike (h : Forall₂ AlikePiece ps ps') :
    (spell ps).length = (spell ps').length := by
  induction h with
  | nil => rfl
  | cons hp _ ih =>
    cases hp with
    | same p => simp [ih]
    | comment _ _ hlen => simp [ih, hlen]

/-- For each character of the pieces, whether it is code. -/
def marks (ps : List (Piece Unit)) : List Bool :=
  ps.flatMap fun piece =>
    match piece with
    | .char _ => [true]
    | .claimed _ s => s.map fun _ => false

@[simp] theorem marks_char (c : Char) (ps : List (Piece Unit)) :
    marks (.char c :: ps) = true :: marks ps := rfl

@[simp] theorem marks_claimed (u : Unit) (t : Text) (ps : List (Piece Unit)) :
    marks (.claimed u t :: ps) = replicate t.length false ++ marks ps := by
  simp [marks]

theorem codeMask_eq (t : Text) : codeMask t = marks (Text.pieces sealedClaim t) := rfl

theorem marks_of_alike (h : Forall₂ AlikePiece ps ps') : marks ps = marks ps' := by
  induction h with
  | nil => rfl
  | @cons p p' ps ps' hp _ ih =>
    cases hp with
    | same p => cases p <;> simp [ih]
    | comment _ _ hlen => simp [ih, hlen]

theorem head?_of_isComment (h : isComment t = true) : t.head? = some '/' := by
  simp only [isComment, Text.startsWith, Bool.or_eq_true, isPrefixOf_iff_prefix] at h
  obtain ⟨s, rfl⟩ | ⟨s, rfl⟩ := h <;> rfl

theorem beforeFirst_of_isComment (h : isComment t = true) (rest : Text) :
    (t ++ rest).beforeFirst '/' = [] := by
  have hhead := head?_of_isComment h
  cases t with
  | nil => cases hhead
  | cons x t =>
    cases hhead
    simp [Text.beforeFirst]

theorem beforeFirst_of_alike (h : Forall₂ AlikePiece ps ps') :
    (spell ps).beforeFirst '/' = (spell ps').beforeFirst '/' := by
  induction h with
  | nil => rfl
  | @cons p p' ps ps' hp _ ih =>
    cases hp with
    | same p =>
      simp only [spell_cons, Text.beforeFirst, takeWhile_append] at ih ⊢
      rw [ih]
    | comment ht ht' _ =>
      rw [spell_cons, spell_cons, Piece.text_claimed, Piece.text_claimed,
        beforeFirst_of_isComment ht, beforeFirst_of_isComment ht']

/-! ## The matches from a place on -/

variable {α : Type} {p : Pattern α}

/-- The matches from a place on, with `skip` characters of a match still to be passed. -/
def matchesFrom (p : Pattern α) (skip : Nat) (before after : Text) : List (Match α) :=
  (Text.scan p.matchAt skip before after).filterMap Piece.value?

theorem findAll_eq_matchesFrom (p : Pattern α) (t : Text) : p.findAll t = matchesFrom p 0 [] t :=
  rfl

theorem matchesFrom_nil (p : Pattern α) (skip : Nat) (before : Text) :
    matchesFrom p skip before [] = [] := by
  cases skip <;> rfl

theorem matchesFrom_succ (p : Pattern α) (skip : Nat) (before after : Text) (c : Char) :
    matchesFrom p (skip + 1) before (c :: after) = matchesFrom p skip (c :: before) after := rfl

theorem matchesFrom_of_some {v : α} (h : p.firstAt ⟨before, c :: after⟩ = some (v, n + 1)) :
    matchesFrom p 0 before (c :: after) =
      ⟨before.length, before.length + (n + 1), v⟩ :: matchesFrom p n (c :: before) after := by
  simp [matchesFrom, Text.scan, Pattern.matchAt, h, Piece.value?, Cursor.position]

theorem matchesFrom_of_not_some (h : ∀ v n, p.firstAt ⟨before, c :: after⟩ ≠ some (v, n + 1)) :
    matchesFrom p 0 before (c :: after) = matchesFrom p 0 (c :: before) after := by
  rw [matchesFrom, Text.scan]
  split
  · rename_i m n hm
    obtain ⟨⟨v, k⟩, hv, heq⟩ := Option.map_eq_some_iff.1 hm
    obtain ⟨-, rfl⟩ := Prod.mk.inj heq
    exact absurd hv (h v n)
  · rfl

theorem le_beforeFirst_tail {stop : Char} (h : n + 1 ≤ (Text.beforeFirst stop (c :: t)).length) :
    n ≤ (t.beforeFirst stop).length := by
  simp only [Text.beforeFirst, takeWhile_cons] at h ⊢
  split at h
  · simpa using h
  · simp at h

/-- Over the same characters, two searches with a pattern that stops at slashes find the same
matches, and are then the same way into the text that follows. -/
theorem matchesFrom_common (hstop : StopsAt '/' p) (hword : StartsWithWord p) {r' : Text}
    (hr : r.beforeFirst '/' = r'.beforeFirst '/') (hrlen : r.length = r'.length) (x : Text)
    (hlen : before.length = before'.length) (hprev : before.head? = before'.head? ∨
      (x ++ r).head?.any isWord = false)
    (hskip : skip ≤ ((x ++ r).beforeFirst '/').length) :
    ∃ ms skip', skip' ≤ (r.beforeFirst '/').length ∧
      matchesFrom p skip before (x ++ r) = ms ++ matchesFrom p skip' (x.reverse ++ before) r ∧
      matchesFrom p skip before' (x ++ r') = ms ++ matchesFrom p skip' (x.reverse ++ before')
        r' := by
  induction x generalizing skip before before' with
  | nil => exact ⟨[], skip, hskip, rfl, rfl⟩
  | cons c x ih =>
    simp only [cons_append, reverse_cons, append_assoc, nil_append]
    have hlen' : (c :: before).length = (c :: before').length := by simp [hlen]
    cases skip with
    | succ skip =>
      rw [matchesFrom_succ, matchesFrom_succ]
      exact ih hlen' (.inl rfl) (le_beforeFirst_tail hskip)
    | zero =>
      have hclaim : p.firstAt ⟨before, c :: (x ++ r)⟩ = p.firstAt ⟨before', c :: (x ++ r')⟩ := by
        obtain hprev | hnext := hprev
        · have halike : Cursor.AlikeUpTo '/' ⟨before, c :: x ++ r⟩ ⟨before', c :: x ++ r'⟩ := by
            refine ⟨hprev, ?_, by simp [hrlen]⟩
            simp only [Text.beforeFirst, takeWhile_append] at hr ⊢
            rw [hr]
          rw [Pattern.firstAt, Pattern.firstAt]
          exact congrArg List.head? (hstop _ _ halike).1
        · rw [hword.firstAt_eq_none (by simpa using hnext),
            hword.firstAt_eq_none (by simpa using hnext)]
      by_cases hsome : ∃ v n, p.firstAt ⟨before, c :: (x ++ r)⟩ = some (v, n + 1)
      · obtain ⟨v, n, hv⟩ := hsome
        have hreach : n + 1 ≤ (Text.beforeFirst '/' (c :: (x ++ r))).length :=
          (hstop _ _ ⟨rfl, rfl, rfl⟩).2 (v, n + 1) (mem_of_mem_head? hv)
        obtain ⟨ms, skip', hskip', heq, heq'⟩ := ih hlen' (.inl rfl) (le_beforeFirst_tail hreach)
        refine ⟨⟨before.length, before.length + (n + 1), v⟩ :: ms, skip', hskip', ?_, ?_⟩
        · rw [matchesFrom_of_some hv, heq]
          rfl
        · rw [matchesFrom_of_some (hclaim ▸ hv), heq', hlen]
          rfl
      · simp only [not_exists] at hsome
        obtain ⟨ms, skip', hskip', heq, heq'⟩ := ih hlen' (.inl rfl) (Nat.zero_le _)
        refine ⟨ms, skip', hskip', ?_, ?_⟩
        · rw [matchesFrom_of_not_some hsome, heq]
        · rw [matchesFrom_of_not_some fun v n => hclaim ▸ hsome v n, heq']

/-- A search goes on after a stretch as if started there, but for what the last match of the stretch
takes of the text that follows. -/
theorem matchesFrom_stretch (t : Text) (skip : Nat) (before : Text) :
    ∃ ms left, matchesFrom p skip before (t ++ r) =
        ms ++ matchesFrom p left (t.reverse ++ before) r ∧
      (∀ m ∈ ms, before.length ≤ m.start ∧ m.start < before.length + t.length) ∧
      (left = 0 ∨ left + t.length = skip ∨ ∃ m ∈ ms, m.stop = before.length + t.length + left) := by
  induction t generalizing skip before with
  | nil => exact ⟨[], skip, rfl, by simp, .inr (.inl rfl)⟩
  | cons c t ih =>
    simp only [cons_append, reverse_cons, append_assoc, nil_append, length_cons]
    have hshift : (c :: before).length + t.length = before.length + (t.length + 1) := by
      rw [length_cons]
      omega
    -- the matches of the shorter stretch start in this one too
    have hstarts : ∀ ms : List (Match α), (∀ m ∈ ms, (c :: before).length ≤ m.start ∧
        m.start < (c :: before).length + t.length) →
        ∀ m ∈ ms, before.length ≤ m.start ∧ m.start < before.length + (t.length + 1) := by
      intro ms hms m hm
      have := hms m hm
      rw [hshift, length_cons] at this
      omega
    cases skip with
    | succ skip =>
      obtain ⟨ms, left, heq, hms, hleft⟩ := ih skip (c :: before)
      refine ⟨ms, left, by rw [matchesFrom_succ, heq], hstarts ms hms, ?_⟩
      rw [hshift] at hleft
      exact hleft.imp_right (Or.imp_left fun h => by omega)
    | zero =>
      by_cases hsome : ∃ v n, p.firstAt ⟨before, c :: (t ++ r)⟩ = some (v, n + 1)
      · obtain ⟨v, n, hv⟩ := hsome
        obtain ⟨ms, left, heq, hms, hleft⟩ := ih n (c :: before)
        refine ⟨_ :: ms, left, by rw [matchesFrom_of_some hv, heq]; rfl, fun m hm => ?_, ?_⟩
        · obtain rfl | hm := mem_cons.1 hm
          · simp
          · exact hstarts ms hms m hm
        · rw [hshift] at hleft
          obtain h | h | ⟨m, hm, h⟩ := hleft
          · exact .inl h
          · refine .inr (.inr ⟨_, mem_cons_self, ?_⟩)
            show before.length + (n + 1) = _
            omega
          · exact .inr (.inr ⟨m, mem_cons_of_mem _ hm, h⟩)
      · simp only [not_exists] at hsome
        obtain ⟨ms, left, heq, hms, hleft⟩ := ih 0 (c :: before)
        refine ⟨ms, left, by rw [matchesFrom_of_not_some hsome, heq], hstarts ms hms, ?_⟩
        rw [hshift] at hleft
        obtain h | h | h := hleft
        · exact .inl h
        · exact .inl (by omega)
        · exact .inr (.inr h)

/-- A match found from a place on is what the pattern reads where the match starts. -/
theorem mem_matchesFrom {m : Match α} (h : m ∈ matchesFrom p skip before after) :
    ∃ u v n, after = u ++ v ∧ m.start = before.length + u.length ∧ m.stop = m.start + (n + 1) ∧
      p.firstAt ⟨u.reverse ++ before, v⟩ = some (m.value, n + 1) := by
  induction after generalizing skip before with
  | nil => simp [matchesFrom_nil] at h
  | cons c after ih =>
    have hlater : ∀ {skip}, m ∈ matchesFrom p skip (c :: before) after →
        ∃ u v n, c :: after = u ++ v ∧ m.start = before.length + u.length ∧
          m.stop = m.start + (n + 1) ∧ p.firstAt ⟨u.reverse ++ before, v⟩ =
          some (m.value, n + 1) := by
      intro skip h
      obtain ⟨u, v, n, rfl, hstart, hstop, hv⟩ := ih h
      refine ⟨c :: u, v, n, rfl, ?_, hstop, by simpa using hv⟩
      rw [hstart, length_cons, length_cons]
      omega
    cases skip with
    | succ skip => exact hlater h
    | zero =>
      by_cases hsome : ∃ v n, p.firstAt ⟨before, c :: after⟩ = some (v, n + 1)
      · obtain ⟨v, n, hv⟩ := hsome
        rw [matchesFrom_of_some hv] at h
        obtain rfl | h := mem_cons.1 h
        · exact ⟨[], c :: after, n, rfl, rfl, rfl, hv⟩
        · exact hlater h
      · simp only [not_exists] at hsome
        rw [matchesFrom_of_not_some hsome] at h
        exact hlater h

/-- Whether a pattern reads something at a place of a text. -/
def readsAt (p : Pattern α) (t : Text) (i : Nat) : Bool :=
  (p.firstAt ⟨(t.take i).reverse, t.drop i⟩).any fun r => r.2 != 0

theorem readsAt_append (p : Pattern α) (before : Text) (u v : Text) :
    readsAt p (before.reverse ++ (u ++ v)) (before.length + u.length) =
      (p.firstAt ⟨u.reverse ++ before, v⟩).any fun r => r.2 != 0 := by
  have hlen : before.length + u.length = (before.reverse ++ u).length := by simp
  rw [readsAt, ← append_assoc, hlen, take_left, drop_left]
  simp

/-- A search may pass over characters at which it would read nothing. -/
theorem matchesFrom_skip (h : ∀ i < skip, readsAt p (before.reverse ++ after) (before.length + i) =
    false) :
    matchesFrom p skip before after = matchesFrom p 0 before after := by
  induction skip generalizing before after with
  | zero => rfl
  | succ skip ih =>
    cases after with
    | nil => rw [matchesFrom_nil, matchesFrom_nil]
    | cons c after =>
      have hnone := h 0 (Nat.succ_pos skip)
      rw [show before.reverse ++ c :: after = before.reverse ++ ([] ++ c :: after) from rfl,
        show before.length + 0 = before.length + ([] : Text).length from rfl, readsAt_append]
            at hnone
      rw [matchesFrom_succ, matchesFrom_of_not_some fun v n hv => by simp [hv] at hnone]
      refine ih fun i hi => ?_
      have := h (i + 1) (Nat.succ_lt_succ hi)
      simpa [Nat.add_assoc, Nat.add_comm 1] using this

/-! ## Two searches in lockstep -/

/-- No match that starts in a sealed region hides another one from the first code it covers on. -/
def HidesNothing (p : Pattern α) (t : Text) : Prop :=
  ∀ m ∈ p.findAll t, inCode t m.start = false →
    ∀ j < m.stop, ∀ i ≤ j, m.start ≤ i → inCode t i = true → readsAt p t j = false

instance (p : Pattern α) (t : Text) : Decidable (HidesNothing p t) :=
  inferInstanceAs (Decidable (∀ m ∈ p.findAll t, _ → _))

/-- The text after a comment is empty or starts with a line break that is code, or the comment ends
with a slash. -/
theorem after_comment (ht : isComment t = true) (h : Lexes before (.claimed () t :: ps) []) :
    ps = [] ∨ (∃ qs, ps = .char '\n' :: qs) ∨ t.getLast? = some '/' := by
  obtain ⟨⟨-, hsealed⟩, hps⟩ := h
  by_cases hnil : ps = []
  · exact .inl hnil
  · have hne := hps.spell_ne_nil hnil
    simp only [isComment, Text.startsWith, Bool.or_eq_true, isPrefixOf_iff_prefix] at ht
    obtain hline | hblock := ht
    · obtain ⟨q, qs, rfl⟩ := exists_cons_of_ne_nil hnil
      have hhead := hsealed.line_end hline
      cases q with
      | char c =>
        have hc : c = '\n' := by simpa using hhead
        exact .inr (.inl ⟨qs, by rw [hc]⟩)
      | claimed u s =>
        obtain ⟨x, hx, hcases⟩ := hps.1.2.head_cases
        simp only [spell_cons, Piece.text_claimed, append_nil] at hhead hx
        obtain hhead | hhead := hhead
        · simp [hhead] at hx
        · obtain rfl : '\n' = x := by simpa [hhead] using hx
          exact absurd hcases (by decide)
    · exact .inr (.inr (hsealed.block_end hblock (by simpa using hne)))

/-- The mask tells for each place whether it is code; the pieces stand at the place. -/
def MasksFrom (mask : List Bool) (place : Nat) (ps : List (Piece Unit)) : Prop :=
  mask.drop place = marks ps

theorem MasksFrom.getD (h : MasksFrom mask place ps) (i : Nat) :
    mask.getD (place + i) true = (marks ps).getD i true := by
  rw [← h, getD_eq_getElem?_getD, getD_eq_getElem?_getD, getElem?_drop]

theorem MasksFrom.getD_claimed {u : Unit} (h : MasksFrom mask place (.claimed u t :: ps)) {i : Nat}
    (hi : i < t.length) : mask.getD (place + i) true = false := by
  rw [h.getD, marks_claimed, getD_append _ _ _ _ (by simpa using hi)]
  simp [getD_eq_getElem?_getD, hi]

theorem MasksFrom.tail {q : Piece Unit} (h : MasksFrom mask before.length (q :: ps)) :
    MasksFrom mask (q.text.reverse ++ before).length ps := by
  have hdrop : (marks (q :: ps)).drop q.text.length = marks ps := by
    cases q with
    | char c => rfl
    | claimed u t =>
      rw [marks_claimed, Piece.text_claimed]
      exact drop_left' (by simp)
  rw [MasksFrom, ← hdrop, ← h, drop_drop, length_append, length_reverse, Nat.add_comm]

/-- No match found from a place on that starts in a sealed region hides another one. -/
def HidesNothingFrom (p : Pattern α) (mask : List Bool) (t : Text) (ms : List (Match α)) : Prop :=
  ∀ m ∈ ms, mask.getD m.start true = false →
    ∀ j < m.stop, ∀ i ≤ j, m.start ≤ i → mask.getD i true = true → readsAt p t j = false

/-- A match that starts in a comment ends in it, or goes on over the line break behind it. -/
theorem stop_le_of_comment (hstop : StopsAt '/' p) (ht : isComment t = true)
    (hlex : Lexes before (.claimed () t :: ps) []) {m : Match α}
    (hm : m ∈ matchesFrom p 0 before (t ++ spell ps))
    (hstart : m.start < before.length + t.length) :
    m.stop ≤ before.length + t.length ∨ ∃ qs, ps = .char '\n' :: qs := by
  obtain ⟨u, v, n, happ, hu, hm', hv⟩ := mem_matchesFrom hm
  have hreach : n + 1 ≤ (v.beforeFirst '/').length :=
    (hstop _ _ ⟨rfl, rfl, rfl⟩).2 (m.value, n + 1) (mem_of_mem_head? hv)
  have hle : (v.beforeFirst '/').length ≤ v.length := (takeWhile_sublist _).length_le
  obtain ⟨w, rfl, rfl⟩ := SealedAt.exists_append_of_le happ (by omega)
  rw [length_append] at hstart ⊢
  obtain rfl | hbreak | hlast := after_comment ht hlex
  · simp only [spell_nil, append_nil] at hle hreach
    exact .inl (by omega)
  · exact .inr hbreak
  · -- the slash that ends the comment stops the match
    left
    have hw : w ≠ [] := by
      rintro rfl
      rw [length_nil] at hstart
      omega
    rw [getLast?_append_of_ne_nil _ hw] at hlast
    have hslash : '/' ∈ w := mem_of_getLast? hlast
    have hshort : ((w ++ spell ps).beforeFirst '/').length ≤ w.length := by
      rw [Text.beforeFirst, takeWhile_append, if_neg]
      · exact (takeWhile_sublist _).length_le
      · intro hlen
        have hall := (SealedAt.takeWhile_append_eq (r := []) (by rw [append_nil]; exact hlen)).1
        exact absurd (hall '/' hslash) (by decide)
    omega

theorem filter_eq_nil_of_comment (hmask : MasksFrom mask before.length (.claimed () t :: ps))
    {ms : List (Match α)}
    (hms : ∀ m ∈ ms, before.length ≤ m.start ∧ m.start < before.length + t.length) :
    ms.filter (fun m => mask.getD m.start true) = [] := by
  rw [filter_eq_nil_iff]
  intro m hm
  obtain ⟨hle, hlt⟩ := hms m hm
  obtain ⟨i, hi⟩ := Nat.exists_eq_add_of_le hle
  rw [hi, hmask.getD_claimed (by omega)]
  exact Bool.false_ne_true

/-- A search finds nothing in code inside a comment, and goes on after it as if started there. -/
theorem filter_matchesFrom_comment (hstop : StopsAt '/' p) (ht : isComment t = true)
    (hlex : Lexes before (.claimed () t :: ps) [])
    (hmask : MasksFrom mask before.length (.claimed () t :: ps))
    (hhides : HidesNothingFrom p mask (before.reverse ++ (t ++ spell ps))
      (matchesFrom p 0 before (t ++ spell ps))) :
    ∃ ms, matchesFrom p 0 before (t ++ spell ps) = ms ++ matchesFrom p 0 (t.reverse ++ before)
      (spell ps) ∧
      ms.filter (fun m => mask.getD m.start true) = [] := by
  obtain ⟨ms, left, heq, hms, hleft⟩ := matchesFrom_stretch t 0 before (r := spell ps)
  have hfilter := filter_eq_nil_of_comment hmask hms
  suffices hskip : matchesFrom p left (t.reverse ++ before) (spell ps) =
      matchesFrom p 0 (t.reverse ++ before) (spell ps) from ⟨ms, heq.trans (by rw [hskip]), hfilter⟩
  obtain rfl | hleft | ⟨m, hm, hend⟩ := hleft
  · rfl
  · obtain rfl : left = 0 := by omega
    rfl
  · have hmem : m ∈ matchesFrom p 0 before (t ++ spell ps) := heq ▸ mem_append_left _ hm
    obtain ⟨hlow, hhigh⟩ := hms m hm
    obtain hle | ⟨qs, rfl⟩ := stop_le_of_comment hstop ht hlex hmem hhigh
    · obtain rfl : left = 0 := by omega
      rfl
    · -- the line break after the comment is code
      have hsealed : mask.getD m.start true = false := by
        obtain ⟨i, hi⟩ := Nat.exists_eq_add_of_le hlow
        rw [hi]
        exact hmask.getD_claimed (by omega)
      have hcode : mask.getD (before.length + t.length) true = true := by
        rw [hmask.getD, marks_claimed, getD_append_right _ _ _ _ (by simp)]
        simp
      refine matchesFrom_skip fun i hi => ?_
      have hnone := hhides m hmem hsealed (before.length + t.length + i) (by omega)
        (before.length + t.length) (by omega) (by omega) hcode
      simpa [Nat.add_comm t.length] using hnone

/-- After two comments that are alike, the searches stand alike: the same character is before them,
or no word follows. -/
theorem prev_of_comments (ht : isComment t = true) (ht' : isComment t' = true)
    (hlex : Lexes before (.claimed () t :: ps) [])
    (hlex' : Lexes before' (.claimed () t' :: ps') [])
    (h : Forall₂ AlikePiece ps ps') :
    (t.reverse ++ before).head? = (t'.reverse ++ before').head? ∨ (spell ps).head?.any isWord =
    false := by
  have hbreak : isWord '\n' = false := by decide
  obtain rfl | ⟨qs, rfl⟩ | hlast := after_comment ht hlex
  · exact .inr rfl
  · exact .inr (by simpa using hbreak)
  · obtain rfl | ⟨qs, rfl⟩ | hlast' := after_comment ht' hlex'
    · cases h
      exact .inr rfl
    · obtain ⟨q, qs', hq, -, rfl⟩ := forall₂_cons_right_iff.1 h
      cases hq
      exact .inr (by simpa using hbreak)
    · left
      rw [head?_append, head?_append, head?_reverse, head?_reverse, hlast, hlast']
      rfl

/-- Two searches over alike pieces find the same matches in code. -/
theorem filter_matchesFrom_congr (hstop : StopsAt '/' p) (hword : StartsWithWord p)
    {mask : List Bool} {ps ps' : List (Piece Unit)} (h : Forall₂ AlikePiece ps ps') {skip : Nat}
    {before before' : Text} (hlen : before.length = before'.length)
    (hprev : before.head? = before'.head? ∨ (spell ps).head?.any isWord = false)
    (hskip : skip ≤ ((spell ps).beforeFirst '/').length) (hlex : Lexes before ps [])
    (hlex' : Lexes before' ps' []) (hmask : MasksFrom mask before.length ps)
    (hhides : HidesNothingFrom p mask (before.reverse ++ spell ps)
      (matchesFrom p skip before (spell ps)))
    (hhides' : HidesNothingFrom p mask (before'.reverse ++ spell ps')
      (matchesFrom p skip before' (spell ps'))) :
    (matchesFrom p skip before (spell ps)).filter (fun m => mask.getD m.start true) =
      (matchesFrom p skip before' (spell ps')).filter (fun m => mask.getD m.start true) := by
  induction h generalizing skip before before' with
  | nil => rw [spell_nil, matchesFrom_nil, matchesFrom_nil]
  | @cons q q' ps ps' hq hps ih =>
    have hmask' := hmask.tail
    have hrlen := length_spell_of_alike hps
    have hwhole : ∀ (before : Text) (q : Piece Unit) (ps : List (Piece Unit)),
        (q.text.reverse ++ before).reverse ++ spell ps =
        before.reverse ++ (q.text ++ spell ps) := by
      simp
    rw [spell_cons] at hprev hskip hhides
    rw [spell_cons] at hhides'
    rw [spell_cons, spell_cons]
    cases hq with
    | same q =>
      obtain ⟨ms, skip', hskip', heq, heq'⟩ := matchesFrom_common hstop hword
        (beforeFirst_of_alike hps) hrlen q.text hlen hprev hskip
      rw [heq, ← hwhole] at hhides
      rw [heq', ← hwhole] at hhides'
      rw [heq, heq', filter_append, filter_append]
      congr 1
      have hne : q.text ≠ [] := by
        cases q with
        | char c => simp
        | claimed u t => exact hlex.1.1
      refine ih (by simp [hlen]) (.inl ?_) hskip' hlex.2 hlex'.2 hmask'
        (fun m hm => hhides m (mem_append_right ms hm))
        (fun m hm => hhides' m (mem_append_right ms hm))
      simp [head?_append, head?_reverse, getLast?_eq_some_getLast hne]
    | @comment t t' ht ht' htlen =>
      have hmaskc' : MasksFrom mask before'.length (.claimed () t' :: ps') := by
        have hmarks := marks_of_alike (.cons (.comment ht ht' htlen) hps)
        rw [MasksFrom, ← hlen, hmask, hmarks]
      have hwholet := hwhole before (.claimed () t) ps
      have hwholet' := hwhole before' (.claimed () t') ps'
      simp only [Piece.text_claimed] at hprev hskip hhides hhides' hwholet hwholet' ⊢
      obtain rfl : skip = 0 := by
        rw [beforeFirst_of_isComment ht] at hskip
        exact Nat.le_zero.1 hskip
      obtain ⟨ms, heq, hms⟩ := filter_matchesFrom_comment hstop ht hlex hmask hhides
      obtain ⟨ms', heq', hms'⟩ := filter_matchesFrom_comment hstop ht' hlex' hmaskc' hhides'
      rw [heq, ← hwholet] at hhides
      rw [heq', ← hwholet'] at hhides'
      rw [heq, heq', filter_append, filter_append, hms, hms']
      congr 1
      exact ih (by simp [hlen, htlen]) (prev_of_comments ht ht' hlex hlex' hps) (Nat.zero_le _)
        hlex.2 hlex'.2 hmask' (fun m hm => hhides m (mem_append_right ms hm))
        (fun m hm => hhides' m (mem_append_right ms' hm))

/-- Two texts that are alike but for comments have the same matches in code, if no match that starts
in a comment hides another one. -/
theorem findAll_congr (hstop : StopsAt '/' p) (hword : StartsWithWord p) (h : AlikeButComments t t')
    (ht : HidesNothing p t) (ht' : HidesNothing p t') :
    findAll p t = findAll p t' := by
  have halike := alikeButComments_iff.1 h
  have hmask : codeMask t = codeMask t' := marks_of_alike halike
  have hcongr := @filter_matchesFrom_congr α p hstop hword (codeMask t) _ _ halike 0 [] [] rfl
    (.inl rfl) (Nat.zero_le _) (lexes_pieces t) (lexes_pieces t') rfl
  rw [spell_pieces, spell_pieces] at hcongr
  simp only [findAll, findAll_eq_matchesFrom, ← hmask]
  refine hcongr ht ?_
  intro m hm
  rw [hmask]
  exact ht' m hm

end AnchorLowering.Source
