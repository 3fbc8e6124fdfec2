import AnchorLowering.Proofs.NestedContext
import Mathlib.Data.List.Infix

/-!
# What collapsing blanks keeps

Collapsing blanks rewrites the code of a text and leaves its comments and literals. It does not see
that a blank may end a comment, or keep a quote from opening a literal, so the result may be cut
otherwise when it is read again. Three things are in the way: a line comment, whose line break
becomes a space; a literal or comment that is left open, whose last blanks are trimmed; and a quote
in code with a blank after it. Without these (`Collapsible`) a text keeps its comments and literals
and the other characters of its code, all in order (`solidItems_collapseBlanks`).
-/

namespace AnchorLowering.Source

open List Pattern Lowering

variable {s w : Text} {x : Char} {ps : List (Piece Unit)}

/-! ## Items of a text -/

/-- The comments and literals of a text and the characters of its code, in order, without the blanks
of the code. -/
def solidItems (t : Text) : List (Piece Unit) :=
  ((segments t).flatMap Segment.pieces).filter fun p => !isGap p

/-- A quote, of a character or a byte, with a blank or a backslash after it. -/
def opensOnBlank (t : Text) : Bool :=
  [['\''], ['b', '\'']].any fun mark =>
    mark.isPrefixOf t && (t.drop mark.length).head?.any fun x => isBlank x || x == '\\'

/-- What a text has to be like for its blanks to be collapsed without harm. -/
@[mk_iff]
structure Collapsible (t : Text) : Prop where
  closed : Closed t
  no_line_comment : ∀ p ∈ Text.pieces sealedClaim t, isLineComment p = false
  quotes : ∀ ps ∈ (Text.pieces sealedClaim t).tails,
    (∀ p ∈ ps.head?, p.value? = none) → opensOnBlank (spell ps) = false

theorem filter_chars {g : Text} (hg : Blank g) : (chars g).filter (fun p => !isGap p) = [] := by
  simpa [chars, isGap] using hg

/-! ## Collapsing run by run -/

/-- Some runs of blanks in the code are written as one space. -/
inductive Collapsed : List (Piece Unit) → List (Piece Unit) → Prop where
  | nil : Collapsed [] []
  | keep (p : Piece Unit) {ps qs : List (Piece Unit)} (h : Collapsed ps qs) :
      Collapsed (p :: ps) (p :: qs)
  | run {g : Text} (hne : g ≠ []) (hg : ∀ x ∈ g, isBlank x = true) {ps qs : List (Piece Unit)}
    (h : Collapsed ps qs) :
    Collapsed (chars g ++ ps) (.char ' ' :: qs)

namespace Collapsed

variable {ps qs ps' qs' : List (Piece Unit)}

theorem refl (ps : List (Piece Unit)) : Collapsed ps ps := by
  induction ps with
  | nil => exact .nil
  | cons p ps ih => exact .keep p ih

theorem append (h : Collapsed ps qs) (h' : Collapsed ps' qs') :
    Collapsed (ps ++ ps') (qs ++ qs') := by
  induction h with
  | nil => exact h'
  | keep p _ ih => exact .keep p ih
  | run hne hg _ ih => simpa using Collapsed.run hne hg ih

theorem filter_eq (h : Collapsed ps qs) :
    (qs.filter fun p => !isGap p) = ps.filter fun p => !isGap p := by
  induction h with
  | nil => rfl
  | keep p _ ih => simp only [filter_cons, ih]
  | @run g _ hg ps _ _ ih =>
    rw [filter_append, filter_chars hg, ← ih]
    rfl

theorem spell_cases (h : Collapsed ps qs) : spell qs = spell ps ∨
    ∃ a x v w, spell ps = a ++ x :: v ∧ isBlank x = true ∧ spell qs = a ++ ' ' :: w := by
  induction h with
  | nil => exact .inl rfl
  | keep p _ ih =>
    obtain heq | ⟨a, x, v, w, hps, hx, hqs⟩ := ih
    · exact .inl (by simp [heq])
    · exact .inr ⟨p.text ++ a, x, v, w, by simp [hps], hx, by simp [hqs]⟩
  | @run g hne hg ps qs _ _ =>
    obtain ⟨x, g, rfl⟩ := exists_cons_of_ne_nil hne
    exact .inr ⟨[], x, g ++ spell ps, spell qs, by simp, hg x (by simp), by simp⟩

end Collapsed

theorem collapsed_replacedFrom (before t : Text) :
    Collapsed (chars t) (chars (replacedFrom oneBlank before t)) := by
  have hbounded : Bounded oneBlank :=
    fun c r hr => ⟨(keepsBrackets_oneBlank c r hr).1, fun _ _ => trivial⟩
  induction hn : t.length using Nat.strongRecOn generalizing before t with
  | ind n ih =>
  cases t with
  | nil => simpa [replacedFrom_nil] using Collapsed.nil
  | cons x t =>
    obtain ⟨v, u, rest, heq, hne, -, hway, hreplaced⟩ | hreplaced :=
      replacedFrom_cases hbounded before x t
    · have hrest : rest.length < n := by
        have := congrArg List.length heq
        have := length_pos_iff.2 hne
        simp at *; omega
      simp only [oneBlank, blanks1, way_bind, way_many1, way_pure] at hway
      obtain ⟨-, g, w, rfl, ⟨hgne, hg⟩, rfl, rfl⟩ := hway
      rw [append_nil] at heq hreplaced
      rw [hreplaced, heq]
      simpa using Collapsed.run hgne hg (ih rest.length hrest _ _ rfl)
    · rw [hreplaced]
      exact .keep (.char x) (ih t.length (by simp at hn; omega) _ _ rfl)

theorem exists_collapsed (t : Text) :
    ∃ qs, Collapsed (Text.pieces sealedClaim t) qs ∧ spell qs = replaceInCode oneBlank t := by
  refine ⟨((segments t).map (Segment.mapCode oneBlank.replaceAll)).flatMap Segment.pieces, ?_, ?_⟩
  · rw [← flatMap_segments]
    induction segments t with
    | nil => exact .nil
    | cons s ss ih =>
      refine Collapsed.append ?_ ih
      unfold Segment.mapCode Segment.pieces
      split
      · exact collapsed_replacedFrom [] s.text
      · exact .refl _
  · rw [spell_flatMap_pieces, replaceInCode, mapCode_eq_flatMap]

/-! ## Reading the collapsed text -/

theorem exists_append_of_not_mem (opening : Text) {rest : Text} (h : s ++ x :: w = opening ++ rest)
    (hx : x ∉ opening) : ∃ s', s = opening ++ s' := by
  obtain ⟨a, rfl, -⟩ | ⟨a, rfl, hrest⟩ := append_eq_append_iff.1 h
  · cases a <;> simp_all
  · exact ⟨a, rfl⟩

/-- A region that starts before a space starts there whatever blank stands in its place. -/
theorem SealedAt.of_space {before v : Text} {n : Nat} (h : SealedAt before (s ++ ' ' :: w) n)
    (hx : isBlank x = true) (hquote : opensOnBlank (s ++ x :: v) = false) :
    ∃ m, SealedAt before (s ++ x :: v) m := by
  generalize ht : s ++ ' ' :: w = t at h
  cases h with
  | line =>
    obtain ⟨s', rfl⟩ := exists_append_of_not_mem "//".toList ht (by decide)
    exact ⟨_, .line⟩
  | block =>
    obtain ⟨s', rfl⟩ := exists_append_of_not_mem "/*".toList ht (by decide)
    exact ⟨_, .block⟩
  | @string mark rest hmark =>
    obtain ⟨s', rfl⟩ := exists_append_of_not_mem (mark ++ ['"']) (by simpa using ht)
      (by rcases hmark with rfl | ⟨rfl, -⟩ <;> decide)
    exact ⟨_, by simpa using SealedAt.string hmark⟩
  | @char mark body rest hmark hbody =>
    by_cases hspace : ' ' ∈ body
    · -- the literal is a blank or an escaped one, so its quote is one that opens on a blank
      obtain ⟨y, body', rfl, hy⟩ : ∃ y body', body = y :: body' ∧ (isBlank y || y == '\\') =
          true := by
        cases hbody with
        | plain h => exact ⟨' ', [], by rw [mem_singleton.1 hspace], by decide⟩
        | escaped h => exact ⟨_, _, rfl, rfl⟩
        | hex hx hy => exact ⟨_, _, rfl, rfl⟩
        | unicode hne hlen h => exact ⟨_, _, rfl, rfl⟩
      obtain ⟨s', rfl⟩ := exists_append_of_not_mem (mark ++ ['\'']) (by simpa using ht)
        (by rcases hmark with rfl | ⟨rfl, -⟩ <;> decide)
      obtain ⟨z, more, hz, hblank⟩ : ∃ z more, s' ++ x :: v = z :: more ∧
          (isBlank z || z == '\\') = true := by
        cases s' with
        | nil => exact ⟨x, v, rfl, by rw [hx]; rfl⟩
        | cons z s' => exact ⟨z, _, rfl, by simp_all⟩
      rw [append_assoc, hz] at hquote
      rcases hmark with rfl | ⟨rfl, -⟩ <;> simp [opensOnBlank, hblank] at hquote
    · obtain ⟨s', rfl⟩ :=
        exists_append_of_not_mem (mark ++ '\'' :: (body ++ ['\''])) (by simpa using ht)
        (by rcases hmark with rfl | ⟨rfl, -⟩ <;> simpa using hspace)
      exact ⟨_, by simpa using SealedAt.char hmark hbody⟩
  | @raw mark rest hashes hmark hfresh =>
    obtain ⟨s', rfl⟩ := exists_append_of_not_mem (mark ++ 'r' :: (replicate hashes '#' ++ ['"']))
      (by simpa using ht) (by rcases hmark with rfl | rfl <;> simp)
    exact ⟨_, by simpa using SealedAt.raw hmark hfresh⟩

/-- The collapsed pieces are read as they stand, if no line comment is among them and no quote opens
on a blank. -/
theorem Collapsed.lexes {qs : List (Piece Unit)} (h : Collapsed ps qs) {before before' rest : Text}
    (hlex : Lexes before ps rest) (hfresh : before.head?.any isWord = before'.head?.any isWord)
    (hline : ∀ p ∈ ps, isLineComment p = false)
    (hquote : ∀ b, b <:+ ps → (∀ p ∈ b.head?, p.value? = none) → opensOnBlank (spell b ++ rest) =
      false) :
    Lexes before' qs rest := by
  induction h generalizing before before' with
  | nil => trivial
  | @run g hne hg ps qs h ih =>
    refine ⟨(show Plain [' '] by decide).not_sealedAt (cons_ne_nil _ _), ih
      (lexes_append.1 hlex).2 ?_
      (fun p hp => hline p (by simp [hp])) fun b hb => hquote b (hb.trans (suffix_append _ _))⟩
    have hlast := (opening_blanks hg hne).last
    rw [getLast?_eq_some_getLast hne] at hlast
    rw [spell_chars, head?_append, head?_reverse, getLast?_eq_some_getLast hne]
    exact hlast
  | @keep p ps qs h ih =>
    have hnoLine : ∀ e u, p = .claimed e u → ¬ "//".toList <+: u := fun e u hp hu => by
      have hp' := hline p (by simp)
      rw [hp, isLineComment, Text.startsWith, isPrefixOf_iff_prefix.2 hu] at hp'
      cases hp'
    have hp : Lexes before' [p] (spell ps ++ rest) :=
      (show Lexes before [p] _ from ⟨hlex.1, trivial⟩).transfer hfresh id
        (fun e u hlast hu => absurd hu (hnoLine e u (by simpa using hlast))) fun _ => .inl rfl
    refine ⟨?_, ih hlex.2 ?_ (fun p hp => hline p (by simp [hp])) fun b hb =>
      hquote b (hb.trans (suffix_cons _ _))⟩
    · obtain heq | ⟨a, x, v, w, hps, hx, hqs⟩ := h.spell_cases
      · rw [heq]
        exact hp.1
      · cases p with
        | char c =>
          intro n hsealed
          have hquote := hquote (.char c :: ps) suffix_rfl (by simp [Piece.value?])
          simp only [spell_cons, Piece.text_char, hps, append_assoc, cons_append, nil_append]
            at hquote
          rw [hqs, append_assoc] at hsealed
          obtain ⟨m, hm⟩ := SealedAt.of_space (s := c :: a) (v := v ++ rest) hsealed hx hquote
          exact hp.1 m (by simpa [hps] using hm)
        | claimed e u =>
          have hne : spell ps ++ rest ≠ [] := by simp [hps]
          exact ⟨hp.1.1, (hp.1.2.closed hne).2 _ fun hu => absurd hu (hnoLine e u rfl)⟩
    · have hne : p.text.reverse ≠ [] := by simpa using hp.spell_ne_nil (by simp)
      obtain ⟨x, u, hu⟩ := exists_cons_of_ne_nil hne
      rw [hu]
      rfl

/-! ## Trimming -/

theorem opensOnBlank_append (u : Text) : opensOnBlank (u ++ [';']) = opensOnBlank u := by
  have hmark : isBlank ';' = false := by decide
  rcases u with _ | ⟨a, _ | ⟨b, _ | ⟨c, u⟩⟩⟩ <;> simp [opensOnBlank, List.isPrefixOf, hmark]

theorem Trimmed.filter_eq (trimmed : Trimmed ps) :
    (trimmed.solid.filter fun p => !isGap p) = ps.filter fun p => !isGap p := by
  obtain ⟨b, qs, b', rfl, hb, hb', -, -⟩ := trimmed
  simp [filter_append, filter_chars hb, filter_chars hb']

theorem Collapsible.exists_pieces {t : Text} (h : Collapsible t) :
    ∃ ps, Collapsed (Text.pieces sealedClaim t) ps ∧
    ∃ trimmed : Trimmed ps, Text.pieces sealedClaim (collapseBlanks t) = trimmed.solid := by
  obtain ⟨ps, hps, hspell⟩ := exists_collapsed t
  have hlex : Lexes [] ps [';'] :=
    hps.lexes (h.closed.lexes rfl (.mark (by decide) (by simp))) rfl h.no_line_comment
    fun b hb hcode => by rw [opensOnBlank_append]; exact h.quotes b ((mem_tails b _).2 hb) hcode
  have hline : ∀ p ∈ ps, isLineComment p = false := fun p hp => by
    cases hgap : isGap p with
    | true => cases p <;> first | rfl | cases hgap
    | false =>
      have hmem : p ∈ ps.filter fun p => !isGap p := by simp [hp, hgap]
      rw [hps.filter_eq] at hmem
      exact h.no_line_comment p (mem_filter.1 hmem).1
  obtain ⟨trimmed⟩ := exists_trimmed ps
  have hlast : trimmed.solid.getLast?.any isLineComment = false := by
    cases hlast : trimmed.solid.getLast? with
    | none => rfl
    | some p => exact hline p (by rw [trimmed.pieces_eq]; simp [mem_of_getLast? hlast])
  have htrim : spell trimmed.solid = collapseBlanks t := by
    rw [← trim_spell hlex (by simp) trimmed hlast, hspell]
    rfl
  refine ⟨ps, hps, trimmed, pieces_eq_iff.2 ⟨htrim, ?_⟩⟩
  rw [trimmed.pieces_eq, append_assoc, lexes_append, lexes_append] at hlex
  refine lexes_alone hlex.2.1 ?_
  by_cases hleft : trimmed.left = []
  · simp [hleft]
  · simpa using (opening_blanks trimmed.left_blank hleft).last

/-- **Collapsing blanks changes nothing but blanks of the code.** -/
theorem solidItems_collapseBlanks {t : Text} (h : Collapsible t) :
    solidItems (collapseBlanks t) = solidItems t := by
  obtain ⟨ps, hps, trimmed, hpieces⟩ := h.exists_pieces
  rw [solidItems, solidItems, flatMap_segments, flatMap_segments, hpieces, trimmed.filter_eq,
    hps.filter_eq]

instance (t : Text) : Decidable (Collapsible t) := decidable_of_iff _ (collapsible_iff ..).symm

/-- A block comment, a literal with blanks and a lifetime stand among the blanks of a call. -/
theorem solidItems_collapseBlanks_call :
    Collapsible "f( &'a  x,\n /* u\n */ \"p  q\")" ∧
      collapseBlanks "f( &'a  x,\n /* u\n */ \"p  q\")" = "f( &'a x, /* u\n */ \"p  q\")".toList ∧
      solidItems "f( &'a x, /* u\n */ \"p  q\")" = solidItems "f( &'a  x,\n /* u\n */ \"p  q\")" :=
  ⟨by decide, by decide, solidItems_collapseBlanks (t := "f( &'a  x,\n /* u\n */ \"p  q\")") (by
    decide)⟩

/-- Each condition is needed: a line comment takes in the code after it, two quotes around a line
break become a literal, and a literal left open loses its last blank. -/
theorem collapseBlanks_changes_items :
    (solidItems "a // c\nb" = [.char 'a', .claimed () "// c", .char 'b'] ∧
      solidItems (collapseBlanks "a // c\nb") = [.char 'a', .claimed () "// c b"]) ∧
    (solidItems "'\n'" = [.char '\'', .char '\''] ∧ solidItems (collapseBlanks "'\n'") =
      [.claimed () "' '"]) ∧
    solidItems "\"a " = [.claimed () "\"a "] ∧ solidItems (collapseBlanks "\"a ") =
    [.claimed () "\"a"] :=
  ⟨⟨rfl, rfl⟩, ⟨rfl, rfl⟩, rfl, rfl⟩

end AnchorLowering.Source
