import AnchorLowering.Proofs.StatementDraft

/-!
# Statements in nested code

The layout step keeps the brackets of the code: cutting a body into drafts drops nothing but blanks,
the rules for spaces keep brackets, and the lines are joined by line breaks. So nested code is laid
out as nested code (`nested_layOut`), if each statement is read as the pieces that it was collected
from, also when its spaces are set, and nothing forms where a line break joins two lines.
-/

namespace AnchorLowering

open List Pattern Source

variable {body t : Text}

namespace Lowering

/-! ## Spaces -/

theorem takesNoBracket_callableName :
    callableName.Ensures fun t u => brackets u = [] ∧ brackets t = [] :=
  TakesNoBracket.wordBoundary.ensures.bind fun _ _ hu => TakesNoBracket.notAhead.ensures.bind
    fun _ _ hv =>
    TakesNoBracket.word.capture.mono fun _ _ hw =>
      ⟨by rw [brackets_append, brackets_append, hu, hv, hw.1]; rfl, hw.2⟩

theorem keepsBrackets_unaryMark {mark : Char} (hmark : isBracket mark = false)
    (starts : Char → Bool) :
    KeepsBrackets (unaryMark mark starts) := by
  have hbrackets : brackets [mark] = [] := brackets_eq_nil (by simpa using hmark)
  refine .pass TakesNoBracket.behind fun _ => .note TakesNoBracket.blanks.capture fun gap hgap =>
    .pass (TakesNoBracket.lit hbrackets) fun _ => .pass TakesNoBracket.blanks1 fun _ =>
      .pass TakesNoBracket.ahead fun _ =>
    .pure (.of_brackets_eq ?_) trivial
  rw [id_eq, brackets_append, hgap, hbrackets]
  rfl

theorem keepsBrackets_spacingRules : ∀ rule ∈ spacingRules, KeepsBrackets rule := by
  simp only [spacingRules, forall_mem_cons]
  refine ⟨?_, ?_, ?_, ?_, ?_, ?_, ?_, ?_, ?_, keepsBrackets_unaryMark (by decide) _,
    keepsBrackets_unaryMark (by decide) _, fun _ hmem => nomatch hmem⟩
  · exact .pass TakesNoBracket.blanks1 fun _ => .pure (.of_brackets_eq rfl) trivial
  · exact .pass (TakesNoBracket.spaced rfl) fun _ => .pure (.of_brackets_eq rfl) trivial
  · exact .pass TakesNoBracket.behind fun _ => .pass (TakesNoBracket.spaced rfl) fun _ =>
      .pass TakesNoBracket.ahead fun _ =>
      .pure (.of_brackets_eq rfl) trivial
  · refine .read Ensures.one fun opener u hu => .pass TakesNoBracket.blanks1 fun _ =>
      .pure (.of_brackets_eq ?_) trivial
    rw [hu.1]
    rfl
  · refine .pass TakesNoBracket.blanks1 fun _ => .read Ensures.one fun mark u hu =>
      .pure (.of_brackets_eq ?_) trivial
    rw [hu.1]
    rfl
  · refine .note takesNoBracket_callableName fun name hname => .pass TakesNoBracket.blanks1 fun _ =>
      .pass (TakesNoBracket.lit rfl) fun _ => .pass TakesNoBracket.blanks fun _ =>
        .pass TakesNoBracket.ahead fun _ =>
      .pure (.of_brackets_eq ?_) trivial
    rw [id_eq, brackets_append, hname]
    rfl
  · exact .pass TakesNoBracket.behind fun _ => .pass (TakesNoBracket.lit rfl) fun _ =>
      .pass TakesNoBracket.blanks1 fun _ =>
      .pass TakesNoBracket.ahead fun _ => .pure (.of_brackets_eq rfl) trivial
  · refine .note takesNoBracket_callableName fun name hname => .pass TakesNoBracket.blanks1 fun _ =>
      .pass TakesNoBracket.ahead fun _ => .pure (.of_brackets_eq ?_) trivial
    rw [id_eq, hname]
    rfl
  · exact .pass (TakesNoBracket.lit rfl) fun _ => .pass TakesNoBracket.blanks1 fun _ =>
      .pass (TakesNoBracket.lit rfl) fun _ =>
      .pass TakesNoBracket.wordBoundary fun _ => .pure (.of_brackets_eq rfl) trivial

theorem sameBrackets_spaceCode (code : Text) : SameBrackets code (spaceCode code) := by
  have hrules := keepsBrackets_spacingRules
  rw [spaceCode]
  generalize spacingRules = rules at hrules
  induction rules generalizing code with
  | nil => exact .refl _
  | cons rule rules ih =>
    have hfirst := sameBrackets_replaceAll (hrules rule mem_cons_self) code
    exact hfirst.trans (ih _ fun rule hrule => hrules rule (mem_cons_of_mem _ hrule))

/-! ## Drafts -/

/-- The code of a draft. -/
def Draft.code : Draft → Text
  | .statement ps => codeText (markedPieces ps)
  | .comment _ => []

theorem codeText_markedPieces_reverse_cons (c : Char) (parts : List (Piece Unit)) :
    codeText (markedPieces (Piece.char c :: parts).reverse) =
    codeText (markedPieces parts.reverse) ++ [c] := by
  rw [reverse_cons, markedPieces_append, codeText_append]
  rfl

/-- Text of which nothing is left without its blanks is blank. -/
theorem isBlank_of_trim (h : (Text.trim t).isEmpty = true) : Blank t := by
  obtain ⟨b, b', ht, hb, hb', -⟩ := exists_trim t
  rw [List.isEmpty_iff.1 h] at ht
  intro x hx
  rw [ht] at hx
  exact (mem_append.1 hx).elim (hb x) (hb' x)

/-- **Cutting a body into drafts keeps the brackets of its code.** -/
theorem brackets_cutDrafts (parts : List (Piece Unit)) (depth : Nat) (ps : List (Piece Unit)) :
    brackets ((cutDrafts parts depth ps).flatMap Draft.code) =
      brackets (codeText (markedPieces parts.reverse) ++ codeText (markedPieces ps)) := by
  fun_induction cutDrafts parts depth ps with
  | case1 parts depth => simp [Draft.code, markedPieces]
  | case2 parts depth e t rest hcomment ih =>
    -- what was collected before the comment is blank
    have hblank := isBlank_of_trim (Bool.and_eq_true_iff.1 hcomment).2
    have hparts : brackets (codeText (markedPieces parts.reverse)) = [] :=
      brackets_codeText (by rw [map_fst_markedPieces, brackets_of_blank hblank])
    rw [flatMap_cons, brackets_append, ih, markedPieces_claimed, brackets_append, brackets_append,
      codeText_append, codeText_map_sealed, hparts]
    rfl
  | case3 parts depth e t rest hcomment ih =>
    rw [ih, reverse_cons, markedPieces_append, markedPieces_claimed, markedPieces_claimed,
      codeText_append, codeText_append, codeText_append, codeText_map_sealed, codeText_map_sealed]
    simp [markedPieces]
  | case4 parts depth c rest _ _ ih
  | case6 parts depth c rest _ _ _ _ _ ih
  | case8 parts depth c rest _ _ _ _ ih =>
    rw [ih, codeText_markedPieces_reverse_cons, markedPieces_char, codeText_code, append_assoc]
    rfl
  | case5 parts depth c rest _ _ _ _ _ ih | case7 parts depth c rest _ _ _ _ ih =>
    rw [flatMap_cons, brackets_append, ih, Draft.code, codeText_markedPieces_reverse_cons,
      markedPieces_char, codeText_code, ← brackets_append]
    simp [markedPieces]

/-- A statement is read as the pieces that it was collected from, also when its spaces are set, and
leaves nothing open. -/
def Draft.Clean : Draft → Prop
  | .statement ps =>
    marked (spell ps) = markedPieces ps ∧ Recodes spaceCode (spell ps) ∧
    Closed (normalizeSpacing (spell ps))
  | .comment _ => True

instance : (d : Draft) → Decidable d.Clean
  | .statement _ => inferInstanceAs (Decidable (_ ∧ _))
  | .comment _ => isTrue trivial

/-- The code of a text and that of the text without the blanks around it ask for the same
closers. -/
theorem sameBrackets_trim (hclosed : Closed (Text.trim t)) :
    SameBrackets (codeText (marked t)) (codeText (marked (Text.trim t))) := by
  obtain ⟨g, g', ht, hg, hg', -⟩ := exists_trim t
  have hcode := codeText_between hclosed (opening_blanks hg) (ending_blanks hg')
  rw [← ht] at hcode
  rw [hcode]
  refine .of_brackets_eq ?_
  rw [brackets_append, brackets_append, brackets_of_blank hg, brackets_of_blank hg', nil_append,
    append_nil]

theorem Draft.Clean.sameBrackets {d : Draft} (h : d.Clean)
    (hcomment : ∀ t, d = .comment t → codeText (marked (Text.trimRight t)) = []) :
    SameBrackets d.code (d.lines.flatMap fun line => codeText (marked line)) := by
  cases d with
  | comment t =>
    rw [lines, flatMap_singleton, hcomment t rfl]
    exact .refl _
  | statement ps =>
    obtain ⟨hread, hrecodes, hclosed⟩ := h
    have hspaced := sameBrackets_mapCode hrecodes fun s _ _ => sameBrackets_spaceCode s.text
    have hline := hspaced.trans (sameBrackets_trim hclosed)
    rw [hread] at hline
    rw [lines]
    split
    next hnil =>
      rw [show Text.trim (mapCode spaceCode (spell ps)) = [] from List.isEmpty_iff.1 hnil] at hline
      exact hline
    next =>
      rw [flatMap_singleton]
      exact hline

/-! ## Lines -/

/-- The lines are read one by one when they are joined by line breaks. -/
def Joined (lines : List Text) : Prop :=
  marked (Text.join "\n" lines) = [('\n', true)].intercalate (lines.map marked)

instance (lines : List Text) : Decidable (Joined lines) := inferInstanceAs (Decidable (_ = _))

theorem brackets_intercalate (lines : List Text) :
    brackets (codeText ([('\n', true)].intercalate (lines.map marked))) =
      brackets (lines.flatMap fun line => codeText (marked line)) := by
  induction lines with
  | nil => rfl
  | cons line lines ih =>
    cases lines with
    | nil => simp [intercalate]
    | cons line' lines =>
      rw [map_cons, map_cons, intercalate_cons_cons, ← map_cons, codeText_append, codeText_append,
        brackets_append, brackets_append, ih, flatMap_cons (x := line), brackets_append,
        show brackets (codeText [('\n', true)]) = [] from rfl, append_nil]

/-- What keeps a body nested in the layout step. -/
@[mk_iff]
structure CleanLayout (body : Text) : Prop where
  drafts : ∀ d ∈ drafts body, d.Clean
  joined : Joined (statements body)

instance (body : Text) : Decidable (CleanLayout body) :=
  decidable_of_iff _ (cleanLayout_iff ..).symm

/-- The lines of a body have the brackets of its code. -/
theorem sameBrackets_statements (h : ∀ d ∈ drafts body, d.Clean) :
    SameBrackets (codeText (marked body)) ((statements body).flatMap fun line =>
      codeText (marked line)) := by
  have hcut : SameBrackets (codeText (marked body)) ((drafts body).flatMap Draft.code) := by
    refine .of_brackets_eq ?_
    rw [drafts, brackets_cutDrafts, marked_eq]
    rfl
  refine hcut.trans ?_
  have hcomments : ∀ d ∈ drafts body, ∀ t, d = .comment t → codeText (marked (Text.trimRight t)) =
      [] := by
    rintro _ hd t rfl
    exact codeText_of_comment hd
  rw [statements_eq_drafts]
  generalize drafts body = ds at h hcomments
  induction ds with
  | nil => exact .refl _
  | cons d ds ih =>
    rw [flatMap_cons, flatMap_cons, flatMap_append]
    exact ((h d mem_cons_self).sameBrackets (hcomments d mem_cons_self)).append
      (ih (fun d hd => h d (mem_cons_of_mem _ hd)) fun d hd => hcomments d (mem_cons_of_mem _ hd))

theorem nested_layOut (hnested : Nested body) (h : CleanLayout body) : Nested (layOut body) := by
  rw [Nested, layOut, h.joined]
  refine ((sameBrackets_statements h.drafts).trans (.of_brackets_eq ?_)).bracketed hnested
  exact (brackets_intercalate _).symm

end Lowering

end AnchorLowering
