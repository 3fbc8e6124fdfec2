import AnchorLowering.Proofs.NestedAssertion

/-!
# Drafts of lines

The layout step cuts a body and sets the spaces of each statement in one go. Here the two are taken
apart: the body is cut into *drafts*, each with the pieces of a statement or with a comment between
statements, and a draft is written as a line, or as none if nothing but blanks is in it
(`cutPieces_eq_drafts`).
-/

namespace AnchorLowering

open List Source

variable {ps : List (Piece Unit)} {before rest t : Text}

namespace Lowering

/-- What a line is written from. -/
inductive Draft where
  | statement (ps : List (Piece Unit))
  | comment (t : Text)

/-- The line that is written from a draft; a blank draft gives none. -/
def Draft.lines : Draft → List Text
  | .statement ps =>
    if (normalizeSpacing (spell ps)).isEmpty then [] else [normalizeSpacing (spell ps)]
  | .comment t => [Text.trimRight t]

/-- A sealed piece as it stands inside a statement. -/
def heldText (t : Text) : Text := if t.startsWith "//" then asBlockComment t else t

/-- The sealed piece is a comment. -/
def isComment (t : Text) : Bool := t.startsWith "//" || t.startsWith "/*"

/-- Cuts pieces into drafts; `parts` are the pieces of the current statement, latest first, and
`depth` counts the brackets that are open in it. -/
def cutDrafts : List (Piece Unit) → Nat → List (Piece Unit) → List Draft
  | parts, _, [] => [.statement parts.reverse]
  | parts, depth, .claimed e t :: rest =>
    if isComment t && depth == 0 && (Text.trim (spell parts.reverse)).isEmpty then .comment t ::
      cutDrafts [] depth rest
    else cutDrafts (.claimed e (heldText t) :: parts) depth rest
  | parts, depth, .char c :: rest =>
    let parts := .char c :: parts
    if isOpener c then cutDrafts parts (depth + 1) rest
    else if isCloser c then
      let depth := depth - 1
      if c == '\x7d' && depth == 0 && endsAtBrace rest then .statement parts.reverse ::
        cutDrafts [] depth rest
      else cutDrafts parts depth rest
    else if c == ';' && depth == 0 then .statement parts.reverse :: cutDrafts [] depth rest
    else cutDrafts parts depth rest

def drafts (body : Text) : List Draft := cutDrafts [] 0 (Text.pieces sealedClaim body)

theorem flatten_map_text (parts : List (Piece Unit)) :
    (parts.map Piece.text).reverse.flatten = spell parts.reverse := by
  rw [← map_reverse, spell, flatMap_def]

theorem closeStatement_eq (parts : List (Piece Unit)) :
    closeStatement (parts.map Piece.text) = (Draft.statement parts.reverse).lines := by
  rw [closeStatement, flatten_map_text]
  rfl

/-- **The lines of a cut are those of its drafts.** -/
theorem cutPieces_eq_drafts (parts : List (Piece Unit)) (depth : Nat) (ps : List (Piece Unit)) :
    cutPieces (parts.map Piece.text) depth ps = (cutDrafts parts depth ps).flatMap Draft.lines := by
  fun_induction cutDrafts parts depth ps with
  | case1 parts depth => rw [cutPieces, closeStatement_eq, flatMap_singleton]
  | case2 parts depth e t rest hcomment ih =>
    rw [isComment] at hcomment
    rw [cutPieces, flatten_map_text, if_pos hcomment, flatMap_cons, ← ih]
    rfl
  | case3 parts depth e t rest hcomment ih =>
    rw [isComment] at hcomment
    rw [cutPieces, flatten_map_text, if_neg hcomment, ← ih]
    rfl
  | case4 parts depth c rest held hopen ih =>
    rw [cutPieces, if_pos hopen]
    exact ih
  | case5 parts depth c rest held hopen hclose lower hends ih =>
    rw [cutPieces, if_neg hopen, if_pos hclose]
    dsimp only
    rw [if_pos hends, flatMap_cons, ← ih, ← closeStatement_eq]
    rfl
  | case6 parts depth c rest held hopen hclose lower hends ih =>
    rw [cutPieces, if_neg hopen, if_pos hclose]
    dsimp only
    rw [if_neg hends]
    exact ih
  | case7 parts depth c rest held hopen hclose hends ih =>
    rw [cutPieces, if_neg hopen, if_neg hclose, if_pos hends, flatMap_cons, ← ih,
      ← closeStatement_eq]
    rfl
  | case8 parts depth c rest held hopen hclose hends ih =>
    rw [cutPieces, if_neg hopen, if_neg hclose, if_neg hends]
    exact ih

theorem statements_eq_drafts (body : Text) : statements body = (drafts body).flatMap Draft.lines :=
  cutPieces_eq_drafts [] 0 _

/-! ## Comments between statements -/

theorem blockTail_eq_length {r s : Text} (h : s <+: r.take (blockTail r)) :
    blockTail s = s.length := by
  fun_induction blockTail r generalizing s with
  | case1 =>
    obtain rfl := prefix_nil.1 h
    rfl
  | case2 r =>
    have hcases : s = [] ∨ s = ['*'] ∨ s = ['*', '/'] := by
      simp only [take_succ_cons, take_zero, prefix_cons_iff, prefix_nil] at h
      rcases h with rfl | ⟨t, rfl, rfl | ⟨t', rfl, rfl⟩⟩ <;> simp
    rcases hcases with rfl | rfl | rfl <;> rfl
  | case3 c r hclose ih =>
    rw [Nat.add_comm, take_succ_cons] at h
    cases s with
    | nil => rfl
    | cons x s =>
      obtain ⟨rfl, hs⟩ := cons_prefix_cons.1 h
      rw [blockTail, ih hs, length_cons, Nat.add_comm]
      rintro s' rfl rfl
      obtain ⟨w, hw⟩ := hs.trans (List.take_prefix _ _)
      exact hclose _ rfl hw.symm

theorem marked_of_sealedAt (hne : t ≠ []) (h : SealedAt [] t t.length) :
    marked t = t.map fun x => (x, false) := by
  have hpieces : Text.pieces sealedClaim t = [.claimed () t] := by
    refine pieces_eq_iff.2 ⟨append_nil _, ⟨hne, ?_⟩, trivial⟩
    simpa using h
  rw [marked_eq, hpieces, markedPieces_claimed]
  exact append_nil _

theorem exists_trimRight_comment (h : isComment t = true) :
    ∃ k s s', (k = '/' ∨ k = '*') ∧ t = '/' :: k :: s' ∧ Text.trimRight t = '/' :: k :: s ∧
    s <+: s' := by
  have hstart : ∃ k s', (k = '/' ∨ k = '*') ∧ t = '/' :: k :: s' := by
    rw [isComment, Bool.or_eq_true] at h
    rcases h with h | h
    · obtain ⟨s', rfl⟩ := isPrefixOf_iff_prefix.1 h
      exact ⟨'/', s', .inl rfl, rfl⟩
    · obtain ⟨s', rfl⟩ := isPrefixOf_iff_prefix.1 h
      exact ⟨'*', s', .inr rfl, rfl⟩
  obtain ⟨k, s', hk, rfl⟩ := hstart
  obtain ⟨s, b, rfl, hb, hlast⟩ := exists_solid s'
  have hlast' : ∀ x, ('/' :: k :: s).getLast? = some x → isBlank x = false := by
    intro x hx
    rcases eq_nil_or_concat' s with rfl | ⟨u, y, rfl⟩
    · obtain rfl := Option.some.inj hx
      rcases hk with rfl | rfl <;> rfl
    · refine hlast x ?_
      rwa [← cons_append, ← cons_append, List.getLast?_concat, ← List.getLast?_concat (l := u)]
        at hx
  exact ⟨k, s, s ++ b, hk, rfl, trimRight_append hb hlast', prefix_append _ _⟩

/-- **A comment between statements is read as a comment on its line.** -/
theorem marked_trimRight_comment (h : isComment t = true)
    (hsealed : SealedAt before (t ++ rest) t.length) :
    marked (Text.trimRight t) = (Text.trimRight t).map fun x => (x, false) := by
  obtain ⟨k, s, s', hk, rfl, htrim, hs⟩ := exists_trimRight_comment h
  rw [htrim]
  refine marked_of_sealedAt (cons_ne_nil _ _) ?_
  rcases hk with rfl | rfl
  · have hline : SealedAt before ('/' :: '/' :: (s' ++ rest)) _ := .line
    have hlen : ((s' ++ rest).takeWhile (· != '\n')).length = s'.length := by
      have := hline.unique hsealed
      simp only [length_cons] at this
      omega
    have hall : (s' ++ rest).takeWhile (· != '\n') = s' := by
      rw [prefix_iff_eq_take.1 (List.takeWhile_prefix _), hlen, take_left]
    have hone : s.takeWhile (· != '\n') = s := takeWhile_eq_self_iff.2 fun x hx =>
      mem_takeWhile_imp (p := (· != '\n')) (by rw [hall]; exact hs.subset hx)
    have hline' : SealedAt [] ('/' :: '/' :: s) _ := .line
    rw [hone] at hline'
    exact hline'.cast rfl (by simp; omega)
  · have hblock : SealedAt before ('/' :: '*' :: (s' ++ rest)) _ := .block
    have hlen : blockTail (s' ++ rest) = s'.length := by
      have := hblock.unique hsealed
      simp only [length_cons] at this
      omega
    have hblock : SealedAt [] ('/' :: '*' :: s) (2 + blockTail s) := .block
    rw [blockTail_eq_length (r := s' ++ rest) (by rwa [hlen, take_left])] at hblock
    exact hblock.cast rfl (by simp; omega)

theorem exists_sealedAt_of_mem (h : Lexes before ps rest) {e : Unit}
    (hmem : .claimed e t ∈ ps) : ∃ before' rest', SealedAt before' (t ++ rest') t.length := by
  induction ps generalizing before with
  | nil => cases hmem
  | cons p ps ih =>
    rcases mem_cons.1 hmem with rfl | hmem
    · exact ⟨_, _, h.1.2⟩
    · exact ih h.2 hmem

theorem exists_claimed_of_comment {parts : List (Piece Unit)} {depth : Nat}
    (h : .comment t ∈ cutDrafts parts depth ps) : isComment t = true ∧ ∃ e, .claimed e t ∈ ps := by
  fun_induction cutDrafts parts depth ps with
  | case1 => simp at h
  | case2 parts depth e t' rest hcomment ih =>
    rcases mem_cons.1 h with heq | h
    · obtain rfl := Draft.comment.inj heq
      simp only [Bool.and_eq_true] at hcomment
      exact ⟨hcomment.1.1, e, mem_cons_self⟩
    · obtain ⟨hcomment, e, hmem⟩ := ih h
      exact ⟨hcomment, e, mem_cons_of_mem _ hmem⟩
  | case5 parts depth c rest held hopen hclose lower hends ih
  | case7 parts depth c rest held hopen hclose hends ih =>
    rcases mem_cons.1 h with heq | h
    · cases heq
    · obtain ⟨hcomment, e, hmem⟩ := ih h
      exact ⟨hcomment, e, mem_cons_of_mem _ hmem⟩
  | case3 _ _ _ _ _ _ ih
  | case4 _ _ _ _ _ _ ih
  | case6 _ _ _ _ _ _ _ _ _ ih
  | case8 _ _ _ _ _ _ _ _ ih =>
    obtain ⟨hcomment, e, hmem⟩ := ih h
    exact ⟨hcomment, e, mem_cons_of_mem _ hmem⟩

theorem codeText_of_comment {body : Text} (h : .comment t ∈ drafts body) :
    codeText (marked (Text.trimRight t)) = [] := by
  obtain ⟨hcomment, e, hmem⟩ := exists_claimed_of_comment h
  obtain ⟨before, rest, hsealed⟩ := exists_sealedAt_of_mem (lexes_pieces body) hmem
  rw [marked_trimRight_comment hcomment hsealed, codeText_map_sealed]

end Lowering

end AnchorLowering
