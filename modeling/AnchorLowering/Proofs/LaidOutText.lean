import AnchorLowering.Proofs.Respacing

/-!
# What the layout step keeps

The layout step cuts a body into statements, writes line comments inside of them as block comments,
and sets the spaces of each statement, which is read anew for that.

**The items of a body** (`items`) are its pieces, with the line comments that change. A scan over
the pieces that knows the depth and whether a statement has begun (`Standing`) decides which ones
do. The cut stands where this scan does, and one lemma says what it does with one piece
(`cutDrafts_cons`).

**Reading anew.** The collected pieces of a statement are the pieces of its text (`lexes_held`): a
block comment opens where the line comment did, and nothing before it is read otherwise for that
(`SealedAt.of_block`).

Main result: `layOut_keeps_all_but_blanks`. The output has the characters of the items but for
blanks, no two names grow together, and every terminated literal is there as it was, in order.
-/

namespace AnchorLowering

open List Pattern Source

variable {ps : List (Piece Unit)} {b before s w t v b' : Text}

/-! ## Line comments as block comments -/

namespace Source

theorem CharBody.noPair {mark body : Text} (hmark : mark = [] ∨ mark = ['b']) (h : CharBody body) :
    NoPair '/' '*' (mark ++ '\'' :: (body ++ ['\''])) := by
  have hquoted : NoPair '/' '*' ('\'' :: (body ++ ['\''])) := by
    obtain ⟨x, -, -, rfl⟩ | ⟨x, more, rfl, -, hmore⟩ := h.shape
    · simp [NoPair]
    · have hplain : ∀ y ∈ more ++ ['\''], y ≠ '/' ∧ y ≠ '*' := by
        intro y hy
        rcases mem_append.1 hy with hy | hy
        · rcases hmore y hy with hword | rfl | rfl
          · constructor <;> rintro rfl <;> exact absurd hword (by decide)
          all_goals decide
        · obtain rfl := mem_singleton.1 hy
          decide
      have htail : NoPair '/' '*' (more ++ ['\'']) :=
        Source.NoPair.of_not_mem fun hmem => (hplain _ hmem).1 rfl
      refine .cons_cons (by decide)
        (.cons_cons (by simp) (isChain_cons.2 ⟨fun y hy hpair => ?_, htail⟩))
      exact (hplain y (mem_of_mem_head? hy)).2 hpair.2
  obtain rfl | rfl := hmark
  · exact hquoted
  · exact .cons_cons (by decide) hquoted

/-- A region that is open before a block comment is open before a line comment, too. -/
theorem SealedAt.of_block {n : Nat} (v : Text) (hs : s ≠ [])
    (h : SealedAt before (s ++ '/' :: '*' :: w) n) :
    ∃ m, SealedAt before (s ++ '/' :: '/' :: v) m := by
  generalize ht : s ++ '/' :: '*' :: w = t at h
  cases h with
  | @line rest =>
    obtain ⟨x, s, rfl⟩ := exists_cons_of_ne_nil hs
    obtain ⟨rfl, htail⟩ := cons.inj ht
    cases s with
    | nil => exact ⟨_, .line⟩
    | cons y s =>
      obtain ⟨rfl, -⟩ := cons.inj htail
      exact ⟨_, .line⟩
  | @block rest =>
    obtain ⟨s', rfl⟩ := exists_append_of_head ['/', '*'] rest hs ht (by simp)
    exact ⟨_, .block⟩
  | @string mark rest hmark =>
    obtain ⟨s', rfl⟩ := exists_append_of_head (mark ++ ['"']) rest hs (ht.trans (by simp)) (by
      obtain rfl | ⟨rfl, -⟩ := hmark <;> simp)
    exact ⟨_, (@SealedAt.string before mark (s' ++ '/' :: '/' :: v) hmark).cast (by simp) rfl⟩
  | @char mark body rest hmark hbody =>
    have hpair := hbody.noPair (hmark.imp_right And.left)
    -- the literal ends at the slash or before it, since no literal goes on with a star after a
    -- slash
    obtain ⟨r, hr⟩ : ∃ r, s ++ '/' :: '/' :: v = (mark ++ '\'' :: (body ++ ['\''])) ++ r := by
      have ht : s ++ '/' :: '*' :: w = (mark ++ '\'' :: (body ++ ['\''])) ++ rest := by simp [ht]
      obtain ⟨z, hz, hrest⟩ | ⟨s', rfl, -⟩ := append_eq_append_iff.1 ht
      · rcases z with - | ⟨x, - | ⟨y, z⟩⟩
        · exact ⟨'/' :: '/' :: v, by rw [hz]; simp⟩
        · obtain ⟨rfl, -⟩ := cons.inj hrest
          exact ⟨'/' :: v, by rw [hz]; simp⟩
        · obtain ⟨rfl, hstar⟩ := cons.inj hrest
          obtain ⟨rfl, -⟩ := cons.inj hstar
          rw [hz] at hpair
          exact absurd ⟨rfl, rfl⟩ (isChain_cons_cons.1 (hpair.suffix (suffix_append _ _))).1
      · exact ⟨_, append_assoc ..⟩
    exact ⟨_, (@SealedAt.char before mark body r hmark hbody).cast (by simp [hr]) rfl⟩
  | @raw mark rest hashes hmark hfresh =>
    obtain ⟨s', rfl⟩ :=
      exists_append_of_head (mark ++ 'r' :: (replicate hashes '#' ++ ['"'])) rest hs
      (ht.trans (by simp)) (by obtain rfl | rfl := hmark <;> simp [mem_replicate])
    exact ⟨_, (@SealedAt.raw before mark (s' ++ '/' :: '/' :: v) hashes hmark hfresh).cast
      (by simp) rfl⟩

end Source

namespace Lowering

/-- A piece as a statement holds it. A line comment is a block comment of its text, in which the
marks that would end it are broken up. -/
def heldPiece : Piece Unit → Piece Unit
  | .char c => .char c
  | .claimed e t =>
    .claimed e (if "//".toList <+: t then
      "/* ".toList ++ ((Text.trim (t.drop 2)).replace "*/" "* /" ++ " */".toList) else t)

theorem asBlockComment_eq (t : Text) :
    asBlockComment t = comment (NoPair.broken '*' '/' (Text.trim (t.drop 2))) := by
  simp [asBlockComment, Text.concat, comment]

theorem heldText_of_not_line (h : ¬"//".toList <+: t) : heldText t = t :=
  if_neg fun hline => h (List.isPrefixOf_iff_prefix.1 hline)

theorem heldText_of_line (h : "//".toList <+: t) : heldText t = asBlockComment t :=
  if_pos (List.isPrefixOf_iff_prefix.2 h)

theorem heldPiece_claimed (e : Unit) (t : Text) :
    heldPiece (.claimed e t) = .claimed e (heldText t) := by
  by_cases hline : "//".toList <+: t
  · rw [heldPiece, if_pos hline, heldText_of_line hline]
    simp [asBlockComment, Text.concat]
  · rw [heldPiece, if_neg hline, heldText_of_not_line hline]

/-- Up to its first line comment, a text is as before. -/
theorem exists_common_held (ps : List (Piece Unit)) (v : Text) : ∃ y v' w, spell ps ++ v = y ++ v' ∧
    spell (ps.map heldPiece) = y ++ w ∧
    (w = [] ∨ ∃ a b, v' = '/' :: '/' :: a ∧ w = '/' :: '*' :: b) := by
  induction ps with
  | nil => exact ⟨[], v, [], rfl, rfl, .inl rfl⟩
  | cons p ps ih =>
    obtain ⟨y, v', w, hv, hw, hcases⟩ := ih
    have hsame (hp : (heldPiece p).text = p.text) : ∃ y v' w, spell (p :: ps) ++ v = y ++ v' ∧
        spell ((p :: ps).map heldPiece) = y ++ w ∧
        (w = [] ∨ ∃ a b, v' = '/' :: '/' :: a ∧ w = '/' :: '*' :: b) :=
      ⟨p.text ++ y, v', w, by simp [hv], by simp [hp, hw], hcases⟩
    cases p with
    | char c => exact hsame rfl
    | claimed e t =>
      by_cases hline : "//".toList <+: t
      · obtain ⟨t, rfl⟩ := hline
        have hheld := (heldText_of_line (prefix_append "//".toList t)).trans (asBlockComment_eq _)
        have hspell : spell ((.claimed e ("//".toList ++ t) :: ps).map heldPiece) =
            comment (NoPair.broken '*' '/' (Text.trim (("//".toList ++ t).drop 2))) ++
              spell (ps.map heldPiece) := by
          rw [map_cons, heldPiece_claimed]
          exact congrArg (· ++ spell (ps.map heldPiece)) hheld
        exact ⟨[], '/' :: '/' :: (t ++ spell ps ++ v), _, rfl, hspell,
          .inr ⟨t ++ spell ps ++ v, _, rfl, rfl⟩⟩
      · exact hsame (by rw [heldPiece_claimed]; exact heldText_of_not_line hline)

theorem lexes_held {before before' : Text} (h : Lexes before ps v)
    (hfresh : ∀ x, (spell ps ++ v).head? = some x → isWord x = true →
      before.head?.any isWord = before'.head?.any isWord) :
    Lexes before' (ps.map heldPiece) [] := by
  induction ps generalizing before before' with
  | nil => trivial
  | cons p ps ih =>
    obtain ⟨hp, hps⟩ := h
    obtain ⟨y, v', w, hv, hw, hcases⟩ := exists_common_held ps v
    have hletter {x : Char} (hx : some x = some 'b' ∨ some x = some 'r') : isWord x = true := by
      simp only [Option.some.injEq] at hx
      rcases hx with rfl | rfl <;> decide
    cases p with
    | char c =>
      refine ⟨fun n hn => ?_, ih hps fun x _ _ => rfl⟩
      rw [append_nil, hw] at hn
      have hn : SealedAt before (c :: y ++ w) n :=
        hn.of_before fun hhead => (hfresh c rfl (hletter hhead)).trans (hn.fresh hhead)
      have hp : ∀ m, ¬SealedAt before (c :: y ++ v') m := by simpa [Reads, hv] using hp
      rcases hcases with rfl | ⟨a, b, rfl, rfl⟩
      · obtain ⟨m, hm⟩ := hn.of_startsAfresh v' (cons_ne_nil _ _) .nil
        exact hp m hm
      · obtain ⟨m, hm⟩ := hn.of_block a (cons_ne_nil _ _)
        exact hp m hm
    | claimed e t =>
      obtain ⟨hne, hsealed⟩ := hp
      by_cases hline : "//".toList <+: t
      · rw [map_cons, heldPiece_claimed, heldText_of_line hline, asBlockComment_eq]
        have hpair : NoPair '*' '/' (NoPair.broken '*' '/' (Text.trim (t.drop 2))) :=
          .of_broken (by decide) (by decide) (by decide) _ (.inl ⟨rfl, rfl⟩)
        refine ⟨⟨cons_ne_nil _ _, sealedAt_comment hpair _ _⟩, ih hps fun x hx hword => ?_⟩
        obtain hnil | hbreak := hsealed.line_end hline
        · rw [hnil] at hx
          cases hx
        · obtain rfl := Option.some.inj (hbreak.symm.trans hx)
          exact absurd hword (by decide)
      · rw [map_cons, heldPiece_claimed, heldText_of_not_line hline]
        obtain ⟨x, s, rfl⟩ := exists_cons_of_ne_nil hne
        have hsealed : SealedAt before' (x :: s ++ (spell ps ++ v)) (x :: s).length :=
          hsealed.of_before fun hhead => hfresh x rfl (hletter hhead) ▸ hsealed.fresh hhead
        refine ⟨⟨hne, ?_⟩, ih hps fun y _ _ => by simp [head?_append, head?_reverse]⟩
        rw [append_nil, hw]
        by_cases hrest : spell ps ++ v = []
        · rw [hrest] at hsealed
          obtain ⟨rfl, rfl⟩ := append_eq_nil_iff.1 (hv.symm.trans hrest)
          obtain rfl | ⟨a, b, hslash, -⟩ := hcases
          · exact hsealed
          · cases hslash
        · exact (hsealed.closed hrest).2 _ fun hcomment => absurd hcomment hline

/-! ## The items of a body -/

/-- Where a scan of a body stands: the brackets that are open in the current statement, and whether
it has begun. -/
structure Standing where
  depth : Nat
  begun : Bool

namespace Standing

/-- The sealed region is a comment between statements. -/
def standsAlone (s : Standing) (t : Text) : Bool := isComment t && s.depth == 0 && !s.begun

/-- A piece as it is laid out: only a comment between statements may stay a line comment. -/
def item (s : Standing) : Piece Unit → Piece Unit
  | .char c => .char c
  | .claimed e t => if s.standsAlone t then .claimed e t else heldPiece (.claimed e t)

/-- Where the scan stands after a piece, given the pieces that follow it. -/
def next (s : Standing) (rest : List (Piece Unit)) : Piece Unit → Standing
  | .claimed _ t => if s.standsAlone t then s else ⟨s.depth, s.begun || !t.all isBlank⟩
  | .char c =>
    let begun := s.begun || !isBlank c
    if isOpener c then ⟨s.depth + 1, begun⟩
    else if isCloser c then
      if c == '\x7d' && s.depth - 1 == 0 && endsAtBrace rest then ⟨s.depth - 1, false⟩
      else ⟨s.depth - 1, begun⟩
    else if c == ';' && s.depth == 0 then ⟨s.depth, false⟩
    else ⟨s.depth, begun⟩

def items (s : Standing) : List (Piece Unit) → List (Piece Unit)
  | [] => []
  | p :: ps => s.item p :: (s.next ps p).items ps

end Standing

/-- The code characters and sealed regions of a body, with the line comments inside of statements as
block comments. -/
def items (body : Text) : List (Piece Unit) :=
  Standing.items ⟨0, false⟩ (Text.pieces sealedClaim body)

theorem all_isBlank_heldText (t : Text) : (heldText t).all isBlank = t.all isBlank := by
  unfold heldText
  split
  case isTrue h =>
    obtain ⟨s, rfl⟩ := isPrefixOf_iff_prefix.1 h
    have hslash : isBlank '/' = false := by decide
    simp [asBlockComment, Text.concat, hslash]
  case isFalse => rfl

theorem isEmpty_trim (t : Text) : (Text.trim t).isEmpty = t.all isBlank := by
  rw [Bool.eq_iff_iff, all_eq_true]
  exact ⟨isBlank_of_trim, fun h => by rw [trim_eq_nil h]; rfl⟩

/-- A text in lines, each after a line break. -/
def inLines (lines : List Text) : Text := lines.flatMap ('\n' :: ·) ++ ['\n']

theorem reflowed_line (hb : Blank b) (hb' : Blank b') :
    Reflowed ('\n' :: (b ++ (s ++ (b' ++ ['\n'])))) (inLines [s]) := by
  have hleft : Reflowed ('\n' :: b) ['\n'] :=
    .blanks (by simpa using ⟨by decide, hb⟩) (by decide) (by simp)
  have hright : Reflowed (b' ++ ['\n']) ['\n'] :=
    .blanks (forall_mem_append.2 ⟨hb', by decide⟩) (by decide) (by simp)
  simpa [inLines] using hleft.append (Reflowed.append (t := s) .refl hright)

theorem reflowed_statement (ps : List (Piece Unit)) :
    Reflowed ('\n' :: (spell ps ++ ['\n'])) (inLines (Draft.statement ps).lines) := by
  have hspaced := (reflowed_mapCode reflowed_spaceCode (spell ps)).around ['\n'] ['\n']
  obtain ⟨b, b', htrim, hb, hb', -⟩ := exists_trim (mapCode spaceCode (spell ps))
  refine hspaced.trans ?_
  rw [Draft.lines, normalizeSpacing]
  generalize Text.trim (mapCode spaceCode (spell ps)) = s at htrim ⊢
  have hline : Reflowed ('\n' :: (mapCode spaceCode (spell ps) ++ ['\n'])) (inLines [s]) := by
    rw [htrim]
    simpa using reflowed_line (s := s) hb hb'
  refine hline.trans ?_
  split
  case isTrue hempty =>
    obtain rfl := List.isEmpty_iff.1 hempty
    exact Reflowed.blanks (by decide) (by decide) (by decide)
  case isFalse => exact .refl

/-- A line break may be put where a statement ends. -/
theorem Reflowed.breakLine {r : Text} {lines lines' : List Text}
    (h : Reflowed ('\n' :: (t ++ ['\n'])) (inLines lines))
    (h' : Reflowed ('\n' :: (r ++ ['\n'])) (inLines lines')) :
    Reflowed ('\n' :: (t ++ (r ++ ['\n']))) (inLines (lines ++ lines')) := by
  have hbreak : Reflowed ('\n' :: (t ++ (r ++ ['\n'])))
      ('\n' :: (t ++ ['\n']) ++ (r ++ ['\n'])) := by
    have hempty : Reflowed [] ['\n'] := .blanks (by simp) (by decide) (by simp)
    simpa using hempty.around ('\n' :: t) (r ++ ['\n'])
  refine hbreak.trans ((h.append .refl).trans ?_)
  simpa [inLines] using Reflowed.append (t := lines.flatMap ('\n' :: ·)) .refl h'

/-- Where the cut stands when `parts` are collected. -/
def Standing.collected (parts : List (Piece Unit)) (depth : Nat) : Standing :=
  ⟨depth, !(spell parts.reverse).all isBlank⟩

theorem Standing.standsAlone_collected (parts : List (Piece Unit)) (depth : Nat) (t : Text) :
    (collected parts depth).standsAlone t =
      (isComment t && depth == 0 && (Text.trim (spell parts.reverse)).isEmpty) := by
  rw [standsAlone, collected, Bool.not_not, isEmpty_trim]

theorem Standing.collected_cons (p : Piece Unit) (parts : List (Piece Unit)) (depth : Nat) :
    collected (heldPiece p :: parts) depth =
    ⟨depth, (collected parts depth).begun || !p.text.all isBlank⟩ := by
  cases p with
  | char c => simp [collected, heldPiece, spell]
  | claimed e t => simp [collected, heldPiece_claimed, spell, all_isBlank_heldText]

/-- What the cut does with one piece: it collects it, ends the statement with it, or writes it as a
comment. -/
theorem cutDrafts_cons (parts : List (Piece Unit)) (depth : Nat) (p : Piece Unit)
    (rest : List (Piece Unit)) :
    (∃ depth', (Standing.collected parts depth).next rest p =
      .collected (heldPiece p :: parts) depth' ∧
        (Standing.collected parts depth).item p = heldPiece p ∧
        cutDrafts parts depth (p :: rest) = cutDrafts (heldPiece p :: parts) depth' rest) ∨
      (∃ depth', (Standing.collected parts depth).next rest p = .collected [] depth' ∧
        (Standing.collected parts depth).item p = heldPiece p ∧
        (∃ x, p.text.getLast? = some x ∧ isWord x = false) ∧
        cutDrafts parts depth (p :: rest) = .statement (heldPiece p :: parts).reverse ::
        cutDrafts [] depth' rest) ∨
      ∃ e t, p = .claimed e t ∧ isComment t = true ∧ (∀ x ∈ spell parts.reverse, isBlank x = true) ∧
        (Standing.collected parts depth).next rest p = .collected [] depth ∧
        (Standing.collected parts depth).item p = p ∧
        cutDrafts parts depth (p :: rest) = .comment t :: cutDrafts [] depth rest := by
  cases p with
  | claimed e t =>
    by_cases halone : (Standing.collected parts depth).standsAlone t = true
    · have hcut := halone
      rw [Standing.standsAlone_collected] at hcut
      have hblank : ∀ x ∈ spell parts.reverse, isBlank x = true := isBlank_of_trim (by simp_all)
      refine .inr (.inr ⟨e, t, rfl,
        by simp_all, hblank, ?_, if_pos halone, by rw [cutDrafts, if_pos hcut]⟩)
      rw [Standing.next, if_pos halone, Standing.collected, all_eq_true.2 hblank]
      rfl
    · have hcut := halone
      rw [Standing.standsAlone_collected] at hcut
      refine .inl ⟨depth, ?_, if_neg halone, by rw [cutDrafts, if_neg hcut, heldPiece_claimed]⟩
      rw [Standing.next, if_neg halone, Standing.collected_cons]
      rfl
  | char c =>
    have hgo (depth' : Nat) :
        Standing.mk depth' ((Standing.collected parts depth).begun || !isBlank c) =
        .collected (heldPiece (.char c) :: parts) depth' := by
      simp [Standing.collected, heldPiece, spell]
    by_cases hopen : isOpener c = true
    · exact .inl ⟨depth + 1, by rw [← hgo, Standing.next, if_pos hopen]; rfl, rfl,
        by rw [cutDrafts, if_pos hopen]; rfl⟩
    by_cases hclose : isCloser c = true
    · by_cases hend : (c == '\x7d' && depth - 1 == 0 && endsAtBrace rest) = true
      · have hc : c = '\x7d' := by simp_all
        refine .inr (.inl ⟨depth - 1, ?_, rfl, ⟨c, rfl, by rw [hc]; decide⟩, ?_⟩)
        swap; · rw [cutDrafts, if_neg hopen, if_pos hclose, if_pos hend]; rfl
        rw [Standing.next, if_neg hopen, if_pos hclose]
        exact if_pos hend
      · refine .inl ⟨depth - 1, ?_, rfl,
          by rw [cutDrafts, if_neg hopen, if_pos hclose, if_neg hend]; rfl⟩
        rw [← hgo, Standing.next, if_neg hopen, if_pos hclose]
        exact if_neg hend
    · by_cases hend : (c == ';' && depth == 0) = true
      · have hc : c = ';' := by simp_all
        refine .inr (.inl ⟨depth, ?_, rfl, ⟨c, rfl, by rw [hc]; decide⟩, ?_⟩)
        swap; · rw [cutDrafts, if_neg hopen, if_neg hclose, if_pos hend]; rfl
        rw [Standing.next, if_neg hopen, if_neg hclose]
        exact if_pos hend
      · refine .inl ⟨depth, ?_, rfl,
          by rw [cutDrafts, if_neg hopen, if_neg hclose, if_neg hend]; rfl⟩
        rw [← hgo, Standing.next, if_neg hopen, if_neg hclose]
        exact if_neg hend

theorem reflowed_cutDrafts (parts : List (Piece Unit)) (depth : Nat) (ps : List (Piece Unit)) :
    Reflowed ('\n' ::
      (spell parts.reverse ++ (spell ((Standing.collected parts depth).items ps) ++ ['\n'])))
      (inLines ((cutDrafts parts depth ps).flatMap Draft.lines)) := by
  induction ps generalizing parts depth with
  | nil => simpa [Standing.items, cutDrafts] using reflowed_statement parts.reverse
  | cons p ps ih =>
    rw [Standing.items]
    obtain ⟨depth', hnext, hitem, hcut⟩ | ⟨depth', hnext, hitem, -, hcut⟩ |
      ⟨e, t, rfl, -, hblank, hnext, hitem, hcut⟩ :=
    cutDrafts_cons parts depth p ps <;> rw [hnext, hitem, hcut]
    · simpa using ih (heldPiece p :: parts) depth'
    · have hline := reflowed_statement (heldPiece p :: parts).reverse
      simpa using hline.breakLine (by simpa using ih [] depth')
    · obtain ⟨s, b, rfl, hb, hlast⟩ := exists_solid t
      have hline : Reflowed ('\n' :: ((spell parts.reverse ++ (s ++ b)) ++ ['\n']))
          (inLines [s]) := by
        simpa using reflowed_line (s := s) hblank hb
      have hlines : (Draft.comment (s ++ b)).lines = [s] := by
        rw [Draft.lines, trimRight_append hb hlast]
      rw [flatMap_cons, hlines]
      simpa using hline.breakLine (by simpa using ih [] depth)

/-! ## Literals -/

/-- The texts stand one after the other, in their order. -/
def HoldsInOrder : List Text → Text → Prop
  | [], _ => True
  | l :: ls, t => ∃ a b, t = a ++ (l ++ b) ∧ HoldsInOrder ls b

namespace HoldsInOrder

variable {ls ls' : List Text} {t t' : Text}

theorem append_left (h : HoldsInOrder ls t) (a : Text) : HoldsInOrder ls (a ++ t) := by
  cases ls with
  | nil => trivial
  | cons l ls =>
    obtain ⟨a', b, rfl, hb⟩ := h
    exact ⟨a ++ a', b, by simp, hb⟩

theorem append (h : HoldsInOrder ls t) (h' : HoldsInOrder ls' t') :
    HoldsInOrder (ls ++ ls') (t ++ t') := by
  induction ls generalizing t with
  | nil => exact h'.append_left t
  | cons l ls ih =>
    obtain ⟨a, b, rfl, hb⟩ := h
    exact ⟨a, b ++ t', by simp, ih hb⟩

/-- The text neither begins nor ends with a blank, and is not empty. -/
def Solid (l : Text) : Prop := l.head?.any (!isBlank ·) = true ∧ l.getLast?.any (!isBlank ·) = true

theorem of_blanks_left (h : HoldsInOrder ls (b ++ t)) (hb : Blank b)
    (hsolid : ∀ l ∈ ls, Solid l) : HoldsInOrder ls t := by
  cases ls with
  | nil => trivial
  | cons l ls =>
    obtain ⟨a, r, heq, hr⟩ := h
    obtain ⟨hhead, -⟩ := hsolid l (by simp)
    obtain ⟨x, l, rfl⟩ : ∃ x l', l = x :: l' := by cases l <;> simp_all
    obtain ⟨a', rfl, rfl⟩ := exists_append_of_blanks hb (by simpa using hhead) heq
    exact ⟨a', r, rfl, hr⟩

theorem of_blanks_right (h : HoldsInOrder ls (t ++ b)) (hb : Blank b)
    (hsolid : ∀ l ∈ ls, Solid l) : HoldsInOrder ls t := by
  induction ls generalizing t with
  | nil => trivial
  | cons l ls ih =>
    obtain ⟨a, r, heq, hr⟩ := h
    obtain ⟨-, hlast⟩ := hsolid l (by simp)
    obtain ⟨l, x, rfl⟩ : ∃ l' x, l = l' ++ [x] := by cases l using reverseRecOn <;> simp_all
    rw [show a ++ (l ++ [x] ++ r) = (a ++ l) ++ x :: r by simp] at heq
    obtain ⟨r', rfl, rfl⟩ | ⟨p, -, rfl⟩ := append_eq_append_cons heq
    · exact ⟨a, r', by simp, ih hr fun l hl => hsolid l (by simp [hl])⟩
    · simp_all

end HoldsInOrder

/-- A string or character literal that is terminated: it ends where it does also with more text
after it. -/
def isLiteral (t : Text) : Bool := !isComment t && sealedLength? ⟨[], t ++ [' ']⟩ == some t.length

/-- The terminated literals among pieces. -/
def literals (ps : List (Piece Unit)) : List Text :=
  ps.flatMap fun
    | .char _ => []
    | .claimed _ t => if isLiteral t then [t] else []

theorem solid_of_isLiteral (h : isLiteral t = true) : HoldsInOrder.Solid t := by
  simp only [isLiteral, isComment, Bool.and_eq_true, Bool.not_eq_true', Bool.or_eq_false_iff,
    beq_iff_eq] at h
  obtain ⟨⟨hline, -⟩, hsealed⟩ := h
  have hsealed := sealedLength?_eq_some_iff.1 hsealed
  obtain ⟨x, hx, hopens⟩ := hsealed.head_cases
  rcases (hsealed.closed (cons_ne_nil _ _)).1 with hcomment | ⟨y, hy, hplain⟩
  · rw [Text.startsWith, isPrefixOf_iff_prefix.2 hcomment] at hline
    cases hline
  · have hy' : isBlank y = false := Bool.eq_false_iff.2 fun hblank => by
      simp [isPlain_of_isBlank hblank] at hplain
    have hx' : isBlank x = false := by rcases hopens with rfl | rfl | rfl | rfl | rfl <;> decide
    have hhead : t.head? = some x := by cases t <;> simp_all
    exact ⟨by simp [hhead, hx'], by simp [hy, hy']⟩

theorem literals_append (ps qs : List (Piece Unit)) :
    literals (ps ++ qs) = literals ps ++ literals qs :=
  flatMap_append ..

theorem literals_claimed (e : Unit) (t : Text) (ps : List (Piece Unit)) :
    literals (.claimed e t :: ps) = (if isLiteral t then [t] else []) ++ literals ps := rfl

theorem literals_chars (t : Text) : literals (chars t) = [] := by
  simp [literals, chars, flatMap_map]

theorem mem_literals {l : Text} (h : l ∈ literals ps) :
    HoldsInOrder.Solid l ∧ ∃ e, .claimed e l ∈ ps := by
  obtain ⟨p, hp, hl⟩ := mem_flatMap.1 h
  cases p with
  | char c => cases hl
  | claimed e t =>
    dsimp only at hl
    split at hl
    · obtain rfl := mem_singleton.1 hl
      exact ⟨solid_of_isLiteral ‹_›, e, hp⟩
    · cases hl

theorem literals_eq_nil (h : ∀ x ∈ spell ps, isBlank x = true) : literals ps = [] := by
  refine eq_nil_iff_forall_not_mem.2 fun l hl => ?_
  obtain ⟨⟨hhead, -⟩, e, hmem⟩ := mem_literals hl
  obtain ⟨x, l, rfl⟩ : ∃ x l', l = x :: l' := by cases l <;> simp_all
  have hx := h x (mem_flatMap.2 ⟨_, hmem, mem_cons_self⟩)
  simp [hx] at hhead

theorem literals_map_heldPiece (ps : List (Piece Unit)) :
    literals (ps.map heldPiece) = literals ps := by
  rw [literals, flatMap_map]
  refine flatMap_congr fun p _ => ?_
  cases p with
  | char c => rfl
  | claimed e t =>
    by_cases hline : "//".toList <+: t
    · have hheld : isLiteral (heldText t) = false := by
        rw [heldText_of_line hline, asBlockComment_eq]
        rfl
      have ht : isLiteral t = false := by
        obtain ⟨t, rfl⟩ := hline
        rfl
      simp [heldPiece_claimed, ht, hheld]
    · simp [heldPiece_claimed, heldText_of_not_line hline]

theorem holdsInOrder_mapCode (f : Text → Text) (t : Text) :
    HoldsInOrder (literals (Text.pieces sealedClaim t)) (mapCode f t) := by
  rw [mapCode_eq_flatMap, ← flatMap_segments]
  induction segments t with
  | nil => trivial
  | cons s ss ih =>
    rw [flatMap_cons, map_cons, flatMap_cons, literals_append]
    refine .append ?_ ih
    unfold Segment.pieces Segment.mapCode
    split
    · rw [literals_chars]
      trivial
    · rw [literals_claimed]
      split
      · exact ⟨[], [], by simp, trivial⟩
      · trivial

theorem holdsInOrder_normalizeSpacing (h : Lexes [] ps []) :
    HoldsInOrder (literals ps) (normalizeSpacing (spell ps)) := by
  have hcode := holdsInOrder_mapCode spaceCode (spell ps)
  rw [pieces_eq_iff.2 ⟨rfl, h⟩] at hcode
  obtain ⟨b, b', htrim, hb, hb', -⟩ := exists_trim (mapCode spaceCode (spell ps))
  rw [htrim] at hcode
  exact (hcode.of_blanks_left hb fun _ hl => (mem_literals hl).1).of_blanks_right hb' fun _ hl =>
    (mem_literals hl).1

theorem holdsInOrder_statement {before : Text} (h : Lexes before ps v)
    (hfresh : ∀ x, (spell ps ++ v).head? = some x → isWord x = true → before.head?.any isWord =
      false) :
    HoldsInOrder (literals ps) ((Draft.statement (ps.map heldPiece)).lines.flatMap
      ('\n' :: ·)) := by
  have hlexes : Lexes [] (ps.map heldPiece) [] := lexes_held h fun x hx hword => hfresh x hx hword
  have hline := holdsInOrder_normalizeSpacing hlexes
  rw [literals_map_heldPiece] at hline
  rw [Draft.lines]
  split
  case isTrue hempty => rwa [List.isEmpty_iff.1 hempty] at hline
  case isFalse => simpa using hline.append_left ['\n']

/-- The lines, each after a line break, hold the literals of the pieces in order. -/
theorem holdsInOrder_cutDrafts (qs ps : List (Piece Unit)) (depth : Nat)
    (h : Lexes before (qs ++ ps) [])
    (hfresh : ∀ x, (spell (qs ++ ps)).head? = some x → isWord x = true → before.head?.any isWord =
      false) :
    HoldsInOrder (literals (qs ++ ps))
      (((cutDrafts (qs.map heldPiece).reverse depth ps).flatMap Draft.lines).flatMap
        ('\n' :: ·)) := by
  induction ps generalizing before qs depth with
  | nil =>
    have hline := holdsInOrder_statement (lexes_append.1 h).1 (by simpa using hfresh)
    simpa [cutDrafts] using hline
  | cons p ps ih =>
    have hparts : heldPiece p :: (qs.map heldPiece).reverse =
        ((qs ++ [p]).map heldPiece).reverse := by simp
    have hlexes : Lexes before ((qs ++ [p]) ++ ps) [] := by simpa using h
    obtain ⟨hqs, hps⟩ := lexes_append.1 hlexes
    have hbefore {x : Char} (hx : p.text.getLast? = some x) (hword : isWord x = false) :
        ((spell (qs ++ [p])).reverse ++ before).head?.any isWord = false := by
      simp [head?_append, head?_reverse, hx, hword]
    obtain ⟨depth', -, -, hcut⟩ | ⟨depth', -, -, ⟨y, hy, hmark⟩, hcut⟩ | ⟨e, t, rfl, hcomment,
        hblank, -, -, hcut⟩ :=
      cutDrafts_cons (qs.map heldPiece).reverse depth p ps <;> rw [hcut]
    · rw [hparts]
      simpa using ih (qs ++ [p]) depth' hlexes (by simpa using hfresh)
    · have hline := holdsInOrder_statement hqs (by simpa using hfresh)
      have hrest := ih [] depth' hps fun _ _ _ => hbefore hy hmark
      rw [hparts]
      simpa [literals_append, literals] using hline.append hrest
    · have hnone : literals (qs ++ .claimed e t :: ps) = literals ps := by
        have hqs : literals qs = [] := by
          rw [← literals_map_heldPiece]
          exact literals_eq_nil (by simpa using hblank)
        simp [literals_append, literals_claimed, hqs, isLiteral, hcomment]
      -- a name may follow a block comment, whose last character is a mark, but no line comment
      have hrest := ih [] depth hps fun x hx hword => by
        obtain ⟨-, ⟨-, hsealed⟩, -⟩ := lexes_append.1 hqs
        rcases Bool.or_eq_true_iff.1 hcomment with hline | hblock
        · obtain hnil | hbreak := hsealed.line_end (List.isPrefixOf_iff_prefix.1 hline)
          · simp_all
          · obtain rfl : '\n' = x := by simp_all
            exact absurd hword (by decide)
        · exact hbefore (hsealed.block_end (List.isPrefixOf_iff_prefix.1 hblock)
            (by rintro hnil; simp_all)) (by decide)
      rw [hnone]
      simpa using hrest.append_left ((Draft.comment t).lines.flatMap ('\n' :: ·))

/-! ## What the layout step keeps -/

theorem OnlyBlanksDiffer.of_around {a a' u : Text}
    (h : OnlyBlanksDiffer (a ++ (t ++ b)) (a' ++ (u ++ b')))
    (ha : ∀ x ∈ a ++ b, isBlank x = true) (ha' : ∀ x ∈ a' ++ b', isBlank x = true) :
    OnlyBlanksDiffer t u where
  same := by
    have hnil := withoutBlanks_eq_nil ha
    have hnil' := withoutBlanks_eq_nil ha'
    have hsame := h.same
    simp only [withoutBlanks_append, append_eq_nil_iff] at hsame hnil hnil'
    simpa [hnil, hnil'] using hsame
  apart p x g y q heq hne hg hx hy := by
    obtain ⟨p', g', q', heq', hne', hg', hp, hq⟩ :=
      h.apart (a ++ p) x g y (q ++ b) (by simp [heq]) hne hg hx hy
    obtain ⟨p', rfl, hrest⟩ := exists_append_of_blanks (by grind) (isBlank_of_isWord hx) heq'
    rw [show p' ++ x :: (g' ++ y :: q') = (p' ++ x :: g') ++ y :: q' by simp] at hrest
    obtain ⟨q', rfl, rfl⟩ | ⟨r, -, rfl⟩ := append_eq_append_cons hrest
    · have hnil := withoutBlanks_eq_nil ha
      have hnil' := withoutBlanks_eq_nil ha'
      simp only [withoutBlanks_append, append_eq_nil_iff] at hp hq hnil hnil'
      exact ⟨p', g', q',
        by simp, hne', hg', by simpa [hnil, hnil'] using hp, by simpa [hnil, hnil'] using hq⟩
    · have hblank := ha' y (by simp)
      rw [isBlank_of_isWord hy] at hblank
      cases hblank

theorem flatMap_lines (line : Text) (lines : List Text) :
    (line :: lines).flatMap ('\n' :: ·) = '\n' :: Text.join "\n" (line :: lines) := by
  induction lines generalizing line with
  | nil => simp [Text.join]
  | cons next lines ih =>
    rw [flatMap_cons, ih]
    simp [Text.join]

theorem exists_blanks_flatMap_lines (lines : List Text) :
    ∃ a, Blank a ∧ lines.flatMap ('\n' :: ·) = a ++ Text.join "\n" lines := by
  cases lines with
  | nil => exact ⟨[], by simp, rfl⟩
  | cons line lines => exact ⟨['\n'], by decide, flatMap_lines line lines⟩

/-- **The layout step changes layout only.** What it writes has the characters of the body's items
but for blanks, with names that blanks part still parted by blanks, and holds every terminated
literal of the body as it is, in order. -/
theorem layOut_keeps_all_but_blanks (body : Text) :
    OnlyBlanksDiffer (spell (items body)) (layOut body) ∧
      HoldsInOrder (literals (Text.pieces sealedClaim body)) (layOut body) := by
  have hflow := (reflowed_cutDrafts [] 0 (Text.pieces sealedClaim body)).onlyBlanksDiffer
  have hholds := holdsInOrder_cutDrafts [] (Text.pieces sealedClaim body) 0 (lexes_pieces body)
    fun _ _ _ => rfl
  have hlines : (cutDrafts [] 0 (Text.pieces sealedClaim body)).flatMap Draft.lines =
      statements body :=
    (statements_eq_drafts body).symm
  obtain ⟨a, ha, hjoin⟩ := exists_blanks_flatMap_lines (statements body)
  rw [List.map_nil, List.reverse_nil, hlines, hjoin] at hholds
  rw [hlines, inLines, hjoin, List.append_assoc] at hflow
  have hbreak : ∀ x ∈ a ++ ['\n'], isBlank x = true := List.forall_mem_append.2 ⟨ha, by decide⟩
  exact ⟨OnlyBlanksDiffer.of_around (a := ['\n']) (b := ['\n']) hflow (by decide) hbreak,
    hholds.of_blanks_left ha fun _ hl => (mem_literals hl).1⟩

end Lowering

end AnchorLowering
