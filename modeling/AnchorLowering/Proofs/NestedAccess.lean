import AnchorLowering.Proofs.NestedAssertion
import AnchorLowering.Proofs.OperationRun

/-!
# Account accesses in nested code

The rules for accesses through `ctx` run over the whole text and may take a literal into a match, so
what they replace is not all code. It is *neat* all the same: where a match starts in code, the
brackets of the code in it are paired (`Neat`). What is written in its place has no brackets, or is
a marker.
-/

namespace AnchorLowering

open List Pattern Source

variable {k : Char} {rule : Pattern Text} {part : String} {t w : Text} {α : Type}

namespace Source

/-! ## Neat stretches -/

/-- Where the text starts in code, the brackets of the code in it are paired. -/
def Neat (w : Text) : Prop :=
  ∀ u v, inCode (u ++ (w ++ v)) u.length = true →
    Bracketed (codeText (((marked (u ++ (w ++ v))).take (u.length + w.length)).drop u.length))

theorem neat_of_brackets_eq_nil (h : brackets w = []) : Neat w := by
  intro u v _
  refine .of_brackets_eq_nil (brackets_codeText ?_)
  rw [map_drop, map_take, map_fst_marked, drop_take_middle u w v rfl rfl]
  exact h

theorem neat_of_lexes {ps : List (Piece Unit)} (h : ∀ before rest, Lexes before ps rest)
    (hbracketed : Bracketed (codeText (markedPieces ps))) : Neat (spell ps) := by
  intro u v hcode
  by_cases hnil : spell ps = []
  · rw [hnil, length_nil, Nat.add_zero, drop_eq_nil_of_le (by simp)]
    rfl
  · obtain ⟨U, V, hmarked, hU, -⟩ := exists_marked_of_lexes (h _ v) hnil hcode
    have hlen : u.length = U.length := by rw [← hU, length_map]
    rw [hmarked, drop_take_middle U (markedPieces ps) V hlen (by rw [hlen, length_markedPieces])]
    exact hbracketed

theorem neat_plain (h : Plain w) (hbracketed : Bracketed w) : Neat w := by
  have hneat := neat_of_lexes (fun _ _ => lexes_plain h)
    (by rwa [markedPieces_chars, codeText_map_code])
  rwa [spell_chars] at hneat

theorem nested_of_brackets_eq_nil (h : brackets t = []) : Nested t :=
  .of_brackets_eq_nil (brackets_codeText (by rwa [map_fst_marked]))

/-- A plain text that is known to end with a mark. -/
theorem plain_of_suffix (h : ∀ x ∈ t, isPlain x = true) (hlast : [k] <:+ t)
    (hk : k ≠ 'b' ∧ k ≠ 'r') : Plain t where
  all := h
  last x hx := by
    obtain ⟨u, rfl⟩ := hlast
    rw [List.getLast?_concat] at hx
    obtain rfl := Option.some.inj hx
    exact hk

theorem stringTail_word {name : Text} (h : ∀ x ∈ name, isWord x = true) (rest : Text) :
    stringTail (name ++ '"' :: rest) = name.length + 1 := by
  induction name with
  | nil => rfl
  | cons x name ih =>
    obtain ⟨hx, hname⟩ := forall_mem_cons.1 h
    have hquote : x ≠ '"' := by rintro rfl; exact absurd hx (by decide)
    have hslash : x ≠ '\\' := by rintro rfl; exact absurd hx (by decide)
    rw [cons_append, stringTail, ih hname, length_cons, Nat.add_comm 1]
    · exact hquote
    · intro _ _ heq _
      exact hslash heq

/-- A name in quotes with plain text around it. -/
theorem neat_quoted {pre name post : Text} (hpre : Plain pre) (hname : ∀ x ∈ name, isWord x = true)
    (hpost : Plain post)
    (h : Bracketed (pre ++ post)) : Neat (pre ++ ('"' :: (name ++ '"' :: post))) := by
  let quoted : Text := '"' :: (name ++ ['"'])
  have hquoted : ∀ before rest, SealedAt before (quoted ++ rest) quoted.length := by
    intro before rest
    refine (SealedAt.string (.inl rfl) : SealedAt before ([] ++ '"' :: (name ++ '"' :: rest))
      _).cast (by simp [quoted]) ?_
    rw [stringTail_word hname]
    simp [quoted]
    omega
  have hlexes : ∀ before rest, Lexes before (chars pre ++ .claimed () quoted :: chars post) rest :=
    fun before rest =>
    lexes_append.2 ⟨lexes_plain hpre, ⟨cons_ne_nil _ _, hquoted _ _⟩, lexes_plain hpost⟩
  have hneat := neat_of_lexes hlexes ?_
  · simpa [quoted] using hneat
  · rw [markedPieces_append, markedPieces_claimed, markedPieces_chars, markedPieces_chars,
      codeText_append, codeText_append, codeText_map_code, codeText_map_code, codeText_map_sealed]
    exact h

/-! ## Matches that start in code -/

/-- The matches of a rule that start in code as edits, the last one first. -/
def matchEdits (rule : Pattern Text) (t : Text) : List Edit :=
  ((findAll rule t).map fun m => ⟨m.start, m.stop, m.value⟩).reverse

/-- Where the matches of a rule are replaced, what was code or sealed stays so, and what is written
is read as it is read alone. -/
def Resplices (rule : Pattern Text) (t : Text) : Prop :=
  marked (replaceFromCode rule t) = spliceMarked (marked t) (matchEdits rule t)

instance (rule : Pattern Text) (t : Text) : Decidable (Resplices rule t) :=
  inferInstanceAs (Decidable (_ = _))

/-- Where a match stands, and what it takes there. -/
theorem exists_of_mem_findAll {p : Pattern α} {R : α → Text → Prop} (hp : p.Ensures R) {m : Match α}
    (hm : m ∈ findAll p t) : ∃ u w v, t = u ++ (w ++ v) ∧ m.start = u.length ∧
    m.stop = u.length + w.length ∧ w ≠ [] ∧
      inCode t u.length = true ∧ R m.value w := by
  obtain ⟨hmem, hcode⟩ := mem_filter.1 hm
  obtain ⟨u, v, n, rfl, hstart, hstop, hfirst⟩ := mem_matchesFrom hmem
  obtain ⟨hle, hR⟩ := hp _ _ (mem_of_mem_head? hfirst)
  rw [length_nil, Nat.zero_add] at hstart
  refine ⟨u, v.take (n + 1), v.drop (n + 1), by rw [take_append_drop], hstart, ?_, ?_, ?_, hR⟩
  · rw [hstop, hstart, length_take_of_le hle]
  · exact ne_nil_of_length_pos (by rw [length_take_of_le hle]; omega)
  · rw [← hstart]
    exact hcode

/-- Stretches from left to right are edits from right to left. -/
theorem descends_reverse {limit : Nat} {edits : List Edit}
    (hpair : edits.Pairwise fun e e' => e.stop ≤ e'.start)
    (hspan : ∀ e ∈ edits, e.start < e.stop ∧ e.stop ≤ limit) : Descends limit edits.reverse := by
  induction edits using reverseRecOn generalizing limit with
  | nil => trivial
  | append_singleton edits e ih =>
    obtain ⟨hbefore, -, hlast⟩ := pairwise_append.1 hpair
    rw [reverse_append]
    obtain ⟨hlt, hle⟩ := hspan e (by simp)
    refine ⟨hle, hlt, ih hbefore fun d hd => ⟨(hspan d (by simp [hd])).1, hlast d hd e (by simp)⟩⟩

/-- **A rule with neat matches and nested values keeps nested code nested.** -/
theorem nested_replaceFromCode (hrule : rule.Ensures fun v u => Neat u ∧ Nested v)
    (h : Resplices rule t) (hnested : Nested t) : Nested (replaceFromCode rule t) := by
  have hedits : ∀ e ∈ matchEdits rule t, (e.start < e.stop ∧ e.stop ≤ (marked t).length) ∧
      Bracketed (codeText (((marked t).take e.stop).drop e.start)) ∧ Nested e.replacement := by
    intro e he
    obtain ⟨m, hm, rfl⟩ := mem_map.1 (mem_reverse.1 he)
    obtain ⟨u, w, v, rfl, hstart, hstop, hne, hcode, hneat, hvalue⟩ :=
      exists_of_mem_findAll hrule hm
    have hpos := length_pos_of_ne_nil hne
    dsimp only
    rw [hstart, hstop, length_marked]
    exact ⟨⟨by omega, by simp⟩, hneat u v hcode, hvalue⟩
  have hdescends : Descends (marked t).length (matchEdits rule t) := by
    refine descends_reverse ((Lowering.pairwise_findAll rule t).map _ fun _ _ hle => hle)
      fun e he => ?_
    exact (hedits e (mem_reverse.2 he)).1
  rw [Nested, h]
  exact (sameBrackets_spliceMarked hdescends (fun e he => (hedits e he).2.1) fun e he =>
    (hedits e he).2.2).bracketed hnested

/-- Rules that run one after the other. -/
def ResplicesAll : List (Pattern Text) → Text → Prop
  | [], _ => True
  | rule :: rules, t => Resplices rule t ∧ ResplicesAll rules (replaceFromCode rule t)

instance ResplicesAll.decide : (rules : List (Pattern Text)) → (t : Text) →
    Decidable (ResplicesAll rules t)
  | [], _ => isTrue trivial
  | rule :: rules, t =>
    have := ResplicesAll.decide rules (replaceFromCode rule t)
    inferInstanceAs (Decidable (_ ∧ _))

theorem nested_foldl_replaceFromCode {rules : List (Pattern Text)}
    (hrules : ∀ rule ∈ rules, rule.Ensures fun v u => Neat u ∧ Nested v) (h : ResplicesAll rules t)
    (hnested : Nested t) : Nested (rules.foldl (fun t rule => replaceFromCode rule t) t) := by
  induction rules generalizing t with
  | nil => exact hnested
  | cons rule rules ih =>
    have hfirst := nested_replaceFromCode (hrules rule mem_cons_self) h.1 hnested
    exact ih (fun rule hrule => hrules rule (mem_cons_of_mem _ hrule)) h.2 hfirst

/-! ## Matches in the code stretches -/

/-- A segment with the matches of a rule replaced, what is written marked as it is read alone. -/
def Segment.rewrittenMarks (rule : Pattern Text) (s : Segment) : Marked :=
  if s.isCode then
    (Text.pieces rule.firstAt s.text).flatMap fun piece =>
      match piece with
      | .char c => [(c, true)]
      | .claimed v _ => marked v
  else s.marks

/-- Where the matches of a rule in the code stretches are replaced, what was code or sealed stays
so, and what is written is read as it is read alone. -/
def Rereads (rule : Pattern Text) (t : Text) : Prop :=
  marked (replaceInCode rule t) = (segments t).flatMap (Segment.rewrittenMarks rule)

instance (rule : Pattern Text) (t : Text) : Decidable (Rereads rule t) :=
  inferInstanceAs (Decidable (_ = _))

theorem sameBrackets_rewrittenMarks (hrule : rule.Ensures fun v u => Bracketed u ∧ Nested v)
    (s : Segment) : SameBrackets (codeText s.marks) (codeText (s.rewrittenMarks rule)) := by
  obtain ⟨_ | _, t⟩ := s
  · exact .refl _
  · rw [codeText_marks, Segment.rewrittenMarks, if_pos rfl, if_pos rfl]
    dsimp only
    have hclaimed : ∀ v u, Piece.claimed v u ∈ Text.pieces rule.firstAt t → Bracketed u ∧
        Nested v := by
      intro v u hmem
      obtain ⟨_, _, n, -, hclaim, rfl⟩ := exists_claim_of_mem_scan hmem
      exact (hrule _ _ (mem_of_mem_head? hclaim)).2
    conv => lhs; rw [← Text.flatten_pieces rule.firstAt t]
    generalize Text.pieces rule.firstAt t = ps at hclaimed
    induction ps with
    | nil => exact .refl _
    | cons p ps ih =>
      rw [flatMap_cons, flatMap_cons, codeText_append]
      refine SameBrackets.append ?_ (ih fun v u hmem => hclaimed v u (mem_cons_of_mem _ hmem))
      cases p with
      | char c => exact .refl _
      | claimed v u =>
        obtain ⟨hu, hv⟩ := hclaimed v u mem_cons_self
        exact .of_bracketed hu hv

theorem nested_of_rereads (hrule : rule.Ensures fun v u => Bracketed u ∧ Nested v)
    (h : Rereads rule t) (hnested : Nested t) : Nested (replaceInCode rule t) := by
  rw [Nested, marked_eq_segments] at hnested
  rw [Nested, h]
  refine SameBrackets.bracketed ?_ hnested
  generalize segments t = ss
  induction ss with
  | nil => exact .refl _
  | cons s ss ih =>
    rw [flatMap_cons, flatMap_cons, codeText_append, codeText_append]
    exact (sameBrackets_rewrittenMarks hrule s).append ih

end Source

namespace Lowering

/-! ## The rules for `ctx` -/

theorem takesNoBracket_ctxPart (h : brackets part.toList = []) : TakesNoBracket (ctxPart part) := by
  refine Takes.wordBoundary.bind fun _ => TakesNoBracket.tokens ?_
  simp only [flatten_cons, flatten_nil, append_nil, brackets_append, h]
  rfl

theorem ensures_ctxMember (h : brackets part.toList = []) :
    (ctxMember part).Ensures fun v u => brackets u = [] ∧ brackets v = [] := by
  refine (takesNoBracket_ctxPart h).ensures.bind fun _ u hu =>
    (TakesNoBracket.spaced rfl).ensures.bind fun _ u' hu' =>
    TakesNoBracket.word.capture.mono fun v w hw => ⟨?_, hw.2⟩
  rw [brackets_append, brackets_append, hu, hu', hw.1]
  rfl

/-- Every match is plain text with the brackets `b`. -/
abbrev TakesPlain {α : Type} (b : Text) (p : Pattern α) : Prop :=
  p.Ensures fun _ u => Plain u ∧ brackets u = b

theorem TakesPlain.bind {β : Type} {p : Pattern α} {q : α → Pattern β} {b b' : Text}
    (hp : TakesPlain b p) (hq : ∀ a, TakesPlain b' (q a)) : TakesPlain (b ++ b') (p >>= q) :=
  Ensures.bind hp fun a _ hu => (hq a).mono fun _ _ hv =>
    ⟨hu.1.append hv.1, by rw [brackets_append, hu.2, hv.2]⟩

theorem takesPlain_lit (h : Plain t) : TakesPlain (brackets t) (lit t) :=
  (Ensures.lit t).mono fun _ _ hu => by
    rw [hu]
    exact ⟨h, rfl⟩

theorem takesPlain_blanks : TakesPlain [] blanks :=
  (Ensures.of_takes (Takes.many fun _ hx => hx : Takes (fun x => isBlank x = true) blanks)).mono
    fun _ _ h =>
    ⟨plain_blanks h, brackets_of_blank h⟩

theorem takesPlain_wordBoundary : TakesPlain [] wordBoundary :=
  (Ensures.of_takes (Takes.wordBoundary : Takes (fun _ => False) _)).mono fun _ u h => by
    obtain rfl : u = [] := eq_nil_iff_forall_not_mem.2 h
    exact ⟨by decide, rfl⟩

/-- Tokens of plain text that end with a mark. -/
theorem takesPlain_tokens {ts : List Text} (h : ∀ t ∈ ts, ∀ x ∈ t, isPlain x = true)
    (hlast : ts.getLast? = some [k])
    (hk : k ≠ 'b' ∧ k ≠ 'r') : TakesPlain (brackets ts.flatten) (tokens ts) :=
  ((Ensures.of_takes (takes_tokens (fun _ => isPlain_of_isBlank) h)).and
    ((Neutral.suffix_tokens ts).and (Neutral.brackets_tokens ts))).mono fun _ _ ⟨hall, hsuffix,
    hbrackets⟩ =>
      ⟨plain_of_suffix hall (hsuffix _ hlast) hk, hbrackets⟩

theorem takesPlain_unwrap : TakesPlain "()".toList (do spaced "."; tokens ["unwrap", "(", ")"]) :=
  TakesPlain.bind (takesPlain_blanks.bind fun _ => (takesPlain_lit (by decide)).bind fun _ =>
    takesPlain_blanks) fun _ =>
    takesPlain_tokens (by decide) rfl (by decide)

/-- A bump in quotes is plain text around a literal. -/
theorem ensures_bumpLookup : bumpLookup.Ensures fun v u => Neat u ∧ Nested v := by
  have hhead : TakesPlain "(".toList (tokens ["ctx", ".", "bumps", ".", "get", "("]) :=
    takesPlain_tokens (by decide) rfl (by decide)
  have hparen : TakesPlain ")".toList (lit ")") := takesPlain_lit (by decide)
  refine Ensures.bind takesPlain_wordBoundary fun _ u hu => Ensures.bind hhead fun _ u' hu' =>
    Ensures.bind takesPlain_blanks fun _ g hg => (Ensures.lit _).bind fun _ _ hopen =>
      (Ensures.of_takes takes_word).capture.bind fun account _ ⟨hname, _, hword⟩ =>
      (Ensures.lit _).bind fun _ _ hclose =>
        Ensures.bind takesPlain_blanks fun _ g' hg' => Ensures.bind hparen fun _ c hc =>
          (Ensures.opt takesPlain_unwrap).bind fun _ w hw => .pure ⟨?_, ?_⟩
  · subst hopen hclose hname
    obtain ⟨hplain, hbracketed⟩ : Plain w ∧ Bracketed w := by
      obtain ⟨_, -, hplain, hbrackets⟩ | ⟨-, rfl⟩ := hw
      · refine ⟨hplain, ?_⟩
        rw [← bracketed_brackets, hbrackets]
        decide
      · exact ⟨by decide, rfl⟩
    have hneat := neat_quoted ((hu.1.append hu'.1).append hg.1) hword
      ((hg'.1.append hc.1).append hplain) ?_
    · simpa using hneat
    · rw [← append_assoc]
      refine Bracketed.append ?_ hbracketed
      rw [← bracketed_brackets]
      simp only [brackets_append, hu.2, hu'.2, hg.2, hg'.2, hc.2]
      decide
  · subst hname
    refine nested_of_brackets_eq_nil ?_
    rw [bumpName, brackets_append, brackets_of_word hword]
    rfl

theorem ensures_conversion :
    (do blanks; tokens [".", "to_account_info", "(", ")"]; return [] : Pattern Text).Ensures
    fun v u => Neat u ∧ Nested v := by
  have htokens : TakesPlain "()".toList (tokens [".", "to_account_info", "(", ")"]) :=
    takesPlain_tokens (by decide) rfl (by decide)
  refine Ensures.bind takesPlain_blanks fun _ g hg => Ensures.bind htokens fun _ w hw =>
    .pure ⟨?_, rfl⟩
  rw [append_nil]
  refine neat_plain (hg.1.append hw.1) ?_
  rw [← bracketed_brackets, brackets_append, hg.2, hw.2]
  decide

/-- A rule without brackets on either side is neat. -/
theorem ensures_neat (h : rule.Ensures fun v u => brackets u = [] ∧ brackets v = []) :
    rule.Ensures fun v u => Neat u ∧ Nested v :=
  h.mono fun _ _ h => ⟨neat_of_brackets_eq_nil h.1, nested_of_brackets_eq_nil h.2⟩

theorem ensures_accessRules : ∀ rule ∈ accessRules, rule.Ensures fun v u => Neat u ∧ Nested v := by
  have hpart : ∀ {part : String}, brackets part.toList = [] → ∀ {v : Text}, brackets v = [] →
      (do ctxPart part; wordBoundary; return v : Pattern Text).Ensures fun v u => brackets u = [] ∧
      brackets v = [] :=
    fun {part} hpart {v} hv => (takesNoBracket_ctxPart hpart).ensures.bind fun _ u hu =>
      TakesNoBracket.wordBoundary.ensures.bind fun _ w hw => .pure ⟨by
        rw [brackets_append, brackets_append, hu, hw]
        rfl, hv⟩
  simp only [accessRules, forall_mem_cons]
  refine ⟨ensures_bumpLookup, ensures_neat ?_, ensures_neat (ensures_ctxMember rfl),
    ensures_neat (hpart rfl rfl),
    ensures_neat (hpart rfl rfl), ensures_conversion, fun _ hmem => absurd hmem not_mem_nil⟩
  refine (ensures_ctxMember rfl).bind fun v u h => .pure ⟨?_, ?_⟩
  · rw [append_nil, h.1]
  · rw [bumpName, brackets_append, h.2]
    rfl

theorem ensures_leftoverAccounts : leftoverAccounts.Ensures fun v u => Bracketed u ∧ Nested v := by
  have hfragment : TakesNoBracket
      (do let _ ← opt (lit "&"); blanks; ctxPart "accounts"; wordBoundary) :=
    (Takes.opt (TakesNoBracket.lit rfl)).bind fun _ => TakesNoBracket.blanks.bind fun _ =>
      (takesNoBracket_ctxPart rfl).bind fun _ => TakesNoBracket.wordBoundary
  refine hfragment.capture.bind fun _ u hu => .pure ⟨?_, nested_marker (by decide) _⟩
  rw [append_nil]
  exact .of_brackets_eq_nil hu.1

/-- What keeps a body nested in the step for account accesses: nothing is read otherwise where its
matches meet the rest. -/
@[mk_iff]
structure CleanAccess (body : Text) : Prop where
  flattens : ResplicesAll accessRules body
  marks : Rereads leftoverAccounts (flattenAccess body)

instance (body : Text) : Decidable (CleanAccess body) :=
  decidable_of_iff _ (cleanAccess_iff ..).symm

/-- **The step for account accesses keeps nested code nested.** -/
theorem nested_lowerAccess {body : Text} (hnested : Nested body) (h : CleanAccess body) :
    Nested (lowerAccess body) :=
  nested_of_rereads ensures_leftoverAccounts h.marks
    (nested_foldl_replaceFromCode ensures_accessRules h.flattens hnested)

end Lowering

end AnchorLowering
