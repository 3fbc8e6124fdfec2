import AnchorLowering.Lowering.SequenceAccess
import AnchorLowering.Proofs.CommentSearch

/-!
# What names a sequence operation

The search for operations and the search for aliases both stop at slashes and start at names, so
comments reach them only through a match that starts in a comment. An operation that is found takes
names, dots and blanks; an opening bracket follows it, and no name ends before it.
-/

namespace AnchorLowering

open List Pattern Source Lowering

variable {c : Cursor} {n : Nat} {t : Text}

/-! ## Common parts -/

namespace Pattern.StopsAt

theorem blanks : StopsAt '/' Pattern.blanks := many (by decide)

theorem blanks1 : StopsAt '/' Pattern.blanks1 := (one (by decide)).bind fun _ => many (by decide)

theorem word : StopsAt '/' Pattern.word := (one (by decide)).bind fun _ => many (by decide)

theorem spaced (h : '/' ∉ t) : StopsAt '/' (Pattern.spaced t) :=
  blanks.bind fun _ => (lit h).bind fun _ => blanks

/-- Tokens without a slash do not look past one. -/
theorem tokens : ∀ {ts : List Text}, (∀ t ∈ ts, '/' ∉ t) → StopsAt '/' (Pattern.tokens ts)
  | [], _ => pure ()
  | [_], h => lit (h _ mem_cons_self)
  | _ :: t :: rest, h => (lit (h _ mem_cons_self)).bind fun _ => blanks.bind fun _ =>
    @tokens (t :: rest) fun u hu => h u (mem_cons_of_mem _ hu)

end Pattern.StopsAt

/-! ## Where the searches stop -/

theorem stopsAt_chain : StopsAt '/' chain :=
  .star (StopsAt.wordBoundary.bind fun _ => StopsAt.word.bind fun _ => .spaced (by decide))

theorem stopsAt_sequencePlace : StopsAt '/' sequencePlace :=
  stopsAt_chain.capture.bind fun _ => StopsAt.wordBoundary.bind fun _ =>
    StopsAt.word.capture.bind fun _ => .pure _

/-- A call of a sequence does not look past a slash, so not into a comment. -/
theorem stopsAt_sequenceCall : StopsAt '/' sequenceCall :=
  stopsAt_sequencePlace.bind fun _ => (StopsAt.spaced (by decide)).bind fun _ =>
    (StopsAt.choose (by decide)).bind fun _ => StopsAt.wordBoundary.bind fun _ =>
      (StopsAt.blanks.bind fun _ => .lit (by decide)).ahead.bind fun _ => .pure _

theorem stopsAt_aliasBinding : StopsAt '/' Context.aliasBinding := by
  have hmut : StopsAt '/' (do lit "mut"; blanks1) :=
    (StopsAt.lit (by decide)).bind fun _ => .blanks1
  have hlet : StopsAt '/' letKeyword :=
    StopsAt.wordBoundary.bind fun _ => (StopsAt.lit (by decide)).bind fun _ =>
      StopsAt.blanks1.bind fun _ => hmut.opt.bind fun _ => .pure _
  have hborrow : StopsAt '/' borrow :=
    (StopsAt.lit (by decide)).bind fun _ => StopsAt.blanks.bind fun _ => hmut.opt.bind
      fun _ => .pure _
  have hpath : StopsAt '/' (do tokens ["ctx", ".", "accounts", "."]; blanks) :=
    (StopsAt.tokens (by decide)).bind fun _ => .blanks
  exact hlet.bind fun _ => StopsAt.word.capture.bind fun _ => (StopsAt.spaced (by decide)).bind
    fun _ =>
    hborrow.opt.bind fun _ => hpath.opt.bind fun _ => StopsAt.word.capture.bind fun _ =>
      StopsAt.blanks.bind fun _ => (StopsAt.lit (by decide)).bind fun _ => .pure _

/-! ## Where the searches start -/

theorem startsWithWord_link : StartsWithWord link :=
  .bind_after (fun _ _ hr => .inl (mem_wordBoundary.1 hr).2) fun _ => StartsWithWord.word.bind

theorem startsWithWord_sequencePlace : StartsWithWord sequencePlace := by
  refine .bind_after (fun c r hr => ?_) fun _ =>
    .bind_after (fun _ _ hr => .inl (mem_wordBoundary.1 hr).2) fun _ =>
      StartsWithWord.word.capture.bind
  obtain ⟨s, hs, rfl⟩ := mem_capture.1 hr
  exact (mem_star_cases hs).imp_right (startsWithWord_link c)

theorem startsWithWord_sequenceCall : StartsWithWord sequenceCall :=
  startsWithWord_sequencePlace.bind

theorem startsWithWord_aliasBinding : StartsWithWord Context.aliasBinding := by
  have hlet : StartsWithWord letKeyword :=
    .bind_after (fun _ _ hr => .inl (mem_wordBoundary.1 hr).2) fun _ =>
      (StartsWithWord.lit (by decide)).bind
  exact hlet.bind

/-! ## What is read -/

/-- A character of a dotted name. -/
def DottedChar (x : Char) : Prop := isWord x = true ∨ x = '.'

/-- The name of a sequence is a name, and its receiver is empty or a dotted name. -/
structure Lowering.SequencePlace.WellNamed (place : SequencePlace) : Prop where
  name_ne_nil : place.name ≠ []
  name : ∀ x ∈ place.name, isWord x = true
  receiver : ∀ x ∈ place.receiver, DottedChar x
  receiver_head : place.receiver ≠ [] → place.receiver.head?.any isWord = true

/-- A boundary before a word is one where no name ends. -/
theorem no_name_before {r : Unit × Nat} (h : r ∈ wordBoundary c)
    (hword : c.after.head?.any isWord = true) : c.before.head?.any isWord = false := by
  have := (mem_wordBoundary.1 h).1
  rw [hword] at this
  simpa using this

/-- A link of a chain starts where no name ends. -/
theorem no_name_before_link (h : link c ≠ []) : c.before.head?.any isWord = false := by
  have hword := startsWithWord_link c h
  obtain ⟨r, hr⟩ := exists_mem_of_ne_nil _ h
  obtain ⟨s, hs, -⟩ := mem_bind.1 hr
  exact no_name_before hs hword

theorem takes_word : Takes (fun x => isWord x = true) Pattern.word :=
  (Takes.one fun _ h => h).bind fun _ => .many fun _ h => h

/-- What is read of a dotted name: the names, the dots and the blanks around them. -/
abbrev DottedText (x : Char) : Prop := DottedChar x ∨ isBlank x = true

/-- A character of a dotted name with blanks. -/
def isDotted (x : Char) : Bool := isWord x || x == '.' || isBlank x

theorem isDotted_iff {x : Char} : isDotted x = true ↔ DottedText x := by
  simp only [isDotted, DottedText, DottedChar, Bool.or_eq_true, beq_iff_eq]

theorem takes_spaced_dot : Takes DottedText (spaced ".") := by
  have hblanks : Takes DottedText blanks := .many fun _ h => .inr h
  have hdot : Takes DottedText (lit ".") := .lit fun x hx => .inl (.inr (by simpa using hx))
  exact hblanks.bind fun _ => hdot.bind fun _ => hblanks

theorem takes_name : Takes DottedText Pattern.word := takes_word.mono fun _ h => .inl (.inl h)

theorem takes_chain : Takes DottedText chain :=
  .star <| Takes.wordBoundary.bind fun _ => takes_name.bind fun _ => takes_spaced_dot

theorem takes_sequencePlace : Takes DottedText sequencePlace :=
  takes_chain.capture.bind fun _ => Takes.wordBoundary.bind fun _ =>
    takes_name.capture.bind fun _ => .pure _

/-- A call of a sequence is taken from dotted text. -/
theorem takes_sequenceCall : Takes DottedText sequenceCall := by
  have hnames : ∀ e ∈ SequenceOp.table, e.1.toList.all isWord = true := by decide
  have hop : Takes (fun x => isWord x = true) SequenceOp.pattern :=
    .choose fun e he => all_eq_true.1 (hnames e he)
  exact takes_sequencePlace.bind fun _ => takes_spaced_dot.bind fun _ =>
    (hop.mono fun _ h => .inl (.inl h)).bind fun _ => Takes.wordBoundary.bind fun _ =>
      Takes.ahead.bind fun _ => .pure _

/-- The first character of a dotted name is kept when the blanks are left out. -/
theorem head?_withoutBlanks (h : t.head?.any isWord = true) :
    (Text.withoutBlanks t).head?.any isWord = true := by
  cases t with
  | nil => simp at h
  | cons x t =>
    have hx : isWord x = true := by simpa using h
    simp [Text.withoutBlanks, isBlank_of_isWord hx, hx]

/-- Where a place is named no name ends before it, and it takes names, dots and blanks. -/
theorem mem_sequencePlace {place : SequencePlace} (h : (place, n) ∈ sequencePlace c) :
    place.WellNamed ∧ c.before.head?.any isWord = false ∧ n ≤ c.after.length ∧
    ∀ x ∈ c.after.take n, DottedText x := by
  have hword := startsWithWord_sequencePlace c (ne_nil_of_mem h)
  obtain ⟨hlen, hchars⟩ := takes_sequencePlace c _ h
  obtain ⟨r, hr, s, hs, hrs⟩ := mem_bind.1 h
  obtain ⟨q, hq, rfl⟩ := mem_capture.1 hr
  obtain ⟨b, hb, s', hs', hbs⟩ := mem_bind.1 hs
  obtain ⟨w, hw, e, he, hwe⟩ := mem_bind.1 hs'
  obtain ⟨q', hq', rfl⟩ := mem_capture.1 hw
  obtain ⟨hqlen, hqchars⟩ := takes_chain c q hq
  obtain ⟨hnlen, hnchars⟩ := takes_word _ q' hq'
  obtain rfl : place = ⟨Text.withoutBlanks (c.after.take q.2),
      ((c.advance q.2).advance b.2).after.take q'.2⟩ := by
    rw [pure_apply, mem_singleton] at he
    rw [(Prod.mk.inj hrs).1, hbs, hwe, he]
  refine ⟨⟨?_, hnchars, fun x hx => ?_, fun hne => ?_⟩, ?_, hlen, hchars⟩
  · obtain ⟨x, hx, y, -, hxw⟩ := mem_bind.1 hq'
    have hone : x.2 = 1 := (mem_one.1 hx).choose_spec.2.2
    have hpos : q'.2 ≠ 0 := by
      rw [hxw, hone]
      simp
    rw [ne_eq, take_eq_nil_iff, not_or]
    refine ⟨hpos, fun hnil => hpos (Nat.le_zero.1 ?_)⟩
    rwa [hnil] at hnlen
  · obtain ⟨hx, hblank⟩ := mem_filter.1 hx
    exact (hqchars x hx).resolve_right (by simpa using hblank)
  · refine head?_withoutBlanks ?_
    have hpos : q.2 ≠ 0 := by
      intro hzero
      exact hne (by rw [hzero]; rfl)
    rwa [head?_take, if_neg hpos]
  · obtain hzero | hlink := mem_star_cases hq
    · rw [hzero, Cursor.advance_zero] at hb
      exact no_name_before hb hword
    · exact no_name_before_link hlink

/-- An operation that is found names a place, takes names, dots and blanks, and is followed by an
opening bracket. -/
theorem mem_sequenceCall {value : SequencePlace × SequenceOp} (h : (value, n) ∈ sequenceCall c) :
    value.1.WellNamed ∧ value.2 ∈ SequenceOp.table.map (·.2) ∧ c.before.head?.any isWord = false ∧
      (∀ x ∈ c.after.take n, DottedText x) ∧
      ∃ gap rest, Blank gap ∧ c.after.drop n = gap ++ '(' :: rest := by
  have hchars := (takes_sequenceCall c _ h).2
  obtain ⟨place, hplace, s₁, h₁, e₁⟩ := mem_bind.1 h
  obtain ⟨dot, hdot, s₂, h₂, e₂⟩ := mem_bind.1 h₁
  obtain ⟨op, hop, s₃, h₃, e₃⟩ := mem_bind.1 h₂
  obtain ⟨boundary, hboundary, s₄, h₄, e₄⟩ := mem_bind.1 h₃
  obtain ⟨bracket, hbracket, s₅, h₅, e₅⟩ := mem_bind.1 h₄
  obtain rfl := mem_singleton.1 h₅
  obtain ⟨hwell, hfresh, -, -⟩ := mem_sequencePlace hplace
  obtain ⟨hahead, hzero⟩ := mem_ahead.1 hbracket
  rw [(mem_wordBoundary.1 hboundary).2] at e₄ hahead
  subst e₅ e₄ e₃ e₂
  obtain ⟨rfl, rfl⟩ := Prod.mk.inj e₁
  obtain ⟨entry, hentry, -, hvalue⟩ := mem_choose.1 hop
  have hknown : op.1 ∈ SequenceOp.table.map (·.2) :=
    mem_map.2 ⟨entry, hentry, by rw [hvalue]⟩
  refine ⟨hwell, hknown, hfresh, hchars, ?_⟩
  obtain ⟨⟨u, k⟩, hr⟩ := exists_mem_of_ne_nil _ hahead
  obtain ⟨_, rest, hafter, -, hway⟩ := (mem_iff_way (Bounded.many.bind fun _ => Bounded.lit)).1 hr
  simp only [way_bind, way_many, way_lit] at hway
  obtain ⟨-, gap, _, rfl, hgap, rfl⟩ := hway
  refine ⟨gap, rest, hgap, ?_⟩
  simp only [Cursor.after_advance, drop_drop, hzero, Nat.add_zero] at hafter ⊢
  rw [← Nat.add_assoc, hafter]
  simp

/-! ## The pieces of an operation -/

theorem isPlain_of_dottedText {x : Char} (h : DottedText x) : isPlain x = true := by
  obtain (h | rfl) | h := h
  · exact isPlain_of_isWord h
  · decide
  · exact isPlain_of_isBlank h

/-- A place in code is a piece of its own. -/
theorem exists_piece_of_code {ps : List (Piece Unit)} {i : Nat} (hi : i < (spell ps).length)
    (h : (marks ps).getD i true = true) :
    ∃ P c Q, ps = P ++ .char c :: Q ∧ (spell P).length = i := by
  induction ps generalizing i with
  | nil => simp at hi
  | cons p ps ih =>
    cases p with
    | char c =>
      cases i with
      | zero => exact ⟨[], c, ps, rfl, rfl⟩
      | succ i =>
        obtain ⟨P, d, Q, rfl, hP⟩ := ih (by simpa using hi) (by simpa using h)
        exact ⟨.char c :: P, d, Q, rfl, by simp [hP]⟩
    | claimed u t =>
      rw [marks_claimed] at h
      by_cases hit : i < t.length
      · rw [getD_append _ _ _ _ (by simpa using hit)] at h
        simp [getD_eq_getElem?_getD, hit] at h
      · rw [getD_append_right _ _ _ _ (by simpa using hit), length_replicate] at h
        obtain ⟨P, d, Q, rfl, hP⟩ := ih (by simp at hi; omega) h
        exact ⟨.claimed u t :: P, d, Q, rfl, by simp [hP]; omega⟩

/-- The text of an operation that is found, up to its opening bracket, in a list of pieces. -/
structure Lowering.CallPieces (m : Match (SequencePlace × SequenceOp))
    (ps : List (Piece Unit)) where
  before : List (Piece Unit)
  head : Text
  gap : Text
  after : List (Piece Unit)
  pieces_eq : ps = before ++ chars (head ++ gap ++ ['(']) ++ after
  start_eq : (spell before).length = m.start
  stop_eq : m.stop = m.start + head.length
  head_word : head.head?.any isWord = true
  head_dotted : ∀ x ∈ head, DottedText x
  gap_blank : ∀ x ∈ gap, isBlank x = true
  no_name_before : (spell before).getLast?.any isWord = false
  wellNamed : m.value.1.WellNamed
  known : m.value.2 ∈ SequenceOp.table.map (·.2)

/-- An operation that is found in code is code up to its opening bracket. -/
theorem exists_callPieces {m : Match (SequencePlace × SequenceOp)}
    (h : m ∈ Source.findAll sequenceCall t) :
    Nonempty (CallPieces m (Text.pieces sealedClaim t)) := by
  obtain ⟨hm, hcode⟩ := mem_filter.1 h
  obtain ⟨u, v, n, ht, hstart, hstop, hfirst⟩ := mem_matchesFrom hm
  rw [append_nil] at hfirst
  have hmem : (m.value, n + 1) ∈ sequenceCall ⟨u.reverse, v⟩ := mem_of_mem_head? hfirst
  obtain ⟨hwell, hknown, hfresh, hchars, gap, rest, hgap, hrest⟩ := mem_sequenceCall hmem
  have hword := startsWithWord_sequenceCall _ (ne_nil_of_mem hmem)
  obtain ⟨hlen, -⟩ := takes_sequenceCall _ _ hmem
  obtain ⟨P, c, Q, hps, hP⟩ : ∃ P c Q, Text.pieces sealedClaim t = P ++ .char c :: Q ∧
      (spell P).length = m.start := by
    refine exists_piece_of_code ?_ hcode
    have hv : 0 < v.length := by
      cases v with
      | nil => simp at hword
      | cons x v => simp
    rw [spell_pieces, ht, length_append, hstart]
    simpa using hv
  have hspell : spell P ++ c :: spell Q = u ++ v := by
    rw [← ht, ← spell_pieces t, hps]
    simp
  obtain ⟨hPu, hQv⟩ := List.append_inj hspell (by rw [hP, hstart]; simp)
  have hhead : v.take (n + 1) ++ gap ++ ['('] ++ rest = v := by
    rw [append_assoc, append_assoc, singleton_append, ← hrest, take_append_drop]
  have hlexQ : Lexes u.reverse (.char c :: Q) [] := by
    have := (lexes_append.1 (hps ▸ lexes_pieces t)).2
    rwa [hPu, append_nil] at this
  have hplain : Plain (v.take (n + 1) ++ gap ++ ['(']) := by
    refine ⟨fun x hx => ?_, fun x hx => ?_⟩
    · simp only [mem_append, mem_singleton] at hx
      obtain (hx | hx) | rfl := hx
      · exact isPlain_of_dottedText (hchars x hx)
      · exact isPlain_of_isBlank (hgap x hx)
      · decide
    · obtain rfl : '(' = x := by simpa using hx
      decide
  -- the scan reads the pieces that are there, and it reads the operation as code
  have hlexH : Lexes u.reverse (chars (v.take (n + 1) ++ gap ++ ['('])) rest := lexes_plain hplain
  have hscanQ := scan_of_lexes hlexQ
  have hscanH := scan_of_lexes hlexH
  rw [spell_chars, hhead] at hscanH
  rw [append_nil, spell_cons, Piece.text_char, singleton_append, hQv, hscanH] at hscanQ
  rw [Text.scan, append_nil] at hscanQ
  obtain ⟨after, hafter⟩ : ∃ after, Piece.char c :: Q =
      chars (v.take (n + 1) ++ gap ++ ['(']) ++ after := ⟨_, hscanQ.symm⟩
  refine ⟨⟨P, v.take (n + 1), gap, after, ?_, hP, ?_, ?_, hchars, hgap, ?_, hwell, hknown⟩⟩
  · rw [hps, append_assoc, hafter]
  · rw [hstop, length_take, Nat.min_eq_left hlen]
  · rwa [head?_take, if_neg (Nat.succ_ne_zero n)]
  · rwa [hPu, ← head?_reverse]

end AnchorLowering
