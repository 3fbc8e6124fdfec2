import AnchorLowering.Proofs.OperationShell

/-!
# Lowering one operation

Lowering one operation replaces code around its arguments and keeps every other piece of the body.
Two bodies that are alike but for comments are so still when one operation is lowered in both.
-/

namespace AnchorLowering.Lowering

open List Pattern Source

variable {f : SequenceField} {ps ps' qs : List (Piece Unit)}

/-! ## Where a statement starts -/

/-- A statement starts after the piece. -/
def startsAfter : Option (Piece Unit) → Bool
  | none => true
  | some (.char c) => c == ';' || c == '\x7b' || c == '\x7d'
  | some (.claimed _ _) => false

/-- Whether a statement starts is read off the last piece that is no blank, unless that is a line
comment. -/
theorem startsStatement_spell {b rest : Text} (h : Lexes [] (qs ++ chars b) rest)
    (hrest : rest ≠ []) (hb : Blank b) (hqs : ∀ p, qs.getLast? = some p → isGap p = false)
    (hline : startsStatement (spell (qs ++ chars b) ++ rest) (spell (qs ++ chars b)).length = true →
      endsInLineComment (spell (qs ++ chars b)) = false) :
    startsStatement (spell (qs ++ chars b) ++ rest) (spell (qs ++ chars b)).length =
    startsAfter qs.getLast? := by
  have hlex := (lexes_append.1 h).1
  rw [spell_chars] at hlex
  rw [endsInLineComment_spell h rfl hb hqs] at hline
  by_cases hcomment : qs.getLast?.any isLineComment = true
  · -- a statement would start after a line comment
    have hfalse : startsStatement (spell (qs ++ chars b) ++ rest) (spell (qs ++ chars b)).length =
        false := by
      by_contra hstarts
      rw [hline (by simpa using hstarts)] at hcomment
      cases hcomment
    rw [hfalse]
    cases hlast : qs.getLast? with
    | none => simp [hlast] at hcomment
    | some p =>
      cases p with
      | char c => simp [hlast, isLineComment] at hcomment
      | claimed u t => rfl
  · have hcomment : qs.getLast?.any isLineComment = false := by simpa using hcomment
    have htrim : Text.trimRight (spell qs ++ b) = spell qs :=
      trimRight_append hb fun x hx =>
        getLast?_spell_not_blank hlex (by simp [hrest]) hqs hcomment hx
    rw [startsStatement, take_left, spell_append, spell_chars, htrim]
    cases hlast : qs.getLast? with
    | none =>
      rw [getLast?_eq_none_iff.1 hlast]
      rfl
    | some p =>
      cases p with
      | char c =>
        obtain ⟨rs, rfl⟩ := getLast?_eq_some_iff.1 hlast
        simp [startsAfter]
      | claimed u t =>
        rw [hlast] at hcomment
        obtain ⟨x, hx, hplain⟩ := getLast?_spell_claimed hlex (by simp [hrest]) hlast hcomment
        rw [hx]
        have hne : ∀ y, isPlain y = true → x ≠ y := by
          rintro y hy rfl
          rw [hy] at hplain
          cases hplain
        simp [startsAfter, hne ';' (by decide), hne '\x7b' (by decide), hne '\x7d' (by decide)]

theorem startsAfter_of_alike {qs' : List (Piece Unit)} (h : Forall₂ AlikePiece qs qs') :
    startsAfter qs.getLast? = startsAfter qs'.getLast? := by
  cases hlast' : qs'.getLast? with
  | none =>
    obtain rfl := getLast?_eq_none_iff.1 hlast'
    rw [forall₂_nil_right_iff.1 h]
    rfl
  | some p' =>
    obtain ⟨p, hlast, hp⟩ := getLast?_of_alike h hlast'
    rw [hlast]
    cases hp <;> rfl

/-- A statement starts at the same places in texts that are alike but for comments. -/
theorem startsStatement_of_alike {P P' : List (Piece Unit)} {rest rest' : Text}
    (hP : Lexes [] P rest) (hP' : Lexes [] P' rest') (hrest : rest ≠ []) (hrest' : rest' ≠ [])
    (h : Forall₂ AlikePiece P P')
    (hline : startsStatement (spell P ++ rest) (spell P).length = true →
      endsInLineComment (spell P) = false)
    (hline' : startsStatement (spell P' ++ rest') (spell P').length = true →
      endsInLineComment (spell P') = false) :
    startsStatement (spell P ++ rest) (spell P).length = startsStatement (spell P' ++ rest')
      (spell P').length := by
  obtain ⟨qs, b, rfl, hb, hqs⟩ := exists_gap_right P
  obtain ⟨qs', bs, rfl, hqs', hbs⟩ := alike_append_left h
  obtain rfl := eq_chars_of_alike hbs
  have hgap : ∀ p, qs'.getLast? = some p → isGap p = false := by
    intro p' hp'
    obtain ⟨p, hp, halike⟩ := getLast?_of_alike hqs' hp'
    exact (isGap_of_alike halike).symm.trans (hqs p hp)
  rw [startsStatement_spell hP hrest hb hqs hline, startsStatement_spell hP' hrest' hb hgap hline',
    startsAfter_of_alike hqs']

/-! ## The arguments of an operation -/

/-- The argument list of an operation in the pieces after its opening bracket. -/
structure ArgumentPieces (ps : List (Piece Unit)) where
  inner : List (Piece Unit)
  closer : Char
  rest : List (Piece Unit)
  pieces_eq : ps = inner ++ .char closer :: rest
  isCloser_closer : isCloser closer = true
  offset_eq : partnerOffset 1 (markedPieces ps) = some (spell inner).length
  trimmed : Trimmed inner

theorem exists_argumentPieces {k : Nat}
    (h : partnerOffset 1 (markedPieces ps) = some k) : Nonempty (ArgumentPieces ps) := by
  obtain ⟨inner, closer, rest, hps, hcloser, hlen⟩ := exists_closer h
  obtain ⟨trimmed⟩ := exists_trimmed inner
  exact ⟨⟨inner, closer, rest, hps, hcloser, by rw [h, hlen], trimmed⟩⟩

theorem ArgumentPieces.exists_alike (a : ArgumentPieces ps) (h : Forall₂ AlikePiece ps ps') :
    ∃ a' : ArgumentPieces ps', a'.closer = a.closer ∧ Forall₂ AlikePiece a.rest a'.rest ∧
      Forall₂ AlikePiece a.trimmed.solid a'.trimmed.solid := by
  obtain ⟨inner, closer, rest, rfl, hcloser, hoffset, trimmed⟩ := a
  obtain ⟨inner', qs, rfl, hinner, hqs⟩ := alike_append_left h
  obtain ⟨p, rest', hp, hrest, rfl⟩ := forall₂_cons_left_iff.1 hqs
  cases hp
  obtain ⟨trimmed', -, -, hsolid⟩ := trimmed.exists_alike hinner
  refine ⟨⟨inner', closer, rest', rfl, hcloser, ?_, trimmed'⟩, rfl, hrest, hsolid⟩
  rw [← partnerOffset_of_alike h, hoffset, length_spell_of_alike hinner]

/-- What follows an operation and is lowered with it. -/
def SequenceOp.suffix (op : SequenceOp) (starts : Bool) (rest : List (Piece Unit)) : Text :=
  match op with
  | .push | .extend => suffixAfter starts rest
  | _ => []

theorem eq_append_suffix (op : SequenceOp) (starts : Bool) (ps : List (Piece Unit)) :
    ps = chars (op.suffix starts ps) ++ ps.drop (op.suffix starts ps).length ∧
      ∀ x, (op.suffix starts ps).getLast? = some x → x = '?' ∨ x = ';' := by
  cases op with
  | push | extend => exact eq_append_suffixAfter starts ps
  | _ => exact ⟨rfl, by simp [SequenceOp.suffix]⟩

theorem suffix_of_alike (h : Forall₂ AlikePiece ps ps') (op : SequenceOp)
    (starts : Bool) : op.suffix starts ps = op.suffix starts ps' := by
  cases op with
  | push | extend => exact suffixAfter_of_alike h starts
  | _ => rfl

theorem stop_spell {before : Text} (h : Lexes before ps []) (op : SequenceOp) (x : Text)
    (start : Nat) :
    op.stop (x ++ spell ps) start x.length =
      x.length + (op.suffix (startsStatement (x ++ spell ps) start) ps).length := by
  cases op with
  | push | extend =>
    rw [SequenceOp.suffix, SequenceOp.stop]
    exact stop_suffixAfter h x _
  | _ => rfl

/-- The pieces that a lowered operation leaves from its place on: the arguments in the shell, and
what follows. -/
def ArgumentPieces.lowered {ps : List (Piece Unit)} (a : ArgumentPieces ps)
    (value : SequencePlace × SequenceOp) (f : SequenceField) (starts : Bool) : List (Piece Unit) :=
  let shell := value.2.shell value.1.receiver f (word.readAll? (spell a.trimmed.solid)).isSome
  chars shell.1 ++ a.trimmed.solid ++ chars shell.2 ++
    a.rest.drop (value.2.suffix starts a.rest).length

theorem spell_eq_of_alike (h : Forall₂ AlikePiece ps ps')
    (hword : ∀ x ∈ spell ps, isWord x = true) : spell ps' = spell ps := by
  induction h with
  | nil => rfl
  | @cons p p' ps ps' hp _ ih =>
    rw [spell_cons] at hword
    cases hp with
    | same p =>
      rw [spell_cons, spell_cons, ih fun x hx => hword x (mem_append_right _ hx)]
    | @comment t t' ht _ _ =>
      have hslash : '/' ∈ t := mem_of_mem_head? (head?_of_isComment ht)
      have hslash : isWord '/' = true := hword '/' (mem_append_left _ hslash)
      exact absurd hslash (by decide)

theorem isWord_of_readAll? {t : Text} (h : (word.readAll? t).isSome = true) :
    ∀ x ∈ t, isWord x = true := by
  rw [Pattern.readAll?, Option.isSome_map, find?_isSome] at h
  obtain ⟨r, hr, hlen⟩ := h
  have hchars := (takes_word _ r hr).2
  rw [beq_iff_eq.1 hlen] at hchars
  rwa [show (Cursor.start t).after = t from rfl, take_length] at hchars

theorem readAll?_of_alike (h : Forall₂ AlikePiece ps ps') :
    (word.readAll? (spell ps)).isSome = (word.readAll? (spell ps')).isSome := by
  have hmono : ∀ {ps ps' : List (Piece Unit)}, Forall₂ AlikePiece ps ps' →
      (word.readAll? (spell ps)).isSome = true → (word.readAll? (spell ps')).isSome = true := by
    intro ps ps' h hname
    rwa [spell_eq_of_alike h (isWord_of_readAll? hname)]
  have hback : Forall₂ AlikePiece ps' ps := h.flip.imp fun _ _ => AlikePiece.symm
  exact Bool.eq_iff_iff.2 ⟨hmono h, hmono hback⟩

theorem accepts_of_alike (h : Forall₂ AlikePiece ps ps')
    (op : SequenceOp) : op.accepts (spell ps) = op.accepts (spell ps') := by
  have hempty : (spell ps).isEmpty = (spell ps').isEmpty := by
    rw [Bool.eq_iff_iff, isEmpty_iff_length_eq_zero, isEmpty_iff_length_eq_zero,
      length_spell_of_alike h]
  cases op <;> simp only [SequenceOp.accepts, hempty]

theorem ArgumentPieces.lowered_of_alike {a : ArgumentPieces ps} {a' : ArgumentPieces ps'}
    (hrest : Forall₂ AlikePiece a.rest a'.rest)
    (hsolid : Forall₂ AlikePiece a.trimmed.solid a'.trimmed.solid)
    (value : SequencePlace × SequenceOp) (f : SequenceField) (starts : Bool) :
    Forall₂ AlikePiece (a.lowered value f starts) (a'.lowered value f starts) := by
  rw [lowered, lowered, readAll?_of_alike hsolid, suffix_of_alike hrest]
  exact alike_append (alike_append (alike_append (forall₂_same _) hsolid) (forall₂_same _))
    (forall₂_drop _ hrest)

/-! ## The text of a lowered operation -/

namespace CallPieces

variable {s : Scope} {m : Match (SequencePlace × SequenceOp)} {cur : Text} {ps : List (Piece Unit)}
  (call : CallPieces m ps) (hps : Text.pieces sealedClaim cur = ps)

include hps

theorem text_eq :
    cur = spell call.before ++ call.head ++ call.gap ++ ['('] ++ spell call.after := by
  rw [← spell_pieces cur, hps]
  exact (congrArg spell call.pieces_eq).trans (by simp)

theorem skipBlanks_eq :
    skipBlanks cur m.stop = (spell call.before ++ call.head ++ call.gap).length := by
  have hcur : cur = (spell call.before ++ call.head) ++ (call.gap ++ '(' :: spell call.after) := by
    simpa using call.text_eq hps
  have hstop : m.stop = (spell call.before ++ call.head).length := by
    rw [call.stop_eq, length_append, call.start_eq]
  have hcount : Text.blankCount (call.gap ++ '(' :: spell call.after) = call.gap.length := by
    rw [Text.blankCount, takeWhile_append_of_pos call.gap_blank]
    simp [show isBlank '(' = false by decide]
  rw [hstop, hcur, skipBlanks_append, hcount]
  exact length_append.symm

theorem marked_eq : marked cur = markedPieces call.before ++
    (markedPieces (chars (call.head ++ call.gap)) ++ ('(', true) :: markedPieces call.after) := by
  rw [Source.marked_eq, hps]
  exact (congrArg markedPieces call.pieces_eq).trans (by simp [markedPieces_append])

/-- The bracket closes where the depth of the pieces after it says. -/
theorem matchingClose_eq :
    matchingClose cur (skipBlanks cur m.stop) = (partnerOffset 1 (markedPieces call.after)).map
      fun k =>
        (spell call.before ++ call.head ++ call.gap ++ ['(']).length + k := by
  have hopen : partnerOffset 0 (('(', true) :: markedPieces call.after) =
      (partnerOffset 1 (markedPieces call.after)).map (· + 1) := by
    simp [partnerOffset, isOpener]
  rw [call.skipBlanks_eq hps, matchingClose, call.marked_eq hps, ← append_assoc,
    drop_left' (by simp), hopen, Option.map_map]
  congr 1
  funext k
  simp only [Function.comp_apply, length_append, length_cons, length_nil]
  omega

theorem lowerOperation_of_none
    (h : s.resolve? m.value.1 = none ∨ partnerOffset 1 (markedPieces call.after) = none) :
    lowerOperation s m cur = cur := by
  obtain h | h := h
  · simp [lowerOperation, h]
  · have hclose := call.matchingClose_eq hps
    rw [h] at hclose
    cases hf : s.resolve? m.value.1 <;> simp [lowerOperation, hf, hclose]

variable (a : ArgumentPieces call.after)

theorem text_eq_arguments :
    cur = spell call.before ++ call.head ++ call.gap ++ ['('] ++ spell a.inner ++ [a.closer] ++
      spell a.rest := by
  rw [call.text_eq hps, congrArg spell a.pieces_eq]
  simp

omit hps in
theorem pieces_eq_arguments :
    ps = call.before ++ chars (call.head ++ call.gap ++ ['('] ++ a.trimmed.left) ++
    a.trimmed.solid ++
      chars (a.trimmed.right ++ [a.closer]) ++ a.rest := by
  have hafter : call.after = chars a.trimmed.left ++ a.trimmed.solid ++ chars a.trimmed.right ++
      .char a.closer :: a.rest := by
    rw [← a.trimmed.pieces_eq]
    exact a.pieces_eq
  exact call.pieces_eq.trans ((congrArg (call.before ++ chars (call.head ++ call.gap ++ ['(']) ++ ·)
    hafter).trans (by simp))

theorem slice_eq : ∃ close, matchingClose cur (skipBlanks cur m.stop) = some close ∧
      close + 1 = (spell call.before ++ call.head ++ call.gap ++ ['('] ++ spell a.inner ++
        [a.closer]).length ∧
      cur.slice (skipBlanks cur m.stop + 1) close = spell a.inner := by
  refine ⟨_, by rw [call.matchingClose_eq hps, a.offset_eq]; rfl, ?_, ?_⟩
  · simp only [length_append, length_cons, length_nil]
  · have hcur : cur = (spell call.before ++ call.head ++ call.gap ++ ['('] ++ spell a.inner) ++
        ([a.closer] ++ spell a.rest) := by
      simpa using call.text_eq_arguments hps a
    rw [call.skipBlanks_eq hps, Text.slice, hcur, take_left' length_append]
    exact drop_left' length_append

/-- Lowering an operation whose arguments fit it replaces the text around the arguments. -/
theorem lowerOperation_of_accepts (hf : s.resolve? m.value.1 = some f)
    (htrim : Text.trim (spell a.inner) = spell a.trimmed.solid)
    (haccepts : m.value.2.accepts (spell a.trimmed.solid) = true) :
    lowerOperation s m cur = spell call.before ++ m.value.2.render m.value.1.receiver f
      (spell a.trimmed.solid) ++
        spell (a.rest.drop (m.value.2.suffix (startsStatement cur m.start) a.rest).length) := by
  obtain ⟨close, hclose, hlen, hslice⟩ := call.slice_eq hps a
  have hlex : ∃ before, Lexes before a.rest [] := by
    have := lexes_pieces cur
    rw [hps, call.pieces_eq_arguments a] at this
    exact ⟨_, (lexes_append.1 this).2⟩
  obtain ⟨before, hlex⟩ := hlex
  have htake : cur.take m.start = spell call.before := by
    have hcur := call.text_eq hps
    simp only [append_assoc] at hcur
    rw [hcur, take_left' call.start_eq]
  have hdrop : cur.drop (m.value.2.stop cur m.start (close + 1)) =
      spell (a.rest.drop (m.value.2.suffix (startsStatement cur m.start) a.rest).length) := by
    have hcur := call.text_eq_arguments hps a
    have hstop := stop_spell hlex m.value.2 (spell call.before ++ call.head ++ call.gap ++ ['('] ++
      spell a.inner ++ [a.closer]) m.start
    rw [← hcur, ← hlen] at hstop
    obtain ⟨hrest, -⟩ := eq_append_suffix m.value.2 (startsStatement cur m.start) a.rest
    generalize m.value.2.suffix (startsStatement cur m.start) a.rest = suffix at hstop hrest ⊢
    rw [hstop, hlen, ← drop_drop]
    conv_lhs => rw [hcur, drop_left, hrest, spell_append, spell_chars, drop_left]
  simp [lowerOperation, hf, hclose, hslice, htrim, haccepts, Text.splice, htake, hdrop]

theorem lowerOperation_of_not_accepts (htrim : Text.trim (spell a.inner) = spell a.trimmed.solid)
    (haccepts : m.value.2.accepts (spell a.trimmed.solid) = false) :
    lowerOperation s m cur = cur := by
  obtain ⟨close, hclose, -, hslice⟩ := call.slice_eq hps a
  cases hf : s.resolve? m.value.1 <;> simp [lowerOperation, hf, hclose, hslice, htrim, haccepts]

omit hps in
/-- The pieces of the text, with what follows the operation and is lowered with it. -/
theorem pieces_eq_suffix (starts : Bool) :
    ps = call.before ++ chars (call.head ++ call.gap ++ ['('] ++ a.trimmed.left) ++
    a.trimmed.solid ++
      chars (a.trimmed.right ++ [a.closer] ++ m.value.2.suffix starts a.rest) ++
      a.rest.drop (m.value.2.suffix starts a.rest).length := by
  refine (call.pieces_eq_arguments a).trans ?_
  conv_lhs => rw [(eq_append_suffix m.value.2 starts a.rest).1]
  simp

omit hps in
/-- What is lowered ends with a bracket, a question mark or a semicolon. -/
theorem oldTail_last (starts : Bool) :
    ∃ y, (a.trimmed.right ++ [a.closer] ++ m.value.2.suffix starts a.rest).getLast? = some y ∧
      endsPart (.char y) = true ∧ isWord y = false := by
  cases h : (m.value.2.suffix starts a.rest).getLast? with
  | none =>
    refine ⟨a.closer, by rw [getLast?_append, h, getLast?_append]; rfl, ?_⟩
    have hcloser := a.isCloser_closer
    simp only [isCloser, Bool.or_eq_true, beq_iff_eq] at hcloser
    obtain (h | h) | h := hcloser <;> rw [h] <;> decide
  | some y =>
    refine ⟨y, by rw [getLast?_append, h]; rfl, ?_⟩
    obtain rfl | rfl := (eq_append_suffix m.value.2 starts a.rest).2 y h <;> decide

omit hps in
/-- What is lowered starts with a name, and ends before the arguments with a bracket or a blank. -/
theorem oldHead_ends : (call.head ++ call.gap ++ ['('] ++ a.trimmed.left).head?.any isWord = true ∧
      (call.head ++ call.gap ++ ['('] ++ a.trimmed.left).getLast?.any isWord = false := by
  constructor
  · have hword := call.head_word
    cases hhead : call.head with
    | nil => simp [hhead] at hword
    | cons x head => simpa [hhead] using hword
  · rw [getLast?_append]
    cases hlast : a.trimmed.left.getLast? with
    | none => simp [show isWord '(' = false by decide]
    | some x =>
      have hblank := a.trimmed.left_blank x (mem_of_getLast? hlast)
      by_contra hword
      rw [isBlank_of_isWord (by simpa using hword)] at hblank
      cases hblank

/-- The arguments are what is left of the argument list when blanks are trimmed. -/
theorem trim_eq (hline : a.trimmed.solid.getLast?.any isLineComment = false) :
    Text.trim (spell a.inner) = spell a.trimmed.solid ∧ Text.trim (spell a.trimmed.solid) =
    spell a.trimmed.solid := by
  have hlex := lexes_pieces cur
  rw [hps] at hlex
  constructor
  · rw [call.pieces_eq.trans (congrArg _ a.pieces_eq)] at hlex
    exact trim_spell (lexes_append.1 (lexes_append.1 hlex).2).1 (by simp) a.trimmed hline
  · rw [call.pieces_eq_arguments a, append_assoc, append_assoc] at hlex
    exact trim_spell (lexes_append.1 (lexes_append.1 hlex).2).1 (by simp)
      ⟨[], _, [], by simp, by simp, by simp, a.trimmed.head_solid, a.trimmed.last_solid⟩ hline

/-- Lowering an operation whose arguments fit it replaces pieces, and keeps quotes apart. -/
theorem pieces_lowerOperation (hcounted : Counted s.context) (hlocals : s.locals = [])
    (hf : s.resolve? m.value.1 = some f) (haccepts : m.value.2.accepts (spell a.trimmed.solid) =
      true)
    (hline : a.trimmed.solid.getLast?.any isLineComment = false) (hapart : List.IsChain Apart ps) :
    Text.pieces sealedClaim (lowerOperation s m cur) =
        call.before ++ a.lowered m.value f (startsStatement cur m.start) ∧
      List.IsChain Apart (call.before ++ a.lowered m.value f (startsStatement cur m.start)) := by
  obtain ⟨htrim, htrim'⟩ := call.trim_eq hps a hline
  have hnames := names_of_resolve? hcounted hlocals call.wellNamed hf
  have htext := call.lowerOperation_of_accepts hps a hf htrim haccepts
  rw [render_eq_shell haccepts htrim'] at htext
  have hpieces := call.pieces_eq_suffix a (startsStatement cur m.start)
  obtain ⟨y, hy, hends, hyword⟩ := call.oldTail_last a (startsStatement cur m.start)
  rw [ArgumentPieces.lowered]
  generalize (word.readAll? (spell a.trimmed.solid)).isSome = named at htext ⊢
  obtain ⟨x, hx, hxs⟩ := shell_head_last m.value.2 m.value.1.receiver f named
  have hshell := hnames.spelled.shell call.known named
  have hlex := lexes_pieces cur
  rw [hps, hpieces] at hlex
  rw [hpieces] at hapart
  simp only [← append_assoc] at hlex hapart htext ⊢
  have hliteral := fun q => @startsLiteral_head? _ _ _ _ hapart hy hends q
  generalize a.rest.drop (m.value.2.suffix (startsStatement cur m.start) a.rest).length = R at *
  refine ⟨pieces_eq_iff.2 ⟨?_, ?_⟩, isChain_replace hapart hshell hx ?_ hliteral⟩
  · rw [htext]
    simp only [spell_append, spell_chars, append_assoc]
  · obtain ⟨hword, hlast⟩ := call.oldHead_ends a
    have hlexR := (lexes_append.1 hlex).2
    refine hlex.replace hshell hword hlast (by simp) ?_ (fun hne => ?_) (fun u t hu hcomment => ?_)
      (.inl (by rw [hy]; exact hyword)) hliteral
    · exact hnames.startsAfresh_head call.no_name_before _ _ _
    · have hsolid := (lexes_append.1 (lexes_append.1 (lexes_append.1 hlex).1).1).2
      exact startsAfresh_tail haccepts (hsolid.spell_ne_nil hne) _ _ _ _
        (head?_spell_ne_quote hlexR hliteral)
    · rw [hu] at hline
      have hstart : t.startsWith "//" = true := isPrefixOf_iff_prefix.2 hcomment
      rw [Option.any_some, isLineComment, hstart] at hline
      cases hline
  · obtain rfl | rfl := hxs <;> decide

end CallPieces

/-! ## Lowering an operation in two bodies -/

/-- No line comment ends right before an operation that seems to start a statement, and none at the
end of its arguments. -/
@[mk_iff]
structure OperationApart (m : Match (SequencePlace × SequenceOp)) (body : Text) : Prop where
  start : startsStatement body m.start = true → endsInLineComment (body.take m.start) = false
  arguments : ∀ close ∈ matchingClose body (skipBlanks body m.stop),
    endsInLineComment (body.slice (skipBlanks body m.stop + 1) close) = false

instance (m : Match (SequencePlace × SequenceOp)) (body : Text) :
    Decidable (OperationApart m body) :=
  decidable_of_iff _ (operationApart_iff ..).symm

namespace CallPieces

variable {s : Scope} {m : Match (SequencePlace × SequenceOp)} {cur cur' : Text}
  {ps ps' : List (Piece Unit)}

theorem line_of_apart (call : CallPieces m ps) (hps : Text.pieces sealedClaim cur = ps)
    (a : ArgumentPieces call.after) (h : OperationApart m cur) :
    a.trimmed.solid.getLast?.any isLineComment = false := by
  by_cases hsolid : a.trimmed.solid = []
  · simp [hsolid]
  · obtain ⟨close, hclose, -, hslice⟩ := call.slice_eq hps a
    have hline := h.arguments close hclose
    have hlex := lexes_pieces cur
    rw [hps, call.pieces_eq.trans (congrArg _ a.pieces_eq)] at hlex
    have hinner := (lexes_append.1 (lexes_append.1 hlex).2).1
    have hlast : (chars a.trimmed.left ++ a.trimmed.solid).getLast? = a.trimmed.solid.getLast? :=
      getLast?_append_of_ne_nil _ hsolid
    rw [hslice, a.trimmed.pieces_eq, endsInLineComment_spell (a.trimmed.pieces_eq ▸ hinner)
      (by simp [show isWord '(' = false by decide]) a.trimmed.right_blank
      (hlast ▸ a.trimmed.last_solid), hlast] at hline
    exact hline

theorem exists_alike (call : CallPieces m ps) (call' : CallPieces m ps')
    (h : Forall₂ AlikePiece ps ps') :
    ∃ other : CallPieces m ps', Forall₂ AlikePiece call.before other.before ∧
      Forall₂ AlikePiece call.after other.after := by
  rw [call.pieces_eq] at h
  obtain ⟨qs, after, hqs, halike, hafter⟩ := alike_append_left h
  obtain ⟨before, cs, rfl, hbefore, hcs⟩ := alike_append_left halike
  obtain rfl := eq_chars_of_alike hcs
  have hlen : (spell before).length = m.start := by
    rw [← length_spell_of_alike hbefore, call.start_eq]
  have hsame : spell before = spell call'.before := by
    have htext := congrArg spell (hqs.symm.trans call'.pieces_eq)
    simp only [spell_append, append_assoc] at htext
    exact (List.append_inj htext (hlen.trans call'.start_eq.symm)).1
  exact ⟨⟨before, call.head, call.gap, after, hqs, hlen, call.stop_eq, call.head_word,
    call.head_dotted, call.gap_blank, hsame ▸ call'.no_name_before, call.wellNamed, call.known⟩,
    hbefore, hafter⟩

/-- A statement starts at an operation in both of two alike bodies or in neither. -/
theorem startsStatement_eq {call : CallPieces m ps} {call' : CallPieces m ps'}
    (hps : Text.pieces sealedClaim cur = ps) (hps' : Text.pieces sealedClaim cur' = ps')
    (hbefore : Forall₂ AlikePiece call.before call'.before) (happart : OperationApart m cur)
    (happart' : OperationApart m cur') :
    startsStatement cur m.start = startsStatement cur' m.start := by
  have hread : ∀ {cur : Text} {ps : List (Piece Unit)} (call : CallPieces m ps),
      Text.pieces sealedClaim cur = ps → OperationApart m cur → ∃ rest, rest ≠ [] ∧
        cur = spell call.before ++ rest ∧ Lexes [] call.before rest ∧
        (startsStatement (spell call.before ++ rest) (spell call.before).length = true →
          endsInLineComment (spell call.before) = false) := by
    intro cur ps call hps happart
    have hlex := lexes_pieces cur
    rw [hps, call.pieces_eq, append_assoc] at hlex
    have hcur := call.text_eq hps
    simp only [append_assoc] at hcur
    refine ⟨_, ?_, hcur, by simpa using (lexes_append.1 hlex).1, fun hstarts => ?_⟩
    · simp
    · have hline := happart.start
      rw [← call.start_eq, hcur, take_left] at hline
      exact hline hstarts
  obtain ⟨rest, hne, hcur, hlex, hline⟩ := hread call hps happart
  obtain ⟨rest', hne', hcur', hlex', hline'⟩ := hread call' hps' happart'
  have := startsStatement_of_alike hlex hlex' hne hne' hbefore hline hline'
  rwa [← hcur, ← hcur', call.start_eq, call'.start_eq] at this

/-- Lowering one operation in two alike bodies gives alike bodies, changes neither before the
operation, and keeps quotes apart. -/
theorem lowerOperation_alike (hcounted : Counted s.context) (hlocals : s.locals = [])
    (call : CallPieces m ps) (call' : CallPieces m ps') (hps : Text.pieces sealedClaim cur = ps)
    (hps' : Text.pieces sealedClaim cur' = ps')
    (h : Forall₂ AlikePiece ps ps') (hquotes : List.IsChain Apart ps)
    (hquotes' : List.IsChain Apart ps')
    (happart : (s.resolve? m.value.1).isSome → OperationApart m cur)
    (happart' : (s.resolve? m.value.1).isSome → OperationApart m cur') :
    ∃ other : CallPieces m ps', ∃ N N', Text.pieces sealedClaim (lowerOperation s m cur) =
    call.before ++ N ∧
      Text.pieces sealedClaim (lowerOperation s m cur') = other.before ++ N' ∧
      Forall₂ AlikePiece (call.before ++ N) (other.before ++ N') ∧
      List.IsChain Apart (call.before ++ N) ∧ List.IsChain Apart (other.before ++ N') := by
  obtain ⟨other, hbefore, hafter⟩ := call.exists_alike call' h
  refine ⟨other, ?_⟩
  have hunchanged : lowerOperation s m cur = cur → lowerOperation s m cur' = cur' →
      ∃ N N', Text.pieces sealedClaim (lowerOperation s m cur) = call.before ++ N ∧
        Text.pieces sealedClaim (lowerOperation s m cur') = other.before ++ N' ∧
        Forall₂ AlikePiece (call.before ++ N) (other.before ++ N') ∧
        List.IsChain Apart (call.before ++ N) ∧ List.IsChain Apart (other.before ++ N') := by
    intro heq heq'
    have hsplit := call.pieces_eq
    have hsplit' := other.pieces_eq
    rw [append_assoc] at hsplit hsplit'
    refine ⟨_, _, by rw [heq, hps]; exact hsplit, by rw [heq', hps']; exact hsplit', ?_⟩
    rw [← hsplit, ← hsplit']
    exact ⟨h, hquotes, hquotes'⟩
  cases hf : s.resolve? m.value.1 with
  | none =>
    exact hunchanged (call.lowerOperation_of_none hps (.inl hf))
      (other.lowerOperation_of_none hps' (.inl hf))
  | some f =>
    cases hoffset : partnerOffset 1 (markedPieces call.after) with
    | none =>
      exact hunchanged (call.lowerOperation_of_none hps (.inr hoffset))
        (other.lowerOperation_of_none hps' (.inr (partnerOffset_of_alike hafter 1 ▸ hoffset)))
    | some k =>
      obtain ⟨a⟩ := exists_argumentPieces hoffset
      obtain ⟨a', -, hrest, hsolid⟩ := a.exists_alike hafter
      have happart := happart (by rw [hf]; rfl)
      have happart' := happart' (by rw [hf]; rfl)
      have hline := call.line_of_apart hps a happart
      have hline' := other.line_of_apart hps' a' happart'
      have haccepts := accepts_of_alike hsolid m.value.2
      cases hfits : m.value.2.accepts (spell a.trimmed.solid) with
      | false =>
        exact hunchanged (call.lowerOperation_of_not_accepts hps a
          (call.trim_eq hps a hline).1 hfits)
          (other.lowerOperation_of_not_accepts hps' a' (other.trim_eq hps' a' hline').1
            (haccepts ▸ hfits))
      | true =>
        obtain ⟨hN, hchain⟩ :=
          call.pieces_lowerOperation hps a hcounted hlocals hf hfits hline hquotes
        obtain ⟨hN', hchain'⟩ := other.pieces_lowerOperation hps' a' hcounted hlocals hf
          (haccepts ▸ hfits) hline' hquotes'
        rw [← startsStatement_eq hps hps' hbefore happart happart'] at hN' hchain'
        exact ⟨_, _, hN, hN', alike_append hbefore
          (ArgumentPieces.lowered_of_alike hrest hsolid _ _ _), hchain, hchain'⟩

end CallPieces

end AnchorLowering.Lowering
