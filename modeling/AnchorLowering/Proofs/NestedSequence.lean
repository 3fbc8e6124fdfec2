import AnchorLowering.Proofs.NestedIssue
import AnchorLowering.Proofs.OperationText

/-!
# Sequences in nested code

An operation on a sequence becomes its arguments in a shell. The operations of a body are lowered
from right to left, so when an operation's turn comes the pieces before it are still those of the
body (`sameUpTo_foldr`): what is written for an operation starts afresh, so nothing before it is
read otherwise. Each step keeps nested code nested, and so does the whole step for sequences
(`nested_lowerSequences`).
-/

namespace AnchorLowering

open List Pattern Source

variable {c : Context} {spans : List Span} {m : Match (SequencePlace × SequenceOp)} {limit : Nat}
  {s : Scope}
  {op : SequenceOp} {locals : Table SequenceField} {body cur t : Text} {α β : Type}
  {ms : List (Match (SequencePlace × SequenceOp))}

namespace Lowering

/-! ## What an operation becomes -/

theorem ending_of_plain (hplain : Plain t) (hmark : t.head?.any isMark = true) : Ending t := by
  cases t with
  | nil => cases hmark
  | cons k t =>
    refine ending_cons hmark (fun hquote => ?_) hplain
    exact absurd (hplain.all _ (mem_cons_of_mem _ (mem_of_mem_head? hquote))) (by decide)

variable {receiver : Text} {f : SequenceField}

theorem Spelled.bracketed_shell (h : Spelled receiver f) (hop : op ∈ SequenceOp.table.map (·.2))
    (hargs : ∀ args : Text, args ≠ [] → op.accepts args = true) (named : Bool) :
    Bracketed ((op.shell receiver f named).1 ++ (op.shell receiver f named).2) := by
  obtain ⟨args, hne, htrim, hbracketed, hnamed⟩ : ∃ args : Text, args ≠ [] ∧
      Text.trim args = args ∧ Bracketed args ∧
      (word.readAll? args).isSome = named := by
    cases named with
    | true => exact ⟨"x".toList, by decide, by decide, by decide, by decide⟩
    | false => exact ⟨"()".toList, by decide, by decide, by decide, by decide⟩
  have hrender := h.bracketed_render hop hbracketed htrim
  rw [render_eq_shell (hargs args hne) htrim, hnamed, append_assoc] at hrender
  exact ((SameBrackets.refl _).append (SameBrackets.bracketed_append hbracketed)).symm.bracketed
    hrender

/-- **A lowered operation may be put into a template**, if its arguments may. -/
theorem Spelled.fits_render (h : Spelled receiver f) (hop : op ∈ SequenceOp.table.map (·.2))
    {args : Text}
    (haccepts : op.accepts args = true) (htrim : Text.trim args = args) (hargs : Fits args) :
    Fits (op.render receiver f args) := by
  have hshell := h.shell hop (word.readAll? args).isSome
  have haround : (∀ args : Text, args ≠ [] → op.accepts args = true) →
      (op.shell receiver f (word.readAll? args).isSome).2.head?.any isMark = true →
      Fits (op.render receiver f args) := by
    intro hany hmark
    rw [render_eq_shell haccepts htrim, append_assoc]
    exact hargs.around ⟨hshell.head_ne_nil, hshell.head_plain, hshell.head_last⟩
      (ending_of_plain hshell.tail_plain hmark)
      (h.bracketed_shell hop hany _)
  have hclosed : args = [] → Fits (op.render receiver f args) := by
    rintro rfl
    refine fits_plain ?_ (h.bracketed_render hop rfl rfl)
    rw [render_eq_shell haccepts htrim, append_nil]
    exact hshell.head_plain.append hshell.tail_plain
  cases op with
  | len | isEmpty | clear => exact hclosed (by simpa [SequenceOp.accepts] using haccepts)
  | push | extend => exact haround (fun args hne => by simpa [SequenceOp.accepts] using hne) rfl
  | remove =>
    refine haround (fun args hne => by simpa [SequenceOp.accepts] using hne) ?_
    cases (word.readAll? args).isSome <;> rfl
  | view method => exact haround (fun _ _ => rfl) rfl

/-! ## One edit after the other -/

/-- The texts are read alike up to a place. -/
def SameMarks (limit : Nat) (body cur : Text) : Prop :=
  (marked cur).take limit = (marked body).take limit

theorem SameMarks.mono {limit limit' : Nat} (h : SameMarks limit body cur) (hle : limit' ≤ limit) :
    SameMarks limit' body cur := by
  have htake := congrArg (List.take limit') h
  rwa [take_take, take_take, Nat.min_eq_left hle] at htake

/-- Nothing is read otherwise where the edit meets the rest of the text. -/
def Splices (t : Text) (e : Edit) : Prop :=
  marked (t.splice e.start e.stop e.replacement) = spliceMarked (marked t) [e]

instance (t : Text) (e : Edit) : Decidable (Splices t e) := inferInstanceAs (Decidable (_ = _))

theorem nested_splice {e : Edit} (h : Splices cur e) (hedit : KeepsNested cur e)
    (hsame : SameMarks e.start body cur) (hnested : Nested cur) :
    Nested (cur.splice e.start e.stop e.replacement) ∧
      SameMarks e.start body (cur.splice e.start e.stop e.replacement) := by
  have hlt := hedit.start_lt_stop
  have hle := hedit.stop_le
  have hdescends : Descends (marked cur).length [e] := ⟨by rwa [length_marked], hlt, trivial⟩
  constructor
  · rw [Nested, h]
    refine (sameBrackets_spliceMarked hdescends ?_ ?_).bracketed hnested
    · simpa using hedit.span
    · simpa using hedit.written
  · rw [SameMarks, h, spliceMarked, spliceMarked, take_left' (by simp; omega)]
    exact hsame

/-! ## One operation -/

/-- After its argument list an operation takes blanks and marks only. -/
theorem SequenceOp.exists_stop (op : SequenceOp) (t : Text) (start index : Nat) :
    ∃ s w, t.drop index = s ++ w ∧ op.stop t start index = index + s.length ∧
      ∀ x ∈ s, isBlank x = true ∨ x = '?' ∨ x = ';' := by
  have hmarks : ∃ s w, t.drop index = s ++ w ∧ (if startsStatement t start
      then (afterMark? t ';' ((afterMark? t '?' index).getD index)).getD
        ((afterMark? t '?' index).getD index)
      else (afterMark? t '?' index).getD index) = index + s.length ∧ ∀ x ∈ s, isBlank x = true ∨
        x = '?' ∨ x = ';' := by
    split
    · exact exists_marks t '?' ';' index
    · obtain ⟨s, w, hs, hstop, hmark⟩ := exists_mark t '?' index
      exact ⟨s, w, hs, hstop, fun x hx => (hmark x hx).imp_right .inl⟩
  cases op with
  | push | extend => exact hmarks
  | len | isEmpty | clear | remove | view => exact ⟨[], _, rfl, rfl, by simp⟩

/-- The sequences in scope have names, and so do the types of their counters. -/
def Scope.Named (s : Scope) : Prop :=
  ∀ place sequence, s.resolve? place = some sequence → IsName sequence.name ∧
  IsName sequence.counterType

theorem Scope.Named.bare (hs : s.Named) : s.Bare := fun place sequence h =>
  ⟨brackets_of_word (hs place sequence h).1.word, brackets_of_word (hs place sequence h).2.word⟩

theorem Scope.Named.spelled (hs : s.Named) {place : SequencePlace} (hplace : place.WellNamed)
    {sequence : SequenceField} (h : s.resolve? place = some sequence) :
    Spelled place.receiver sequence :=
  ⟨hplace.receiver, (hs place sequence h).1.word, isWord_of_mem_text _,
    (hs place sequence h).2.word⟩

/-- What lowering an operation replaces, and by what. -/
def operationEdit? (s : Scope) (m : Match (SequencePlace × SequenceOp)) (body : Text) :
    Option Edit := do
  let sequence ← s.resolve? m.value.1
  let close ← matchingClose body (skipBlanks body m.stop)
  let args := Text.trim (body.slice (skipBlanks body m.stop + 1) close)
  if m.value.2.accepts args then
    some ⟨m.start, m.value.2.stop body m.start (close + 1),
      m.value.2.render m.value.1.receiver sequence args⟩
  else none

theorem lowerOperation_eq_edit (s : Scope) (m : Match (SequencePlace × SequenceOp)) (body : Text) :
    lowerOperation s m body =
      ((operationEdit? s m body).map fun e => body.splice e.start e.stop e.replacement).getD
        body := by
  obtain ⟨start, stop, place, op⟩ := m
  dsimp only [lowerOperation, operationEdit?]
  cases s.resolve? place with
  | none => rfl
  | some sequence =>
    cases matchingClose body (skipBlanks body stop) with
    | none => simp
    | some close =>
      simp only [Option.bind_eq_bind, Option.bind_some]
      split <;> rfl

/-- The arguments of an operation leave nothing open, and nothing is read otherwise where the
lowered operation meets the rest. -/
@[mk_iff]
structure CleanOperation (s : Scope) (m : Match (SequencePlace × SequenceOp)) (body : Text) :
    Prop where
  args : ∀ close ∈ matchingClose body (skipBlanks body m.stop),
    Closed (Text.trim (body.slice (skipBlanks body m.stop + 1) close))
  splices : ∀ e ∈ operationEdit? s m body, Splices body e

instance (s : Scope) (m : Match (SequencePlace × SequenceOp)) (body : Text) :
    Decidable (CleanOperation s m body) :=
  decidable_of_iff _ (cleanOperation_iff ..).symm

/-- Pieces that lex before a text are the first pieces of the whole. -/
theorem exists_pieces_append {P : List (Piece Unit)} {w : Text} (h : Lexes [] P w) :
    ∃ N, Text.pieces sealedClaim (spell P ++ w) = P ++ N := by
  have hspell : spell (Text.scan sealedClaim 0 (spell P).reverse w) = w :=
    Text.flatten_scan sealedClaim 0 _ w
  refine ⟨_, pieces_eq_iff.2 ⟨by rw [spell_append, hspell], lexes_append.2 ⟨?_, ?_⟩⟩⟩
  · rwa [hspell, append_nil]
  · rw [append_nil]
    exact lexes_scan _ w

/-- What is before an operation is cut into the same pieces when the operation is lowered: what is
written for it starts afresh. -/
theorem CallPieces.exists_pieces (call : CallPieces m (Text.pieces sealedClaim cur))
    (hname : ∀ f, s.resolve? m.value.1 = some f → IsName f.name) :
    ∃ N, Text.pieces sealedClaim (lowerOperation s m cur) = call.before ++ N := by
  rw [lowerOperation_eq_edit]
  cases hedit : operationEdit? s m cur with
  | none => exact ⟨_, call.pieces_eq.trans (append_assoc ..)⟩
  | some e =>
    simp only [operationEdit?, Option.bind_eq_bind] at hedit
    obtain ⟨f, hf, hedit⟩ := Option.bind_eq_some_iff.1 hedit
    obtain ⟨close, -, hedit⟩ := Option.bind_eq_some_iff.1 hedit
    split at hedit
    next haccepts =>
      obtain rfl := Option.some.inj hedit
      have hbefore : cur.take m.start = spell call.before := by
        conv_lhs => rw [call.text_eq rfl]
        simp only [append_assoc, take_left' call.start_eq]
      have hhead : (m.value.1.receiver ++ f.name).head?.any isWord = true := by
        have hreceiver := call.wellNamed.receiver_head
        obtain ⟨x, name, hx⟩ := exists_cons_of_ne_nil (hname f hf).ne_nil
        cases hr : m.value.1.receiver with
        | nil => simpa [hx] using (hname f hf).word x (by simp [hx])
        | cons y receiver => simpa [hr] using hreceiver
      have hlex := lexes_pieces cur
      rw [call.pieces_eq, append_assoc] at hlex
      have hword : (spell (chars (call.head ++ call.gap ++ ['(']) ++ call.after) ++ []).head?.any
          isWord = true := by
        have := call.head_word
        cases hhead : call.head with
        | nil => simp [hhead] at this
        | cons x head => simpa [hhead] using this
      have hafresh := fun rest => startsAfresh_head hhead
        (forall_mem_append.2 ⟨call.wellNamed.receiver, fun x hx => .inl ((hname f hf).word x hx)⟩)
          call.no_name_before
        m.value.2 (word.readAll? (Text.trim (cur.slice (skipBlanks cur m.stop + 1) close))).isSome
          rest
      simp only [Option.map_some, Option.getD_some, Text.splice, hbefore,
        render_eq_shell haccepts (trim_trim _), append_assoc]
      exact exists_pieces_append ((lexes_append.1 hlex).1.before_afresh hword (hafresh _))
    next => cases hedit

theorem nested_lowerOperation (hs : s.Named) (call : CallPieces m (Text.pieces sealedClaim cur))
    (hnested : Nested cur) (h : CleanOperation s m cur) : Nested (lowerOperation s m cur) := by
  rw [lowerOperation_eq_edit]
  cases hedit : operationEdit? s m cur with
  | none => exact hnested
  | some e =>
    have hsplices := h.splices e hedit
    simp only [operationEdit?, Option.bind_eq_bind] at hedit
    obtain ⟨sequence, hsequence, hedit⟩ := Option.bind_eq_some_iff.1 hedit
    obtain ⟨close, hclose, hedit⟩ := Option.bind_eq_some_iff.1 hedit
    split at hedit
    next haccepts =>
      have hcur : cur = spell call.before ++
          ((call.head ++ call.gap) ++ '(' :: spell call.after) := by
        simpa using call.text_eq rfl
      have hp : brackets (call.head ++ call.gap) = [] := by
        rw [brackets_append, brackets_of_blank call.gap_blank, brackets_eq_nil fun x hx => ?_,
          append_nil]
        rcases call.head_dotted x hx with (hword | rfl) | hblank
        · exact isBracket_of_class (by decide) hword
        · rfl
        · exact isBracket_of_class (by decide) hblank
      obtain ⟨w, z, hdrop, hstop, hmarks⟩ := m.value.2.exists_stop cur m.start (close + 1)
      have hskip : skipBlanks cur m.stop =
          (spell call.before ++ (call.head ++ call.gap)).length := by
        rw [call.skipBlanks_eq rfl, append_assoc]
      obtain ⟨hlt, hle, hinner, hspan⟩ := bracketed_stretch hnested hcur hp (by decide)
        (by rw [call.marked_eq rfl, markedPieces_chars])
        (length_markedPieces _) (by rwa [← hskip]) hdrop (brackets_of_marks hmarks)
      rw [← hskip] at hinner
      have hargs := h.args close hclose
      have hwritten : Fits (m.value.2.render m.value.1.receiver sequence _) :=
        (hs.spelled call.wellNamed hsequence).fits_render call.known haccepts (trim_trim _)
          (hargs.fits (nested_trim hinner hargs))
      rw [call.start_eq, ← hstop] at hlt hspan
      rw [← hstop] at hle
      obtain rfl := Option.some.inj hedit
      rw [Option.map_some, Option.getD_some]
      exact (nested_splice hsplices ⟨hlt, hle, hspan, hwritten.nested⟩ (rfl : SameMarks _ cur cur)
        hnested).1
    next => cases hedit

/-! ## The run over the operations -/

/-- When its turn comes, an operation stands where it was found, and the pieces before it are those
of the body. -/
theorem exists_callPieces_foldr (hs : ∀ place f, place.WellNamed → s.resolve? place = some f →
    IsName f.name)
    {later : List (Match (SequencePlace × SequenceOp))} (hms : (m :: later) <:+
      Source.findAll sequenceCall body)
    (hsame : SameUpTo (firstStart later body) body cur) :
    Nonempty (CallPieces m (Text.pieces sealedClaim cur)) ∧
    SameUpTo m.start body (lowerOperation s m cur) := by
  obtain ⟨call⟩ := exists_callPieces (hms.subset mem_cons_self)
  have hlimit := bracket_le_firstStart hms call
  obtain ⟨now⟩ := hsame.exists_callPieces call hlimit
  obtain ⟨N, hN⟩ := now.exists_pieces fun f hf => hs _ f now.wellNamed hf
  exact ⟨⟨now⟩, hsame.step now (call.start_le hlimit) hN⟩

theorem sameUpTo_foldr (hs : ∀ place f, place.WellNamed → s.resolve? place = some f → IsName f.name)
    (hms : ms <:+ Source.findAll sequenceCall body) :
    SameUpTo (firstStart ms body) body (ms.foldr (lowerOperation s) body) := by
  induction ms with
  | nil => exact .refl body
  | cons m later ih =>
    exact (exists_callPieces_foldr hs hms (ih ((suffix_cons m later).trans hms))).2

/-- The operations are clean, each one when its turn comes. -/
def CleanOperations (s : Scope) (body : Text) : List (Match (SequencePlace × SequenceOp)) → Prop
  | [] => True
  | m :: later =>
    CleanOperation s m (later.foldr (lowerOperation s) body) ∧ CleanOperations s body later

instance CleanOperations.decide (s : Scope) (body : Text) :
    (ms : List (Match (SequencePlace × SequenceOp))) →
    Decidable (CleanOperations s body ms)
  | [] => isTrue trivial
  | _ :: later =>
    have := CleanOperations.decide s body later
    inferInstanceAs (Decidable (_ ∧ _))

theorem nested_foldr_lowerOperation (hs : s.Named) (hnested : Nested body)
    (hms : ms <:+ Source.findAll sequenceCall body)
    (h : CleanOperations s body ms) : Nested (ms.foldr (lowerOperation s) body) := by
  induction ms with
  | nil => exact hnested
  | cons m later ih =>
    have hlater := (suffix_cons m later).trans hms
    have hnames : ∀ place f, place.WellNamed → s.resolve? place = some f → IsName f.name :=
      fun place f _ hf => (hs place f hf).1
    obtain ⟨⟨now⟩, -⟩ := exists_callPieces_foldr hnames hms (sameUpTo_foldr hnames hlater)
    exact nested_lowerOperation hs now (ih hlater h.2) h.1

/-- **The run over the operations keeps nested code nested.** -/
theorem nested_lowerOperations (hs : s.Named) (hnested : Nested body)
    (h : CleanOperations s body (Source.findAll sequenceCall body)) :
    Nested (lowerOperations s body) :=
  nested_foldr_lowerOperation hs hnested (suffix_refl _) h

/-- What keeps a body nested where the sequences in scope are lowered. -/
def CleanScope (s : Scope) (body : Text) : Prop :=
  CleanOperations s body (Source.findAll sequenceCall body) ∧
    RecodesAll [loopHead s, resetAssignment s] (lowerOperations s body)

instance (s : Scope) (body : Text) : Decidable (CleanScope s body) :=
  inferInstanceAs (Decidable (_ ∧ _))

theorem nested_lowerInScope (hs : s.Named) (hnested : Nested body) (h : CleanScope s body) :
    Nested (lowerInScope s body) := by
  refine @nested_foldl [loopHead s, resetAssignment s] ?_ _ h.2
    (nested_lowerOperations hs hnested h.1)
  simp only [forall_mem_cons]
  exact ⟨keepsBrackets_loopHead hs.bare, keepsBrackets_resetAssignment hs.bare,
    fun _ hmem => nomatch hmem⟩

/-! ## Locals -/

/-- What holds of the value of every way to match. -/
def Yields {α : Type} (p : Pattern α) (V : α → Prop) : Prop := ∀ c, ∀ r ∈ p c, V r.1

theorem Yields.pure {a : α} {V : α → Prop} (h : V a) : Yields (Pure.pure a) V := by
  intro c r hr
  obtain rfl := mem_singleton.1 hr
  exact h

theorem Yields.bind {p : Pattern α} {q : α → Pattern β} {P : α → Prop} {V : β → Prop}
    (hp : Yields p P) (hq : ∀ a, P a → Yields (q a) V) : Yields (p >>= q) V := by
  intro c r hr
  obtain ⟨⟨a, n⟩, ha, ⟨b, m⟩, hb, rfl⟩ := mem_bind.1 hr
  exact hq a (hp c _ ha) _ (b, m) hb

theorem Yields.skip {p : Pattern α} {q : α → Pattern β} {V : β → Prop} (hq : ∀ a, Yields (q a) V) :
    Yields (p >>= q) V :=
  Yields.bind (P := fun _ => True) (fun _ _ _ => trivial) fun a _ => hq a

theorem yields_word : Yields (capture word) IsName := by
  intro c r hr
  obtain ⟨u, rest, -, -, hway⟩ := (mem_iff_way bounded_word).1 hr
  exact (isName_of_way_word hway).2

theorem isName_usize : IsName "usize".toList := by decide

theorem yields_localBinding : Yields localBinding fun l => IsName l.name :=
  .skip fun _ => .skip fun _ => .skip fun _ => .skip fun _ => .skip fun _ => yields_word.bind
    fun _ hname =>
    .skip fun _ => .skip fun _ => .skip fun _ => .skip fun _ => .skip fun _ => .skip fun _ => .skip
      fun _ => .pure hname

theorem yields_loweredLocal : Yields loweredLocal fun s => IsName s.name ∧ IsName s.counterType :=
  .skip fun _ => .skip fun _ => .skip fun _ => .skip fun _ => .skip fun _ => yields_word.bind
    fun _ hname =>
    .skip fun _ => .skip fun _ => .skip fun _ => .skip fun _ => .skip fun _ => .skip fun _ => .skip
      fun _ =>
    .skip fun _ => .skip fun _ => .skip fun _ => .skip fun _ => .skip fun _ => .skip fun _ => .skip
      fun _ =>
    .skip fun _ => .pure ⟨hname, isName_usize⟩

theorem Yields.of_mem_findAll {p : Pattern α} {V : α → Prop} (hp : Yields p V) {m : Match α}
    (hm : m ∈ p.findAll t) : V m.value := by
  obtain ⟨u, v, n, -, -, -, hfirst⟩ := mem_matchesFrom hm
  exact hp _ _ (mem_of_mem_head? hfirst)

theorem isName_of_mem_localSequences {body : Text} {e : Text × SequenceField}
    (h : e ∈ localSequences body) :
    IsName e.1 ∧ IsName e.2.name ∧ IsName e.2.counterType := by
  rcases mem_append.1 (mem_of_mem_ofEntries h) with h | h
  · obtain ⟨m, hm, rfl⟩ := mem_map.1 h
    obtain ⟨hname, htype⟩ := yields_loweredLocal.of_mem_findAll (mem_of_mem_filter hm)
    exact ⟨hname, hname, htype⟩
  · obtain ⟨l, hl, rfl⟩ := mem_map.1 h
    obtain ⟨s, -, hl⟩ := mem_flatMap.1 hl
    obtain ⟨m, hm, rfl⟩ := mem_map.1 hl
    have hname := yields_localBinding.of_mem_findAll hm
    exact ⟨hname, hname, isName_usize⟩

theorem Scope.named (hc : c.Orderly) (aliases : Table Text)
    (hlocals : ∀ e ∈ locals, IsName e.2.name ∧ IsName e.2.counterType) :
    Scope.Named ⟨c, aliases, locals⟩ := by
  intro place sequence h
  rw [Scope.resolve?] at h
  split at h
  · obtain ⟨l, l', hsplit, -⟩ := lookup_eq_some_iff.1 h
    exact hlocals (place.name, sequence) (by dsimp only at hsplit; rw [hsplit]; simp)
  · obtain ⟨owner, -, h⟩ := Option.bind_eq_some_iff.1 h
    exact hc.sequences sequence (mem_of_find?_eq_some h)

theorem firstAt_return (p : Pattern α) (f : α → Text) (c : Cursor) :
    (do return f (← p) : Pattern Text).firstAt c = (p.firstAt c).map fun r => (f r.1, r.2) := by
  rw [firstAt, firstAt, bind_apply]
  cases p c with
  | nil => rfl
  | cons r rs => rfl

/-- What a rule writes comes from a match of the pattern. -/
theorem exists_match_of_claimed {p : Pattern α} {f : α → Text} {skip : Nat}
    {before after v s : Text}
    (h : Piece.claimed v s ∈ Text.scan (do return f (← p) : Pattern Text).firstAt skip before
      after) :
    ∃ m ∈ matchesFrom p skip before after, v = f m.value ∧ ∃ c n, p.firstAt c = some (m.value, n) ∧
    s = c.after.take n := by
  rw [matchesFrom]
  fun_induction Text.scan p.matchAt skip before after with
  | case1 => cases h
  | case2 skip before x after ih => exact ih h
  | case3 before x after m n hclaim ih =>
    rw [matchAt] at hclaim
    obtain ⟨⟨a, k⟩, hfirst, heq⟩ := Option.map_eq_some_iff.1 hclaim
    obtain ⟨rfl, rfl⟩ := Prod.mk.inj heq
    rw [Text.scan, firstAt_return, hfirst] at h
    rcases mem_cons.1 h with heq | h
    · obtain ⟨rfl, rfl⟩ := Piece.claimed.inj heq
      exact ⟨_, mem_cons_self, rfl, _, _, hfirst, rfl⟩
    · obtain ⟨m, hm, hrest⟩ := ih h
      exact ⟨m, mem_cons_of_mem _ hm, hrest⟩
  | case4 before x after hclaim ih =>
    have hnone : ∀ a n, p.firstAt ⟨before, x :: after⟩ ≠ some (a, n + 1) := by
      intro a n hfirst
      exact hclaim _ n (by rw [matchAt, hfirst]; rfl)
    rw [Text.scan, firstAt_return] at h
    split at h
    next v' n hmap =>
      obtain ⟨⟨a, k⟩, hfirst, heq⟩ := Option.map_eq_some_iff.1 hmap
      obtain ⟨rfl, rfl⟩ := Prod.mk.inj heq
      exact absurd hfirst (hnone a n)
    next =>
      rcases mem_cons.1 h with heq | h
      · cases heq
      · exact ih h

/-- Lowering the bindings of local sequences keeps nested code nested, if the types of the elements
are bracketed. -/
theorem nested_lowerLocals (hnested : Nested body)
    (helements : ∀ l ∈ localBindings body, Bracketed (l.element.getD []))
    (h : Recodes (do return (← localBinding).render : Pattern Text).replaceAll body) :
    Nested (lowerLocals body) := by
  refine (sameBrackets_mapCode h fun s hs hcode => ?_).bracketed hnested
  have hpieces := @sameBrackets_rewritten
    (Text.pieces (do return (← localBinding).render : Pattern Text).firstAt s.text)
    fun v u hmem => by
      obtain ⟨m, hm, rfl, c, n, hfirst, rfl⟩ := exists_match_of_claimed hmem
      obtain ⟨-, hsame, hname⟩ := turns_localBinding c _ (mem_of_mem_head? hfirst)
      refine sameBrackets_render hsame hname (helements m.value ?_)
      exact mem_flatMap.2 ⟨s, mem_filter.2 ⟨hs, hcode⟩, mem_map_of_mem hm⟩
  rwa [Text.flatten_pieces] at hpieces

/-- The rules that cut the borrows of local sequences. -/
def borrowRules (locals : Table SequenceField) : List (Pattern Text) :=
  ((locals.map (·.1)).mergeSort fun a b => b.length ≤ a.length).map localBorrow

theorem sliceLocals_eq (locals : Table SequenceField) (body : Text) :
    sliceLocals locals body = (borrowRules locals).foldl (fun body rule => replaceInCode rule body)
      body := by
  rw [sliceLocals, borrowRules, foldl_map]

theorem keepsBrackets_borrowRules (h : ∀ e ∈ locals, IsName e.1) :
    ∀ rule ∈ borrowRules locals, KeepsBrackets rule := by
  intro rule hrule
  obtain ⟨name, hname, rfl⟩ := mem_map.1 hrule
  obtain ⟨e, he, rfl⟩ := mem_map.1 (mem_mergeSort.1 hname)
  exact keepsBrackets_localBorrow (brackets_of_word (h e he).word)

/-! ## Heap allocation -/

/-- The stretch of a text may be replaced: its code is bracketed. -/
structure BracketedSpan (t : Text) (s : Span) : Prop where
  start_lt_stop : s.1 < s.2
  stop_le : s.2 ≤ t.length
  span : Bracketed (codeText (((marked t).take s.2).drop s.1))

theorem takesHead_heapCallHeads : ∀ head ∈ heapCallHeads, TakesHead head := by
  have hboundary : TakesHead wordBoundary := Takes.wordBoundary
  simp only [heapCallHeads, forall_mem_cons]
  refine ⟨hboundary.bind fun _ => takesHead_tokens (by decide), hboundary.bind fun _ =>
    takesHead_tokens (by decide),
    hboundary.bind fun _ => (takesHead_tokens (by decide)).bind fun _ => hboundary,
    hboundary.bind fun _ => (takesHead_tokens (by decide)).bind fun _ => hboundary,
    hboundary.bind fun _ => (takesHead_tokens (by decide)).bind fun _ => takesHead_blanks.bind
      fun _ =>
      (Takes.oneOf (by decide)).bind fun _ => hboundary, fun _ hmem => nomatch hmem⟩

/-- A method call that allocates is plain text with a pair of brackets at its end. -/
theorem ensures_heapMethod : heapMethod.Ensures fun _ u => Neat u := by
  have hblanks : Takes (fun x => isPlain x = true ∧ isBracket x = false) blanks :=
    Takes.many fun _ hx => ⟨isPlain_of_isBlank hx, isBracket_of_class (by decide) hx⟩
  have hword : Takes (fun x => isPlain x = true ∧ isBracket x = false) word :=
    takes_word.mono fun _ hx => ⟨isPlain_of_isWord hx, isBracket_of_class (by decide) hx⟩
  have hdot : Takes (fun x => isPlain x = true ∧ isBracket x = false) (spaced ".") :=
    hblanks.bind fun _ => (Takes.lit (by decide)).bind fun _ => hblanks
  have hlink : Takes (fun x => isPlain x = true ∧ isBracket x = false) link :=
    Takes.wordBoundary.bind fun _ => hword.bind fun _ => hdot
  have hname : Takes (fun x => isPlain x = true ∧ isBracket x = false) dottedName :=
    hlink.star.bind fun _ => Takes.wordBoundary.bind fun _ => hword
  have hmethod : Takes (fun x => isPlain x = true ∧ isBracket x = false)
      (oneOf ["to_vec", "to_string", "to_owned"]) := Takes.oneOf (by decide)
  have harguments : (noArguments).Ensures fun _ u => [')'] <:+ u ∧ (∀ x ∈ u, isPlain x = true) ∧
      brackets u = "()".toList :=
    ((Neutral.suffix_tokens ["(", ")"]).and
      ((Ensures.of_takes (takes_tokens (fun _ => isPlain_of_isBlank) (by decide))).and
      (Neutral.brackets_tokens ["(", ")"]))).mono fun _ _ h => ⟨h.1 _ rfl, h.2⟩
  refine (Ensures.of_takes hname).bind fun _ u hu => (Ensures.of_takes hdot).bind fun _ u' hu' =>
    (Ensures.of_takes hmethod).bind fun _ w hw => (Ensures.of_takes hblanks).bind fun _ g hg =>
      harguments.mono fun _ v ⟨hsuffix, hplain, hbrackets⟩ => ?_
  have hbefore : ∀ x ∈ u ++ (u' ++ (w ++ g)), isPlain x = true ∧ isBracket x = false := by
    intro x hx
    simp only [mem_append] at hx
    exact hx.elim (hu x) fun hx => hx.elim (hu' x) fun hx => hx.elim (hw x) (hg x)
  have hall : u ++ (u' ++ (w ++ (g ++ v))) = (u ++ (u' ++ (w ++ g))) ++ v := by simp
  rw [hall]
  refine neat_plain (plain_of_suffix (fun x hx => ?_) (hsuffix.trans (suffix_append _ _))
    (by decide)) ?_
  · exact (mem_append.1 hx).elim (fun hx => (hbefore x hx).1) (hplain x)
  · rw [← bracketed_brackets, brackets_append, brackets_eq_nil fun x hx => (hbefore x hx).2,
      hbrackets]
    decide

theorem bracketedSpan_of_mem_heapSpans (hnested : Nested body) {s : Span}
    (hs : s ∈ heapSpans body) :
    BracketedSpan body s := by
  rcases mem_append.1 (mem_mergeSort.1 hs) with hs | hs
  · obtain ⟨head, hhead, hs⟩ := mem_flatMap.1 hs
    obtain ⟨call, hcall, rfl⟩ := mem_map.1 hs
    obtain ⟨hlt, hle, -, hspan⟩ := bracketed_call hnested (takesHead_heapCallHeads head hhead) hcall
    exact ⟨hlt, hle, hspan⟩
  · obtain ⟨m, hm, rfl⟩ := mem_map.1 hs
    obtain ⟨u, w, v, rfl, hstart, hstop, hne, hcode, hneat⟩ :=
      exists_of_mem_findAll ensures_heapMethod hm
    have hpos := length_pos_of_ne_nil hne
    refine ⟨?_, ?_, ?_⟩
    · dsimp only
      omega
    · simp [hstop]
    · dsimp only
      rw [hstart, hstop]
      exact hneat u v hcode

theorem disjointSpans_sublist (limit : Nat) (spans : List Span) :
    (disjointSpans limit spans).Sublist spans := by
  induction spans generalizing limit with
  | nil => exact .slnil
  | cons s spans ih =>
    rw [disjointSpans]
    split
    · exact (ih limit).cons s
    · exact (ih s.2).cons_cons s

theorem pairwise_disjointSpans (h : ∀ s ∈ spans, s.1 < s.2) :
    (∀ s ∈ disjointSpans limit spans, limit ≤ s.1) ∧ (disjointSpans limit spans).Pairwise
      fun s s' => s.2 ≤ s'.1 := by
  induction spans generalizing limit with
  | nil => simp [disjointSpans]
  | cons s spans ih =>
    obtain ⟨hs, hspans⟩ := forall_mem_cons.1 h
    rw [disjointSpans]
    split
    · exact ih hspans
    · obtain ⟨hlater, hpair⟩ := @ih s.2 hspans
      refine ⟨fun s' hs' => ?_, hpair.cons hlater⟩
      rcases mem_cons.1 hs' with rfl | hs'
      · omega
      · have := hlater s' hs'
        omega

/-- The edit that marks a stretch. -/
def heapEdit (body : Text) (s : Span) : Edit :=
  ⟨s.1, s.2, Marker.render "bounded_sequences" (body.slice s.1 s.2)⟩

/-- Marks a stretch. -/
def markSpan (s : Span) (body : Text) : Text :=
  body.splice (heapEdit body s).start (heapEdit body s).stop (heapEdit body s).replacement

/-- The stretches that are marked in a body. -/
def markedSpans (body : Text) : List Span :=
  disjointSpans 0 ((heapSpans body).filter fun s =>
    !((findCallsWith false logHead body).map fun c => ((c.start, c.stop) : Span)).any fun l =>
      Span.holds l s.1)

theorem markHeap_eq (body : Text) : markHeap body = (markedSpans body).foldr markSpan body := rfl

/-- The markers are read as comments, each one when its turn comes. -/
def CleanMarks (body : Text) : List Span → Prop
  | [] => True
  | s :: later =>
    Splices (later.foldr markSpan body) (heapEdit (later.foldr markSpan body) s) ∧
      CleanMarks body later

instance CleanMarks.decide (body : Text) : (spans : List Span) → Decidable (CleanMarks body spans)
  | [] => isTrue trivial
  | _ :: later =>
    have := CleanMarks.decide body later
    inferInstanceAs (Decidable (_ ∧ _))

/-- A stretch of a body is a stretch of a text that is read alike up to its end. -/
theorem BracketedSpan.of_sameMarks {s : Span} (h : BracketedSpan body s)
    (hsame : SameMarks s.2 body cur) :
    BracketedSpan cur s := by
  have hlen := congrArg List.length hsame
  rw [length_take, length_take, length_marked, length_marked] at hlen
  have hle := h.stop_le
  refine ⟨h.start_lt_stop, by omega, ?_⟩
  rw [hsame]
  exact h.span

theorem nested_foldr_markSpan (hnested : Nested body) (hspans : ∀ s ∈ spans, BracketedSpan body s)
    (hpair : spans.Pairwise fun s s' => s.2 ≤ s'.1) (h : CleanMarks body spans) :
    Nested (spans.foldr markSpan body) ∧
      ∀ limit, (∀ s ∈ spans, limit ≤ s.1) → SameMarks limit body (spans.foldr markSpan body) := by
  induction spans with
  | nil => exact ⟨hnested, fun _ _ => rfl⟩
  | cons s later ih =>
    obtain ⟨hs, hspans⟩ := forall_mem_cons.1 hspans
    obtain ⟨hbefore, hpair⟩ := pairwise_cons.1 hpair
    obtain ⟨hlater, hsame⟩ := ih hspans hpair h.2
    have hkeep := hsame s.2 hbefore
    have hspan := hs.of_sameMarks hkeep
    have hedit : KeepsNested (later.foldr markSpan body) (heapEdit (later.foldr markSpan body) s) :=
      ⟨hspan.start_lt_stop, hspan.stop_le, hspan.span, nested_marker (by decide) _⟩
    obtain ⟨hmarked, hsame'⟩ := nested_splice h.1 hedit (hkeep.mono hspan.start_lt_stop.le) hlater
    exact ⟨hmarked, fun limit hlimit => hsame'.mono (hlimit s mem_cons_self)⟩

/-- **Markers for what allocates keep nested code nested.** -/
theorem nested_markHeap (hnested : Nested body) (h : CleanMarks body (markedSpans body)) :
    Nested (markHeap body) := by
  have hspans (keep : Span → Bool) : ∀ s ∈ (heapSpans body).filter keep, BracketedSpan body s :=
    fun s hs =>
    bracketedSpan_of_mem_heapSpans hnested (mem_of_mem_filter hs)
  rw [markHeap_eq]
  refine (nested_foldr_markSpan hnested
    (fun s hs => hspans _ s ((disjointSpans_sublist _ _).subset hs)) ?_ h).1
  exact (pairwise_disjointSpans fun s hs => (hspans _ s hs).start_lt_stop).2

/-! ## The step -/

/-- What keeps a body nested where its local sequences are lowered, too. -/
@[mk_iff]
structure CleanLocals (s : Scope) (body : Text) : Prop where
  elements : ∀ l ∈ localBindings body, Bracketed (l.element.getD [])
  bindings : Recodes (do return (← localBinding).render : Pattern Text).replaceAll body
  scope : CleanScope s (lowerLocals body)
  borrows : RecodesAll (borrowRules s.locals) (lowerInScope s (lowerLocals body))
  marks : CleanMarks (sliceLocals s.locals (lowerInScope s (lowerLocals body)))
    (markedSpans (sliceLocals s.locals (lowerInScope s (lowerLocals body))))

instance (s : Scope) (body : Text) : Decidable (CleanLocals s body) :=
  decidable_of_iff _ (cleanLocals_iff ..).symm

/-- What keeps a body nested in the step for sequences. -/
def CleanSequences (c : Context) (body : Text) : Prop :=
  if c.config.noAlloc then CleanLocals ⟨c, c.aliases body, localSequences body⟩ body
  else CleanScope ⟨c, c.aliases body, []⟩ body

instance (c : Context) (body : Text) : Decidable (CleanSequences c body) := by
  unfold CleanSequences
  infer_instance

/-- **The step for sequences keeps nested code nested.** -/
theorem nested_lowerSequences (hc : c.Orderly) (hnested : Nested body)
    (h : CleanSequences c body) : Nested (lowerSequences c body) := by
  rw [CleanSequences] at h
  rw [lowerSequences]
  split at h
  next hheap =>
    rw [if_pos hheap]
    have hlocals := @isName_of_mem_localSequences body
    have hscope := Scope.named hc (c.aliases body) fun e he => (hlocals he).2
    have hlowered :=
      nested_lowerInScope hscope (nested_lowerLocals hnested h.elements h.bindings) h.scope
    have hsliced :=
      nested_foldl (keepsBrackets_borrowRules fun e he => (hlocals he).1) h.borrows hlowered
    rw [← sliceLocals_eq] at hsliced
    exact nested_markHeap hsliced h.marks
  next hheap =>
    rw [if_neg hheap]
    exact nested_lowerInScope (Scope.named hc (c.aliases body) (by simp)) hnested h

end Lowering

end AnchorLowering
