import AnchorLowering.Lowering.Pipeline
import AnchorLowering.Proofs.BracketChange
import AnchorLowering.Proofs.RecognisedCall

/-!
# The brackets of the rules

The rules of the lowering steps keep brackets. Most of them take no bracket at all, or a pair of
them at once; the others hand on what they read between two brackets as it is.
-/

namespace AnchorLowering

open List Pattern Source

variable {s : Scope} {name : Text}

/-! ## Texts of the rules -/

/-- The brackets of joined texts are those of the parts. -/
theorem brackets_concat (parts : List Text) :
    brackets (Text.concat parts) = (parts.map brackets).flatten := by
  induction parts with
  | nil => rfl
  | cons part parts ih =>
    rw [Text.concat, flatten_cons, brackets_append, map_cons, flatten_cons, ← ih]
    rfl

theorem brackets_withoutBlanks {t : Text} (h : brackets t = []) :
    brackets (Text.withoutBlanks t) = [] :=
  brackets_eq_nil fun x hx => by
    simpa using filter_eq_nil_iff.1 h x (mem_of_mem_filter hx)

theorem brackets_ofNat (n : Nat) : brackets (Text.ofNat n) = [] := by
  refine brackets_eq_nil fun x hx => ?_
  have hdigit := Nat.isDigit_of_mem_toDigits (b := 10) (by decide) (by decide) hx
  exact isBracket_of_class (p := Char.isDigit) (by decide) hdigit

theorem brackets_counterName (h : brackets name = []) : brackets (counterName name) = [] := by
  rw [counterName, brackets_append, h]
  rfl

/-- The names that a sequence lends to a body have no brackets. -/
structure SequenceField.Bare (s : SequenceField) : Prop where
  name : brackets s.name = []
  counterType : brackets s.counterType = []

namespace Lowering

/-! ## Sequences -/

/-- The sequences in scope lend a body names without brackets. -/
def Scope.Bare (s : Scope) : Prop := ∀ place sequence, s.resolve? place = some sequence →
    sequence.Bare

/-- A place of a sequence is read without brackets. -/
theorem ensures_sequencePlace : sequencePlace.Ensures fun place u =>
    brackets u = [] ∧ brackets place.receiver = [] ∧ brackets place.name = [] := by
  refine TakesNoBracket.chain.capture.bind fun receiver _ hreceiver =>
    TakesNoBracket.wordBoundary.ensures.bind fun _ _ hnone =>
      TakesNoBracket.word.capture.bind fun name _ hname => .pure ?_
  simp only [brackets_append, hreceiver, hname, hnone, brackets_withoutBlanks, append_nil, and_self]

/-- What any pattern with a bounded reach takes is captured as it is. -/
theorem ensures_capture {α : Type} {p : Pattern α} (h : Bounded p) :
    (capture p).Ensures fun t u => u = t :=
  (Ensures.of_takes h).capture.mono fun _ _ h => h.1

theorem takesNoBracket_mut : TakesNoBracket (do lit "mut"; blanks1) :=
  (TakesNoBracket.lit rfl).bind fun _ => TakesNoBracket.blanks1

/-- The head of a loop has the brackets of the pattern that it binds. -/
theorem keepsBrackets_loopHead (hs : s.Bare) : KeepsBrackets (loopHead s) := by
  have hbinder : Bounded (do let _ ← one (!isBlank ·); few (· != '\n')) :=
    Bounded.one.bind fun _ => Takes.few fun _ _ => trivial
  refine Turns.read
    (Turns.withText (f := fun r => r.1) (V := fun r => brackets r.2.2.receiver = []) <|
    .pass TakesNoBracket.wordBoundary fun _ => .pass (TakesNoBracket.lit rfl) fun _ =>
    .pass TakesNoBracket.blanks1 fun _ => .read (ensures_capture hbinder) fun binder u hu =>
    .pass TakesNoBracket.blanks1 fun _ => .pass (TakesNoBracket.lit rfl) fun _ =>
    .pass TakesNoBracket.blanks1 fun _ => .pass (TakesNoBracket.lit rfl) fun _ =>
    .pass TakesNoBracket.blanks fun _ => .pass takesNoBracket_mut.opt fun _ =>
    .note ensures_sequencePlace fun place hplace => .pass TakesNoBracket.blanks fun _ =>
    .pass TakesNoBracket.ahead fun _ => .pure (by subst hu; exact .refl _) hplace.1) ?_
  rintro ⟨⟨binder, forWriting, place⟩, whole⟩ u ⟨rfl, hwhole, hreceiver⟩
  dsimp only at hwhole hreceiver ⊢
  cases hresolve : s.resolve? place with
  | none => exact .pure (.refl _) trivial
  | some sequence =>
    have hname := (hs _ _ hresolve).name
    have hlength : brackets sequence.lengthName = [] := brackets_counterName hname
    refine .pure (hwhole.trans ?_) trivial
    refine (SameBrackets.append_bracketed (by decide : Bracketed "[]".toList)).trans
      (.of_brackets_eq ?_)
    cases forWriting <;>
      simp only [id_eq, brackets_concat, map_cons, map_nil, flatten_cons, flatten_nil, hreceiver,
        hname, hlength, brackets_append] <;> rfl

theorem neutral_emptySequence : Neutral emptySequence :=
  Ensures.orElse (Neutral.tokens (by decide)) (Neutral.tokens (by decide))

/-- An assignment of an empty sequence is replaced by a statement without brackets of its own. -/
theorem keepsBrackets_resetAssignment (hs : s.Bare) : KeepsBrackets (resetAssignment s) := by
  refine Turns.read
    (Turns.withText (f := fun _ => []) (V := fun place => brackets place.receiver = []) <|
    .pass TakesNoBracket.behind fun _ => .pass TakesNoBracket.behind fun _ =>
    .note ensures_sequencePlace fun place hplace => .pass TakesNoBracket.blanks fun _ =>
    .pass (TakesNoBracket.lit rfl) fun _ => .pass TakesNoBracket.notAhead fun _ =>
      .pass TakesNoBracket.blanks fun _ =>
    .skip neutral_emptySequence fun _ => .pure (.refl _) hplace.1) ?_
  rintro ⟨place, whole⟩ u ⟨rfl, hwhole, hreceiver⟩
  dsimp only at hwhole hreceiver ⊢
  cases hresolve : s.resolve? place with
  | none => exact .pure (.refl _) trivial
  | some sequence =>
    have hlength : brackets sequence.lengthName = [] := brackets_counterName (hs _ _ hresolve).name
    refine .pure (hwhole.trans (.of_brackets_eq ?_)) trivial
    simp only [id_eq, brackets_concat, map_cons, map_nil, flatten_cons, flatten_nil, hreceiver,
      hlength]
    rfl

/-- The capacity that the binding of a local sequence asks for is written in paired brackets. -/
theorem neutral_capacity : Neutral (do
    tokens ["with_capacity", "("]
    blanks
    let digits ← capture (many1 isDecimal)
    blanks
    lit ")"
    pure (some digits)) := by
  have hdigits : TakesNoBracket (many1 isDecimal) :=
    (Takes.one fun _ => isBracket_of_class (by decide)).bind fun _ => TakesNoBracket.many
    (by decide)
  refine Turns.neutral (V := fun _ => True) (.read (Neutral.brackets_tokens _) fun _ u hu =>
    .pass TakesNoBracket.blanks fun _ => .pass (Takes.capture hdigits) fun _ =>
      .pass TakesNoBracket.blanks fun _ =>
    .read (Ensures.lit _) fun _ v hv => .pure (.of_bracketed ?_ rfl) trivial)
  rw [← bracketed_brackets, brackets_append, nil_append, hu, hv]
  decide

/-- The binding of a local sequence has the brackets of its elements' type. -/
theorem turns_localBinding :
    Turns [] (fun l => l.element.getD []) (fun l => brackets l.name = []) localBinding := by
  have hmany1 : Bounded (few1 (· != '\n')) :=
    Bounded.one.bind fun _ => Takes.few fun _ _ => trivial
  have helement : Turns [] id (fun _ => True) (do
      tokens [":", "Vec", "<"]
      blanks
      let element ← capture (few1 (· != '\n'))
      blanks
      lit ">"
      blanks
      pure element) :=
    .skip (Neutral.tokens (by decide)) fun _ => .pass TakesNoBracket.blanks fun _ =>
    .read (ensures_capture hmany1) fun _ _ hu => .pass TakesNoBracket.blanks fun _ =>
    .pass (TakesNoBracket.lit rfl) fun _ => .pass TakesNoBracket.blanks fun _ =>
      .pure (by subst hu; exact .refl _) trivial
  have hopt := (Ensures.opt helement).mono (S := fun o u => SameBrackets u (o.getD []))
    fun o u h => by
    obtain ⟨t, rfl, hsame, -⟩ | ⟨rfl, rfl⟩ := h
    · exact hsame
    · exact .refl _
  refine .pass TakesNoBracket.wordBoundary fun _ => .pass (TakesNoBracket.lit rfl) fun _ =>
    .pass TakesNoBracket.blanks1 fun _ => .pass (TakesNoBracket.lit rfl) fun _ =>
      .pass TakesNoBracket.blanks1 fun _ =>
    .note TakesNoBracket.word.capture fun name hname => .pass TakesNoBracket.blanks fun _ =>
    .read hopt fun element u hu => .skip (Neutral.tokens (by decide)) fun _ =>
      .pass TakesNoBracket.blanks fun _ =>
    .skip (Ensures.orElse (Neutral.bind (Neutral.tokens (by decide)) fun _ => .pure rfl)
      neutral_capacity) fun _ =>
    .pass TakesNoBracket.blanks fun _ => .pass (TakesNoBracket.lit rfl) fun _ => .pure hu hname

/-- **The array of a local sequence has the brackets of the binding that it replaces**, if those of
the elements' type are paired. -/
theorem sameBrackets_render {l : LocalSequence} {u : Text} (h : SameBrackets u (l.element.getD []))
    (hname : brackets l.name = []) (helement : Bracketed (l.element.getD [])) :
    SameBrackets u l.render := by
  refine .of_bracketed (h.symm.bracketed helement) ?_
  have hcapacity := brackets_ofNat l.capacity
  have hcounter := brackets_counterName hname
  obtain ⟨name, _ | element, explicit⟩ := l
  · rw [LocalSequence.render, ← bracketed_brackets]
    simp only [brackets_concat, map_cons, map_nil, flatten_cons, flatten_nil, hname, hcapacity,
      hcounter, brackets_nil]
    decide
  · rw [LocalSequence.render, ← bracketed_brackets]
    simp only [brackets_concat, map_cons, map_nil, flatten_cons, flatten_nil, hname, hcapacity,
      hcounter]
    have hinner : Bracketed ('[' :: (brackets element ++ [']'])) :=
      (bracketed_brackets.2 helement).wrap rfl
    exact hinner.append (by decide : Bracketed "[()]".toList)

theorem keepsBrackets_localBorrow (hname : brackets name = []) :
    KeepsBrackets (localBorrow name) := by
  have hmut : (opt (capture do lit "mut"; blanks1)).Ensures fun o u => brackets u = [] ∧
      brackets (o.getD []) = [] :=
    (Ensures.opt takesNoBracket_mut.capture).mono fun o u h => by
      obtain ⟨t, rfl, ht⟩ | ⟨rfl, rfl⟩ := h
      · exact ht
      · exact ⟨rfl, rfl⟩
  refine .pass TakesNoBracket.behind fun _ => .pass (TakesNoBracket.lit rfl) fun _ =>
    .pass TakesNoBracket.blanks fun _ =>
    .note hmut fun forWriting hforWriting => .pass (TakesNoBracket.lit hname) fun _ =>
    .pass TakesNoBracket.wordBoundary fun _ => .pass TakesNoBracket.notAhead fun _ =>
      .pure (.of_bracketed rfl ?_) trivial
  rw [id_eq, ← bracketed_brackets]
  simp only [brackets_concat, map_cons, map_nil, flatten_cons, flatten_nil, hname, hforWriting,
    brackets_counterName]
  decide

/-! ## State -/

theorem ensures_receiver (name : Text) : (receiver name).Ensures fun _ u => u = name :=
  Ensures.behind.bind fun _ _ hnil => (Ensures.lit name).mono fun _ _ hu => by
  rw [hnil, hu, nil_append]

theorem keepsBrackets_loadRule (b : StateBinding) : KeepsBrackets (loadRule b) := by
  have hload : Turns [] (fun r => r.2) (fun _ => True) (recordLoad b) :=
    .read (ensures_receiver _) fun _ u hu => .pass (TakesNoBracket.spaced rfl) fun _ =>
    .pass (TakesNoBracket.lit rfl) fun _ => .pass (Takes.opt (Takes.oneOf (by decide))) fun _ =>
    .pass TakesNoBracket.blanks fun _ => .skip (Neutral.tokens (by decide)) fun _ =>
    .pure (by subst hu; exact .refl _) trivial
  exact .read hload fun r u hu => .pure hu.1 trivial

theorem takesNoBracket_aliasStatement : TakesNoBracket aliasStatement :=
  (TakesNoBracket.many (by decide)).bind fun _ => TakesNoBracket.letKeyword.bind fun _ =>
    (Takes.capture TakesNoBracket.word).bind fun _ => (TakesNoBracket.spaced rfl).bind fun _ =>
    TakesNoBracket.borrow.opt.bind fun _ => (Takes.capture TakesNoBracket.word).bind fun _ =>
    TakesNoBracket.blanks.bind fun _ => (TakesNoBracket.lit rfl).bind fun _ =>
    (TakesNoBracket.many (by decide)).bind fun _ => (Takes.opt (TakesNoBracket.lit rfl)).bind
      fun _ => .pure _

theorem keepsBrackets_dropAlias (c : Context) (aliases : Table Text) :
    KeepsBrackets (dropAlias c aliases) := by
  refine .read takesNoBracket_aliasStatement.ensures.withText ?_
  rintro ⟨e, statement⟩ u ⟨rfl, hnone⟩
  refine .pure ?_ trivial
  rw [id_eq]
  split
  · exact .of_brackets_eq hnone
  · exact .refl _

theorem keepsBrackets_inline {name account : Text} (hname : brackets name = [])
    (haccount : brackets account = []) :
    KeepsBrackets (do wholeReceiver name; pure account) := by
  have hreceiver : TakesNoBracket (wholeReceiver name) :=
    Takes.bind (TakesNoBracket.behind.bind fun _ => TakesNoBracket.lit hname) fun _ =>
      TakesNoBracket.wordBoundary
  exact .pass hreceiver fun _ => .pure (.of_brackets_eq haccount.symm) trivial

/-- The access to a field is routed without a bracket. -/
theorem keepsBrackets_fieldAccess (b : StateBinding) : KeepsBrackets (fieldAccess b) := by
  refine .read (ensures_receiver _) fun _ u hu => .pass (TakesNoBracket.spaced rfl) fun _ =>
    .read (Ensures.oneOf _) fun field v hv => .pass TakesNoBracket.wordBoundary fun _ =>
    .pass TakesNoBracket.notAhead fun _ => .pure (.of_brackets_eq ?_) trivial
  have hhandle : brackets b.handle = brackets b.account := by
    rw [StateBinding.handle, brackets_append]
    exact append_nil _
  have hdot : brackets ".".toList = [] := rfl
  simp only [id_eq, brackets_concat, map_cons, map_nil, flatten_cons, flatten_nil, brackets_append,
    hhandle, hdot, hu, hv.1, append_nil, nil_append]

theorem neutral_keyCall : Neutral keyCall :=
  Neutral.bind TakesNoBracket.chain1.neutral fun _ => Neutral.bind (TakesNoBracket.lit rfl).neutral
    fun _ =>
    Neutral.bind TakesNoBracket.blanks.neutral fun _ => Neutral.noArguments

/-- A key that is stored keeps the brackets: the indices before it and its call are written as they
were read. -/
theorem keepsBrackets_keyAssignment (handles : List Text) :
    KeepsBrackets (keyAssignment handles) := by
  refine .read (ensures_capture (bounded_keyTarget handles)) fun left u hu =>
    .read (Ensures.capture neutral_keyCall) fun key v hv =>
    .pass TakesNoBracket.notAhead fun _ => .pure (.of_brackets_eq ?_) trivial
  simp only [id_eq, brackets_concat, map_cons, map_nil, flatten_cons, flatten_nil, brackets_append,
    hu, hv.1, brackets_nil, append_nil]
  rfl

/-! ## Balances and comparisons -/

theorem keepsBrackets_balanceBorrow (method checked : String)
    (hmethod : brackets method.toList = [])
    (hchecked : brackets checked.toList = []) : KeepsBrackets (balanceBorrow method checked) := by
  have hmark : TakesNoBracket (do lit "*"; let _ ← opt (lit "*"); blanks) :=
    (TakesNoBracket.lit rfl).bind fun _ => (Takes.opt (TakesNoBracket.lit rfl)).bind fun _ =>
      TakesNoBracket.blanks
  have htokens : Bracketed ([".".toList, "lamports".toList, ".".toList, method.toList, "(".toList,
      ")".toList]).flatten := by
    rw [← bracketed_brackets]
    simp only [flatten_cons, flatten_nil, brackets_append, hmethod]
    decide
  refine .pass hmark.opt fun mark => .note TakesNoBracket.dottedName.capture fun account haccount =>
    .pass TakesNoBracket.blanks fun _ => .skip (Neutral.tokens htokens) fun _ =>
      .pure (.of_bracketed rfl ?_) trivial
  have hstar : brackets (if mark.isSome then "*".toList else "".toList) = [] := by split <;> rfl
  rw [id_eq, ← bracketed_brackets]
  simp only [brackets_concat, map_cons, map_nil, flatten_cons, flatten_nil, haccount,
    hchecked, hstar]
  decide

theorem keepsBrackets_doubleDereference : KeepsBrackets doubleDereference := by
  have haccess : TakesNoBracket (do
      dottedName
      spaced "."
      lit "try_borrow"
      let _ ← opt (lit "_mut")
      lit "_lamports") :=
    TakesNoBracket.dottedName.bind fun _ => (TakesNoBracket.spaced rfl).bind fun _ =>
      (TakesNoBracket.lit rfl).bind fun _ =>
      (Takes.opt (TakesNoBracket.lit rfl)).bind fun _ => TakesNoBracket.lit rfl
  refine .pass (TakesNoBracket.lit rfl) fun _ => .pass TakesNoBracket.blanks fun _ =>
    .note haccess.capture fun access hnone => .pass TakesNoBracket.wordBoundary fun _ =>
      .pure (.of_brackets_eq ?_) trivial
  exact hnone.symm

theorem bounded_comparisonOperand : comparisonOperand.Ensures fun operand u => u = operand :=
  ensures_capture <| (Takes.opt Bounded.one).bind fun _ =>
    (TakesNoBracket.dottedName.mono fun _ _ => trivial).bind fun _ =>
    (Takes.opt (Bounded.many.bind fun _ =>
      Bounded.tokens)).bind fun _ => .pure _

/-- The operands of a comparison keep their brackets. -/
theorem keepsBrackets_keyComparison : KeepsBrackets keyComparison := by
  have hoperator : Bounded (do blanks; let _ ← oneOf ["==", "!="]; blanks) :=
    Bounded.many.bind fun _ => Bounded.oneOf.bind fun _ => Bounded.many
  refine .pass TakesNoBracket.behind fun _ => .read bounded_comparisonOperand fun left u hu =>
    .read (ensures_capture hoperator) fun operator v hv => .read bounded_comparisonOperand
      fun right w hw =>
    .pass TakesNoBracket.notAhead fun _ => .pure (.of_brackets_eq ?_) trivial
  subst hu hv hw
  rw [id_eq, dereferencePair]
  split <;>
    simp only [brackets_concat, map_cons, map_nil, flatten_cons, flatten_nil, brackets_append,
      append_nil, nil_append, append_assoc] <;> rfl

end Lowering

end AnchorLowering
