import AnchorLowering.Proofs.MarkerText
import AnchorLowering.Proofs.RuleBrackets
import AnchorLowering.Proofs.WovenText

/-!
# Assertions and diagnostics in nested code

An assertion becomes a block that has its arguments in it, an error macro becomes its argument, and
a log call becomes a comment. None of this unpairs a bracket of nested code, if the arguments may be
put into a template: if they leave no comment open, and are read alike when their blanks are
collapsed (`Collapses`).
-/

namespace AnchorLowering

open List Pattern Source

variable {m : AssertionMacro} {call : Call} {a b : Char} {name : String}
  {body default inner t : Text}

/-! ## Comments -/

namespace Source

theorem blockTail_of_noPair (h : NoPair '*' '/' t) (rest : Text) :
    blockTail (t ++ '*' :: '/' :: rest) = t.length + 2 := by
  induction t with
  | nil => rfl
  | cons c t ih =>
    rw [cons_append, blockTail, ih h.tail, length_cons, Nat.add_comm 1, Nat.add_right_comm]
    rintro rest' rfl hslash
    cases t with
    | nil => cases hslash
    | cons d t => exact (isChain_cons_cons.1 h).1 ⟨rfl, (cons.inj hslash).1⟩

/-- A text between comment marks, if it does not close the comment. -/
def comment (inner : Text) : Text := "/* ".toList ++ (inner ++ " */".toList)

theorem NoPair.append {u : Text} (ht : NoPair a b t) (hu : NoPair a b u)
    (hlast : t.getLast? ≠ some a ∨ u.head? ≠ some b) : NoPair a b (t ++ u) := by
  refine isChain_append.2 ⟨ht, hu, fun x hx y hy hpair => ?_⟩
  obtain ⟨rfl, rfl⟩ := hpair
  exact hlast.elim (fun h => h hx) fun h => h hy

theorem NoPair.of_not_mem (h : a ∉ t) : NoPair a b t := by
  induction t with
  | nil => exact .nil
  | cons x t ih =>
    refine isChain_cons.2 ⟨fun y _ hpair => h ?_, ih fun hmem => h (mem_cons_of_mem _ hmem)⟩
    rw [hpair.1]
    exact mem_cons_self

theorem sealedAt_comment (h : NoPair '*' '/' inner) (before rest : Text) :
    SealedAt before (comment inner ++ rest) (comment inner).length := by
  have hinner : NoPair '*' '/' (" ".toList ++ (inner ++ " ".toList)) :=
    NoPair.append (by decide) (NoPair.append h (by decide) (.inr (by decide))) (.inl (by decide))
  have hblock : SealedAt before
      ('/' :: '*' :: (" ".toList ++ (inner ++ " ".toList) ++ '*' :: '/' :: rest)) _ := .block
  rw [blockTail_of_noPair hinner] at hblock
  refine hblock.cast ?_ ?_
  · simp [comment]
  · simp [comment]
    omega

theorem pieces_comment (h : NoPair '*' '/' inner) :
    Text.pieces sealedClaim (comment inner) = [.claimed () (comment inner)] :=
  pieces_eq_iff.2 ⟨append_nil _, ⟨cons_ne_nil _ _, sealedAt_comment h [] []⟩, trivial⟩

theorem marked_comment (h : NoPair '*' '/' inner) :
    marked (comment inner) = (comment inner).map fun x => (x, false) := by
  rw [marked_eq, pieces_comment h, markedPieces_claimed]
  exact append_nil _

theorem codeText_map_sealed (t : Text) : codeText (t.map fun x => (x, false)) = [] := by
  induction t with
  | nil => rfl
  | cons x t ih => exact ih

theorem nested_comment (h : NoPair '*' '/' inner) : Nested (comment inner) := by
  rw [Nested, marked_comment h, codeText_map_sealed]
  rfl

/-- A marker is a comment. -/
theorem exists_comment_render {step : Text} (hstep : IsName step) (fragment : Text) :
    ∃ inner, Marker.render step fragment = comment inner ∧ NoPair '*' '/' inner := by
  have hword : NoPair '*' '/' step :=
    NoPair.of_not_mem fun hmem => absurd (hstep.word _ hmem) (by decide)
  refine ⟨"UNRESOLVED(".toList ++ (step ++ ("): ".toList ++ Marker.quote fragment)), ?_, ?_⟩
  · rw [Marker.render_eq, comment]
    simp
  · refine NoPair.append (by decide) (NoPair.append hword ?_ (.inr (by simp))) (.inl (by decide))
    exact NoPair.append (by decide) (Marker.quoted_quote fragment).noClose (.inl (by decide))

/-- A marker is a comment. -/
theorem nested_marker {step : Text} (hstep : IsName step) (fragment : Text) :
    Nested (Marker.render step fragment) := by
  obtain ⟨inner, hrender, hinner⟩ := exists_comment_render hstep fragment
  rw [hrender]
  exact nested_comment hinner

theorem nested_commentOut (t : Text) : Nested (Lowering.commentOut t) := by
  have hinner : NoPair '*' '/' ((Text.join " " t.words).replace "*/" "* /") :=
    NoPair.of_broken (by decide) (by decide) (by decide) _ (.inl ⟨rfl, rfl⟩)
  have hcomment : Lowering.commentOut t = comment ((Text.join " " t.words).replace "*/" "* /") := by
    simp [Lowering.commentOut, comment, Text.concat]
  rw [hcomment]
  exact nested_comment hinner

end Source

namespace Lowering

/-! ## Heads of calls -/

theorem takesHead_lit (h : ∀ x ∈ t, isHeadChar x = true) : TakesHead (lit t) := Takes.lit h

theorem takesHead_blanks : TakesHead blanks := Takes.many fun _ => isHeadChar_of_isBlank

theorem takesHead_tokens {ts : List Text} (h : ∀ t ∈ ts, ∀ x ∈ t, isHeadChar x = true) :
    TakesHead (tokens ts) :=
  takes_tokens (fun _ => isHeadChar_of_isBlank) h

theorem takesHead_assertionHead : TakesHead assertionHead :=
  Takes.wordBoundary.bind fun _ => (Takes.choose (by decide)).bind fun _ => takesHead_blanks.bind
    fun _ =>
    (takesHead_lit (by decide)).bind fun _ => .pure _

theorem takesHead_macroHead (h : ∀ x ∈ name.toList, isHeadChar x = true) :
    TakesHead (macroHead name) :=
  Takes.wordBoundary.bind fun _ => takesHead_tokens (forall_mem_cons.2 ⟨h, by decide⟩)

/-! ## Checks -/

variable {t condition error : Text}

theorem fits_guardWith (hcondition : Fits condition) (herror : Fits error) :
    Fits (guardWith condition error) := by
  have hguard : guardWith condition error =
      "if ".toList ++
      (condition ++ (" \x7b return Err(".toList ++ (error ++ "); \x7d".toList))) := by
    simp [guardWith, braces, Text.concat]
  rw [hguard]
  exact hcondition.around₂ herror (by decide) (joint_cons (by decide) (by decide) (by decide)
    (by decide))
    (ending_cons (by decide) (by decide) (by decide)) (by decide)

/-- An argument that may be put into a template once its blanks are collapsed. -/
@[mk_iff]
structure Readable (arg : Text) : Prop where
  closed : Closed arg
  collapses : Collapses arg

instance (arg : Text) : Decidable (Readable arg) := decidable_of_iff _ (readable_iff ..).symm

theorem fits_operand (h : Fits (collapseBlanks t)) : Fits (operand t) := by
  rw [operand]
  split
  · exact h
  · exact h.around (u := "(".toList) (v := ")".toList) (by decide)
      (ending_cons (by decide) (by decide) (by decide)) (by decide)

theorem fits_dereferenceKey (h : Fits (collapseBlanks t)) : Fits (dereferenceKey t) := by
  rw [dereferenceKey]
  split
  · exact h.after (u := "*".toList) (by decide) (by decide)
  · exact h

/-- An error that is given is handed on, converted if need be; the default is a plain path. -/
theorem fits_errorValue (hdefault : Fits default) {error : Option Text}
    (h : ∀ e ∈ error, Fits (collapseBlanks e)) : Fits (errorValue error default) := by
  cases error with
  | none => exact hdefault
  | some e =>
    have hfits := h e rfl
    cases e with
    | nil => exact hdefault
    | cons x e =>
      rw [errorValue]
      split
      · exact hfits
      · have hinto :=
          hfits.before (v := ".into()".toList) (ending_cons (by decide) (by decide) (by decide))
          (by decide)
        simpa [Text.concat] using hinto
      · simp

/-- The operators of the comparisons stand between their operands, and their errors are plain. -/
theorem comparison_of_mem (hm : m ∈ assertionMacros) {operator : String}
    (h : m.comparison = some (operator, default)) :
    Joint (' ' :: (operator.toList ++ " ".toList)) ∧
    Bracketed (' ' :: (operator.toList ++ " ".toList)) ∧
      Fits default := by
  have htable : ∀ m ∈ assertionMacros, ∀ c ∈ m.comparison,
      Opening (' ' :: (c.1.toList ++ " ".toList)) ∧ (c.1.toList ++ " ".toList).head? ≠ some '\'' ∧
        Bracketed (' ' :: (c.1.toList ++ " ".toList)) ∧ Plain c.2 ∧ Bracketed c.2 := by decide
  obtain ⟨hopening, hquote, hbracketed, hplain, hdefault⟩ := htable m hm _ h
  exact ⟨joint_cons hopening (by decide) (by simp) hquote, hbracketed, fits_plain hplain hdefault⟩

/-- The check of an assertion may be put into a template if its arguments may. -/
theorem fits_lower (hm : m ∈ assertionMacros) {args : List Text}
    (hargs : ∀ a ∈ args, Fits (collapseBlanks a))
    (hcondition : ∀ a ∈ args.head?, Fits (dereferenceComparisons (collapseBlanks a)))
    (h : m.lower? args = some t) :
    Fits t := by
  unfold AssertionMacro.lower? at h
  split at h
  next condition error hnone =>
    obtain rfl := Option.some.inj h
    have hnot := (hcondition condition rfl).around (u := "!(".toList) (v := ")".toList) (by decide)
      (ending_cons (by decide) (by decide) (by decide)) (by decide)
    have hconcat : Text.concat ["!(", dereferenceComparisons (collapseBlanks condition), ")"] =
        "!(".toList ++ (dereferenceComparisons (collapseBlanks condition) ++ ")".toList) := by
      simp [Text.concat]
    rw [hconcat]
    refine fits_guardWith hnot (fits_errorValue (fits_plain (by decide) (by decide)) fun e he => ?_)
    obtain rfl := Option.mem_some_iff.1 he
    exact hargs error (by simp)
  next operator default left right rest hsome =>
    obtain ⟨hjoint, hbracketed, hdefault⟩ := comparison_of_mem hm hsome
    have hside : ∀ a ∈ left :: right :: rest,
        Fits ((if m.onKeys then dereferenceKey else operand) a) := by
      intro a ha
      split
      · exact fits_dereferenceKey (hargs a ha)
      · exact fits_operand (hargs a ha)
    dsimp only at h
    generalize (if m.onKeys = true then dereferenceKey else operand) = side at h hside
    have hpair := (hside left (by simp)).join (hside right (by simp)) hjoint hbracketed
    have hconcat : ∀ l r : Text, Text.concat [l, " ", operator.toList, " ", r] =
        l ++ (' ' :: (operator.toList ++ " ".toList) ++ r) := fun l r => by simp [Text.concat]
    rw [← hconcat] at hpair
    split at h
    · obtain rfl := Option.some.inj h
      exact fits_guardWith hpair (fits_errorValue hdefault fun e he => by cases he)
    · obtain rfl := Option.some.inj h
      refine fits_guardWith hpair (fits_errorValue hdefault fun e he => ?_)
      obtain rfl := Option.mem_some_iff.1 he
      exact hargs _ (by simp)
    · cases h
  · cases h

/-! ## Assertions -/

/-- The arguments of an assertion may be put into a template, the first also once its keys are
dereferenced. -/
@[mk_iff]
structure ReadableAssertion (call : Call) : Prop where
  args : ∀ a ∈ call.args, Readable a
  recodes : ∀ a ∈ call.args.head?, Recodes keyComparison.replaceAll (collapseBlanks a)
  closed : ∀ a ∈ call.args.head?, Closed (dereferenceComparisons (collapseBlanks a))

instance (call : Call) : Decidable (ReadableAssertion call) :=
  decidable_of_iff _ (readableAssertion_iff ..).symm

theorem ensures_assertionHead : assertionHead.Ensures fun m _ => m ∈ assertionMacros := by
  refine TakesNoBracket.wordBoundary.ensures.bind fun _ _ _ => Ensures.choose.bind fun m _ hm => ?_
  obtain ⟨_, he, rfl⟩ := hm
  obtain ⟨m, hm, rfl⟩ := mem_map.1 he
  exact (Ensures.of_takes takesHead_blanks).bind fun _ _ _ => (Ensures.lit _).bind fun _ _ _ =>
    .pure hm

theorem keepsNested_assertionEdit (hnested : Nested body)
    (hcall : call ∈ findCalls assertionHead body)
    (h : ReadableAssertion call) :
    KeepsNested body (assertionEdit body call) := by
  obtain ⟨hlt, hle, hargs, hspan⟩ := bracketed_call hnested takesHead_assertionHead hcall
  refine ⟨hlt, hle, hspan, ?_⟩
  have hfits : ∀ a ∈ call.args, Fits (collapseBlanks a) := fun a ha =>
    (h.args a ha).collapses.fits (nested_argument hargs ha (h.args a ha).closed)
  cases hlower : (assertionHead.readStart? call.head).bind fun r => r.1.lower? call.args with
  | none =>
    rw [assertionEdit, hlower]
    exact nested_marker (by decide) _
  | some t =>
    rw [assertionEdit, hlower]
    obtain ⟨r, hr, ht⟩ := Option.bind_eq_some_iff.1 hlower
    refine (fits_lower (ensures_assertionHead _ r (mem_of_mem_head? hr)).2 hfits
      (fun a ha => ?_) ht).nested
    have hcollapsed := (hfits a (mem_of_mem_head? ha)).nested
    exact (h.closed a ha).fits (nested_replaceInCode keepsBrackets_keyComparison
      (h.recodes a ha) hcollapsed)

theorem keepsNested_errorEdits (hname : ∀ x ∈ name.toList, isHeadChar x = true)
    {render : Text → Text} (hrender : ∀ e, Fits e → Fits (render e)) (hnested : Nested body)
    (h : ∀ call ∈ findCallsWith false (macroHead name) body, Collapses call.argsText) :
    ∀ e ∈ errorEdits name render body, KeepsNested body e := by
  intro e he
  obtain ⟨call, hcall, hedit⟩ := mem_filterMap.1 he
  obtain ⟨hlt, hle, hargs, hspan⟩ := bracketed_call hnested (takesHead_macroHead hname) hcall
  split at hedit
  · cases hedit
  · obtain rfl := Option.some.inj hedit
    refine ⟨hlt, hle, hspan,
      (hrender _ (fits_errorValue (fits_plain (by decide) (by decide)) fun e he => ?_)).nested⟩
    obtain rfl := Option.mem_some_iff.1 he
    exact (h call hcall).fits hargs

/-- The edits for the assertions of a body. -/
def assertionEdits (body : Text) : List Edit :=
  (findCalls assertionHead body).map (assertionEdit body)

/-- The edits for the error macros of a body. -/
def errorMacroEdits (body : Text) : List Edit :=
  errorEdits "err" (fun e => Text.concat ["Err(", e, ")"]) body ++ errorEdits "error" id body

/-- What keeps a body nested in the step for assertions: what it puts into templates may be put
there, and nothing is read otherwise where its edits meet the rest. -/
def CleanAssertions (body : Text) : Prop :=
  (∀ call ∈ findCalls assertionHead body, ReadableAssertion call) ∧
    OnSuccess (Edit.apply body (assertionEdits body)) fun next =>
      Seamless body (assertionEdits body) next ∧
      (∀ call ∈ findCallsWith false (macroHead "err") next, Collapses call.argsText) ∧
      (∀ call ∈ findCallsWith false (macroHead "error") next, Collapses call.argsText) ∧
      OnSuccess (Edit.apply next (errorMacroEdits next)) fun last =>
        Seamless next (errorMacroEdits next) last ∧ Recodes keyComparison.replaceAll last

instance (body : Text) : Decidable (CleanAssertions body) := by
  unfold CleanAssertions
  infer_instance

/-- **The step for assertions keeps nested code nested.** -/
theorem nested_lowerAssertions (hnested : Nested body) (h : CleanAssertions body) :
    OnSuccess (lowerAssertions body) Nested := by
  obtain ⟨hreadable, h⟩ := h
  refine OnSuccess.bind fun next hnext => ?_
  obtain ⟨hseam, herr, herror, h⟩ := h next hnext
  have hnested' : Nested next := by
    refine nested_apply hnext hseam (fun e he => ?_) hnested
    obtain ⟨call, hcall, rfl⟩ := mem_map.1 he
    exact keepsNested_assertionEdit hnested hcall (hreadable call hcall)
  refine OnSuccess.bind fun last hlast => ?_
  obtain ⟨hseam', hrecodes⟩ := h last hlast
  have hnested'' : Nested last := by
    refine nested_apply hlast hseam' (fun e he => ?_) hnested'
    rcases mem_append.1 he with he | he
    · refine keepsNested_errorEdits (by decide) (fun e he => ?_) hnested' herr e he
      simpa [Text.concat] using he.around (u := "Err(".toList) (v := ")".toList) (by decide)
        (ending_cons (by decide) (by decide) (by decide)) (by decide)
    · exact keepsNested_errorEdits (by decide) (fun e he => he) hnested' herror e he
  intro out hout
  obtain rfl := Except.ok.inj hout
  exact nested_replaceInCode keepsBrackets_keyComparison hrecodes hnested''

/-! ## Diagnostics -/

/-- The edits for the log calls and events of a body. -/
def diagnosticEdits (noLogs : Bool) (body : Text) : List Edit :=
  (findCalls (macroHead "msg") body).filterMap (messageEdit? noLogs body)
    ++ (findCalls (macroHead "emit") body).map (eventEdit noLogs body)

theorem keepsNested_messageEdit {noLogs : Bool} (hnested : Nested body)
    (hcall : call ∈ findCalls (macroHead "msg") body) {e : Edit}
    (h : messageEdit? noLogs body call = some e) :
    KeepsNested body e := by
  obtain ⟨hlt, hle, -, hspan⟩ := bracketed_call hnested (takesHead_macroHead (by decide)) hcall
  rw [messageEdit?] at h
  split at h
  · obtain rfl := Option.some.inj h
    exact ⟨hlt, hle, hspan, rfl⟩
  · split at h
    · cases h
    · obtain rfl := Option.some.inj h
      exact ⟨hlt, hle, hspan, nested_commentOut _⟩

theorem keepsNested_eventEdit (noLogs : Bool) (hnested : Nested body)
    (hcall : call ∈ findCalls (macroHead "emit") body) :
    KeepsNested body (eventEdit noLogs body call) := by
  obtain ⟨hlt, hle, -, hspan⟩ := bracketed_call hnested (takesHead_macroHead (by decide)) hcall
  refine ⟨hlt, hle, hspan, ?_⟩
  cases noLogs with
  | true => exact rfl
  | false => exact nested_marker (by decide) _

/-- What keeps a body nested in the step for diagnostics: nothing is read otherwise where its edits
meet the rest. -/
def CleanDiagnostics (c : Context) (body : Text) : Prop :=
  OnSuccess (lowerDiagnostics c body) (Seamless body (diagnosticEdits c.config.noLogs body))

instance (c : Context) (body : Text) : Decidable (CleanDiagnostics c body) :=
  inferInstanceAs (Decidable (OnSuccess _ _))

/-- **The step for diagnostics keeps nested code nested.** -/
theorem nested_lowerDiagnostics {c : Context} (hnested : Nested body)
    (h : CleanDiagnostics c body) :
    OnSuccess (lowerDiagnostics c body) Nested := by
  intro out hout
  have happly : Edit.apply body (diagnosticEdits c.config.noLogs body) = .ok out := hout
  refine nested_apply happly (h out hout) (fun e he => ?_) hnested
  rcases mem_append.1 he with he | he
  · obtain ⟨call, hcall, hedit⟩ := mem_filterMap.1 he
    exact keepsNested_messageEdit hnested hcall hedit
  · obtain ⟨call, hcall, rfl⟩ := mem_map.1 he
    exact keepsNested_eventEdit _ hnested hcall

end Lowering

end AnchorLowering
