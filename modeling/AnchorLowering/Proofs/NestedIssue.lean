import AnchorLowering.Proofs.NestedContext

/-!
# Calls of other programs in nested code

A call of another program is replaced by the statements that issue its instruction, and the bindings
that it alone reads go with it. This keeps nested code nested (`nested_lowerProgramCalls`), if

* the parts that are put into the statements leave no comment or literal open, and are read alike
  when their blanks are collapsed;
* the seeds that are written in the body are cut out between brackets that pair. They are found by a
  pattern that takes the last bracket, so of `&[&[a], &[b]]` it takes `a], &[b`;
* the bindings that go are bracketed stretches. The type of a binding is read up to the first equals
  sign.
-/

namespace AnchorLowering

open List Pattern Source

variable {context : CallContext} {t : CallTarget} {accounts : List (String × Text)}
  {signer : Option Text}
  {account expr : Text}

namespace Lowering

/-! ## Heads -/

theorem takesHead_word : TakesHead word := takes_word.mono fun _ hx => by simp [isHeadChar, hx]

theorem takesHead_pathLinks : TakesHead pathLinks :=
  Takes.star (Takes.wordBoundary.bind fun _ => takesHead_word.bind fun _ => takesHead_blanks.bind
    fun _ =>
    (takesHead_lit (by decide)).bind fun _ => takesHead_blanks)

theorem takesHead_callContextHead : TakesHead callContextHead :=
  takesHead_pathLinks.bind fun _ => Takes.wordBoundary.bind fun _ =>
    (takesHead_tokens (by decide)).bind fun _ =>
    takesHead_blanks.bind fun _ => (Takes.oneOf (by decide)).bind fun _ => Takes.wordBoundary

theorem CallTarget.takesHead_head (ht : t ∈ callTargets) : TakesHead t.head := by
  have hnames : ∀ t ∈ callTargets, ∀ name ∈ [t.program.toList, "::".toList, t.function.toList],
      ∀ x ∈ name, isHeadChar x = true := by decide
  exact takesHead_pathLinks.bind fun _ => Takes.wordBoundary.bind fun _ =>
    (takesHead_tokens (hnames t ht)).bind fun _ =>
    Takes.wordBoundary

/-! ## Accounts -/

/-- The call context leaves nothing open, in its arguments and in the accounts that the target takes
from it. -/
@[mk_iff]
structure CallTarget.ReadableContext (t : CallTarget) (expr : Text) : Prop where
  closed : Closed (Text.trim expr)
  args : ∀ call ∈ (findCallsWith false callContextHead (Text.trim expr)).head?, ∀ a ∈ call.args,
    Closed a
  accounts : ∀ context ∈ CallContext.parse? expr, ∀ role ∈ t.roles,
    ∀ value ∈ context.accounts.fields.get? role.2.toList, ReadableAccount value

instance (t : CallTarget) (expr : Text) : Decidable (t.ReadableContext expr) :=
  decidable_of_iff _ (CallTarget.readableContext_iff ..).symm

theorem mem_of_callContextArgs? {hasSigner : Bool} {args : List Text} {program accounts : Text}
    (h : callContextArgs? hasSigner args = some (program, accounts, signer)) : accounts ∈ args := by
  rw [callContextArgs?.eq_def] at h
  split at h
  · obtain ⟨-, h⟩ := Prod.mk.inj (Option.some.inj h)
    rw [(Prod.mk.inj h).1]
    simp
  · obtain ⟨-, h⟩ := Prod.mk.inj (Option.some.inj h)
    rw [(Prod.mk.inj h).1]
    simp
  · cases h

/-- The literal with the accounts of a nested call context is nested. -/
theorem exists_literal (hnested : Nested expr) (h : t.ReadableContext expr)
    (hparse : CallContext.parse? expr = some context) :
    ∃ accounts, Nested accounts ∧ StructLiteral.parse? accounts = some context.accounts := by
  simp only [CallContext.parse?, Option.bind_eq_bind] at hparse
  obtain ⟨call, hcall, hparse⟩ := Option.bind_eq_some_iff.1 hparse
  split at hparse
  · cases hparse
  obtain ⟨⟨program, accounts, signer⟩, hargs, hparse⟩ := Option.bind_eq_some_iff.1 hparse
  obtain ⟨signer', hparse⟩ : ∃ signer', ((StructLiteral.parse? accounts).bind fun literal =>
      some ⟨program, literal, signer'⟩) = some context := by
    split at hparse
    · exact ⟨signer, hparse⟩
    · obtain ⟨signer', -, hparse⟩ := Option.bind_eq_some_iff.1 hparse
      exact ⟨signer', hparse⟩
  obtain ⟨literal, hliteral, hparse⟩ := Option.bind_eq_some_iff.1 hparse
  obtain rfl := Option.some.inj hparse
  have hmem := mem_of_callContextArgs? hargs
  obtain ⟨-, -, hcallArgs, -⟩ :=
    bracketed_call (nested_trim hnested h.closed) takesHead_callContextHead (mem_of_mem_head? hcall)
  exact ⟨accounts, nested_argument hcallArgs hmem (h.args call hcall accounts hmem), hliteral⟩

/-- **The accounts of a nested call context may be put into a template.** -/
theorem CallTarget.fitAccounts (hnested : Nested expr) (h : t.ReadableContext expr)
    (hparse : CallContext.parse? expr = some context)
    (haccounts : t.accounts? context.accounts = some accounts) : t.FitAccounts accounts := by
  obtain ⟨literal, hliteral, hfields⟩ := exists_literal hnested h hparse
  intro a ha
  obtain ⟨role, hrole, hvalue⟩ := exists_of_mem_mapM haccounts ha
  obtain ⟨value, hget, rfl⟩ := Option.map_eq_some_iff.1 hvalue
  have hreadable := h.accounts context hparse role hrole value hget
  exact ⟨⟨role, hrole, rfl⟩,
    fits_accountReference (StructLiteral.nested_field hliteral hfields hget hreadable.closed)
    hreadable⟩

/-! ## Seeds and bumps -/

end Lowering

theorem Source.KeepsStretches.recodes {rule : Pattern Text} (h : KeepsStretches rule) (t : Text) :
    Recodes rule.replaceAll t := by
  have hsegments := h.segments_replaceInCode t
  rw [replaceInCode] at hsegments
  rw [Recodes, marked_eq_segments, hsegments]

/-- The names that the context lends to a body are names, and its seeds and bump sources are
nested. -/
@[mk_iff]
structure Context.Orderly (c : Context) : Prop where
  states : ∀ b ∈ c.states, b.Named ∧ IsName b.record
  sequences : ∀ s ∈ c.sequences, IsName s.name ∧ IsName s.counterType
  derived : ∀ d ∈ c.derived, IsName d.account ∧ (∀ seed ∈ d.seeds, Nested seed) ∧
    ∀ source ∈ d.bumpSource, Nested source

instance (c : Context) : Decidable c.Orderly := decidable_of_iff _ (Context.orderly_iff ..).symm

namespace Lowering

variable {c : Context} {body : Text}

theorem nested_routeFields (hc : ∀ b ∈ c.states, b.Named) {t : Text} (h : Nested t) :
    Nested (routeFields c t) := by
  rw [routeFields]
  generalize c.states = bs at hc
  induction bs generalizing t with
  | nil => exact h
  | cons b bs ih =>
    refine ih ?_ fun b hb => hc b (mem_cons_of_mem _ hb)
    have hstretches : KeepsStretches (anyFieldAccess [b]) :=
      keepsStretches_anyFieldAccess (by simpa using hc b)
    rw [routeBinding_eq]
    refine nested_replaceInCode ?_ (hstretches.recodes t) h
    rw [anyFieldAccess_singleton]
    exact keepsBrackets_fieldAccess b

theorem nested_routeIfBound (hc : c.Orderly) {t : Text} (h : Nested t) :
    Nested (routeIfBound c body t) := by
  rw [routeIfBound]
  split
  · exact h
  · exact nested_routeFields (fun b hb => (hc.states b hb).1) h

theorem nested_bumpExpression (hc : c.Orderly) {d : DerivedAccount}
    (hd : c.derivedFor? account = some d) :
    Nested (bumpExpression c body account d.bumpSource) := by
  have hmem := mem_of_find?_eq_some hd
  have hname : d.account = account := by simpa using find?_some hd
  obtain ⟨haccount, -, hsource⟩ := hc.derived d hmem
  have hlocal : Nested (account ++ "_bump".toList) := by
    refine nested_of_brackets_eq_nil ?_
    rw [brackets_append, ← hname, brackets_of_word haccount.word]
    rfl
  rw [bumpExpression.eq_def]
  split
  · exact hlocal
  · exact hlocal
  · next source hne heq =>
    dsimp only
    split
    · exact nested_routeIfBound hc (hsource source heq)
    · exact hlocal

/-- The seeds of a signer that are written in the body. -/
def signerWritten (body : Text) : Option Text → Option (List Text)
  | none | some [] => none
  | some expr => (resolveSeeds body expr).1

/-- The seeds of a signer leave nothing open, and neither does the bump. Those that are written in
the body are nested. -/
@[mk_iff]
structure ReadableSigner (c : Context) (body : Text) (signer : Option Text) (account : Text) :
    Prop where
  written : ∀ seeds ∈ signerWritten body signer, ∀ seed ∈ seeds, Nested seed
  seeds : ∀ s ∈ (signerSeeds c body signer account (c.derivedFor? account)).1, ∀ seed ∈ s.1,
    ReadableSeed seed
  bump : ∀ s ∈ (signerSeeds c body signer account (c.derivedFor? account)).1, ∀ bump ∈ s.2,
    Closed bump

instance (c : Context) (body : Text) (signer : Option Text) (account : Text) :
    Decidable (ReadableSigner c body signer account) :=
  decidable_of_iff _ (readableSigner_iff ..).symm

/-- The seeds of a signer are those that are written in the body, or else those of the derived
account. -/
theorem signerSeeds_fst (c : Context) (body : Text) (signer : Option Text) (account : Text)
    (derived : Option DerivedAccount) : (signerSeeds c body signer account derived).1 =
      match signerWritten body signer, derived with
      | some seeds, _ => some (seeds, none)
      | none, some d =>
        some (d.seeds.map (routeIfBound c body), some (bumpExpression c body account d.bumpSource))
      | none, none => none := by
  unfold signerSeeds signerWritten
  rcases signer with _ | _ | ⟨x, t⟩
  · cases derived <;> rfl
  · cases derived <;> rfl
  · dsimp only
    generalize resolveSeeds body (x :: t) = found
    obtain ⟨written, used⟩ := found
    cases written <;> cases derived <;> rfl

theorem nested_signerSeeds (hc : c.Orderly) (h : ReadableSigner c body signer account)
    {seeds : List Text} {bump : Option Text}
    (hseeds : (signerSeeds c body signer account (c.derivedFor? account)).1 = some (seeds, bump)) :
    (∀ seed ∈ seeds, Nested seed) ∧ ∀ b ∈ bump, Nested b := by
  rw [signerSeeds_fst] at hseeds
  split at hseeds
  next written hwritten =>
    obtain ⟨rfl, rfl⟩ := Prod.mk.inj (Option.some.inj hseeds)
    exact ⟨h.written _ hwritten, fun b hb => nomatch hb⟩
  next d hnone hd =>
    obtain ⟨rfl, rfl⟩ := Prod.mk.inj (Option.some.inj hseeds)
    refine ⟨fun seed hseed => ?_, fun b hb => ?_⟩
    · obtain ⟨source, hsource, rfl⟩ := mem_map.1 hseed
      exact nested_routeIfBound hc ((hc.derived d (mem_of_find?_eq_some hd)).2.1 source hsource)
    · obtain rfl := Option.mem_some_iff.1 hb
      exact nested_bumpExpression hc hd
  next => cases hseeds

/-! ## Calls -/

/-- The parts of a call may be put into a template. -/
@[mk_iff]
structure CallTarget.CleanCall (t : CallTarget) (c : Context) (body expr amount : Text) : Prop where
  closed : Closed expr
  readable : Readable amount
  written : t.ReadableContext expr
  bound : ∀ b ∈ Binding.find? body (Text.trim expr),
    Binding.Stands body (Text.trim expr) ∧ Closed b.value ∧ t.ReadableContext b.value
  signer : ∀ found ∈ findCallContext? body expr, ∀ accounts ∈ t.accounts? found.1.accounts,
    ReadableSigner c body found.1.signer ((accounts.lookup t.signerRole).getD [])

instance (t : CallTarget) (c : Context) (body expr amount : Text) :
    Decidable (t.CleanCall c body expr amount) :=
  decidable_of_iff _ (CallTarget.cleanCall_iff ..).symm

/-- The accounts of a call may be put into a template, wherever its call context is written. -/
theorem CallTarget.CleanCall.fitAccounts {amount : Text} (h : t.CleanCall c body expr amount)
    (hbody : Nested body) (hexpr : Nested expr) {removed : List Span}
    (hcontext : findCallContext? body expr = some (context, removed))
    (haccounts : t.accounts? context.accounts = some accounts) : t.FitAccounts accounts := by
  rcases findCallContext?_cases hcontext with ⟨hparse, -⟩ | ⟨b, -, hb, hparse, -⟩
  · exact CallTarget.fitAccounts hexpr h.written hparse haccounts
  · obtain ⟨hstands, hclosed, hreadable⟩ := h.bound b hb
    exact CallTarget.fitAccounts (Binding.nested_value hbody hb hstands hclosed) hreadable hparse
      haccounts

/-- **What a call becomes may be put into a template.** -/
theorem CallTarget.fits_lower? (ht : t ∈ callTargets) (hc : c.Orderly) (hbody : Nested body)
    {call : Call} (hargs : Nested call.argsText)
    (hclean : ∀ expr ∈ call.args[0]?, ∀ amount ∈ call.args[1]?, t.CleanCall c body expr amount)
    {signer : Nat} {lowered : LoweredCall} (h : t.lower? c body call signer = some lowered) :
    Fits lowered.replacement := by
  rw [lower?] at h
  split at h
  next expr amount hcall =>
    rw [hcall] at hclean
    have hclean := hclean expr rfl amount rfl
    obtain ⟨⟨context, removed⟩, hcontext, h⟩ := Option.bind_eq_some_iff.1 h
    obtain ⟨accounts, haccounts, h⟩ := Option.bind_eq_some_iff.1 h
    have hexpr : Nested expr :=
      nested_argument hargs (by rw [Call.args] at hcall; simp [hcall]) hclean.closed
    have hamount : Fits (collapseBlanks amount) :=
      hclean.readable.collapses.fits
        (nested_argument hargs (by rw [Call.args] at hcall; simp [hcall]) hclean.readable.closed)
    have hfit := hclean.fitAccounts hbody hexpr hcontext haccounts
    have hinstruction := fits_instruction ht hfit hamount
    have hsigner := hclean.signer _ hcontext _ haccounts
    dsimp only at h
    split at h
    · obtain rfl := Option.some.inj h
      exact fits_transferInPlace (fits_lookup hfit _) (fits_lookup hfit _) hamount
    · split at h
      · obtain rfl := Option.some.inj h
        exact fits_invoked hinstruction call
      · obtain ⟨⟨seeds, bump⟩, hseeds, h⟩ := Option.bind_eq_some_iff.1 h
        obtain rfl := Option.some.inj h
        obtain ⟨hnested, hbump⟩ := nested_signerSeeds hc hsigner hseeds
        exact fits_invokeSigned hinstruction (head?_instruction ht _ _)
          (fun seed hseed => ⟨hnested seed hseed, hsigner.seeds _ hseeds seed hseed⟩)
          (fun b hb => (hsigner.bump _ hseeds b hb).fits (hbump b hb)) signer call
  next => cases h

/-- The rules for the borrows of balances. -/
def balanceRules : List (Pattern Text) :=
  [balanceBorrow "borrow_mut" "try_borrow_mut_lamports",
    balanceBorrow "borrow" "try_borrow_lamports", doubleDereference]

theorem keepsBrackets_balanceRules : ∀ rule ∈ balanceRules, KeepsBrackets rule := by
  simp only [balanceRules, forall_mem_cons]
  exact ⟨keepsBrackets_balanceBorrow _ _ rfl rfl, keepsBrackets_balanceBorrow _ _ rfl rfl,
    keepsBrackets_doubleDereference, fun _ hmem => nomatch hmem⟩

/-- What keeps a body nested in the step for calls, once its balances are lowered: the parts of its
calls may be put into templates, the bindings that go are bracketed, and nothing is read otherwise
where the edits meet the rest. -/
@[mk_iff]
structure CleanEdits (c : Context) (body : Text) : Prop where
  calls : ∀ t ∈ callTargets, ∀ call ∈ findCalls t.head body, ∀ expr ∈ call.args[0]?,
    ∀ amount ∈ call.args[1]?,
    t.CleanCall c body expr amount
  removed : ∀ s ∈ removedSpans c body, s.2 ≤ body.length ∧
    Bracketed (codeText (((marked body).take s.2).drop s.1))
  seamless : OnSuccess (Edit.apply body (callEdits c body)) (Seamless body (callEdits c body))

instance (c : Context) (body : Text) : Decidable (CleanEdits c body) :=
  decidable_of_iff _ (cleanEdits_iff ..).symm

theorem keepsNested_callEdits (hc : c.Orderly) (hbody : Nested body) (h : CleanEdits c body) :
    ∀ e ∈ callEdits c body, KeepsNested body e := by
  intro e he
  rcases mem_append.1 he with he | he
  · obtain ⟨⟨call, lowered⟩, hmem, rfl⟩ := mem_map.1 he
    obtain ⟨t, ht, k, hcall, rfl⟩ := exists_target_of_mem_loweredCalls hmem
    obtain ⟨hlt, hle, hargs, hspan⟩ := bracketed_call hbody (CallTarget.takesHead_head ht) hcall
    refine ⟨hlt, hle, hspan, ?_⟩
    dsimp only
    rw [CallTarget.lowerOrMark]
    cases hlower : t.lower? c body call k with
    | none => exact nested_marker (by decide) _
    | some lowered =>
      exact (CallTarget.fits_lower? ht hc hbody hargs (h.calls t ht call hcall) hlower).nested
  · obtain ⟨s, hs, rfl⟩ := mem_map.1 he
    obtain ⟨b, hfirst, rfl⟩ := firstOfName_of_mem_removedSpans hs
    exact ⟨hfirst.start_lt_stop, (h.removed _ hs).1, (h.removed _ hs).2, rfl⟩

/-- What keeps a body nested in the step for calls of other programs. -/
@[mk_iff]
structure CleanCalls (c : Context) (body : Text) : Prop where
  balances : RecodesAll balanceRules body
  edits : CleanEdits c (lowerBalances body)

instance (c : Context) (body : Text) : Decidable (CleanCalls c body) :=
  decidable_of_iff _ (cleanCalls_iff ..).symm

/-- **The step for calls of other programs keeps nested code nested.** -/
theorem nested_lowerProgramCalls (hc : c.Orderly) (hnested : Nested body) (h : CleanCalls c body) :
    OnSuccess (lowerProgramCalls c body) Nested := by
  intro out hout
  have hbalanced : Nested (lowerBalances body) :=
    nested_foldl keepsBrackets_balanceRules h.balances hnested
  rw [lowerProgramCalls_eq] at hout
  exact nested_apply hout (h.edits.seamless out hout) (keepsNested_callEdits hc hbalanced h.edits)
    hbalanced

end Lowering

end AnchorLowering
