import AnchorLowering.Proofs.CallEdit
import AnchorLowering.Proofs.SimultaneousEdit

/-!
# The first binding of a call context

A call of another program whose call context is a local gets the accounts of the **first** binding
of that name in the body, wherever the call stands (`lowerProgramCalls_accounts`). That is the
binding in scope as long as it ends before the call and no other binding of the name to a call
context does; bindings that come later do no harm. Where the name is bound again before the call,
the accounts are those of the binding that is shadowed (`lowerProgramCalls_takes_shadowed_context`).
-/

namespace AnchorLowering.Lowering

open List Pattern Source

variable {k : Nat} {call : Call} {lowered : LoweredCall} {context : CallContext}

/-! ## The call context in scope -/

/-- The bindings of a name to call contexts, from left to right. -/
def contextBindings (body name : Text) : List (Binding × CallContext) :=
  (Binding.all body name).filterMap fun b => (CallContext.parse? b.value).map fun context =>
  (b, context)

/-- The call context that a name stands for at a place: that of the last binding that ends
before. -/
def contextInScope? (body name : Text) (place : Nat) : Option CallContext :=
  ((contextBindings body name).filter (·.1.stop ≤ place)).getLast?.map (·.2)

section

variable {body name : Text} {b : Binding} {context : CallContext}

theorem parse?_of_mem_contextBindings (h : (b, context) ∈ contextBindings body name) :
    CallContext.parse? b.value = some context := by
  simp only [contextBindings, mem_filterMap, Option.map_eq_some_iff, Prod.mk.injEq] at h
  obtain ⟨d, -, found, hfound, rfl, rfl⟩ := h
  exact hfound

theorem head?_contextBindings (hfind : Binding.find? body name = some b)
    (hcontext : CallContext.parse? b.value = some context) :
    (contextBindings body name).head? = some (b, context) := by
  obtain ⟨bs, hbs⟩ := head?_eq_some_iff.1 (Binding.head?_all_of_find? hfind)
  rw [contextBindings, hbs, filterMap_cons, hcontext]
  rfl

theorem contextInScope?_of_only {place : Nat} (hmem : (b, context) ∈ contextBindings body name)
    (hstop : b.stop ≤ place) (honly : ∀ e ∈ contextBindings body name, e.1.stop ≤ place → e.1 = b) :
    contextInScope? body name place = some context := by
  have hin : (b, context) ∈ (contextBindings body name).filter (·.1.stop ≤ place) :=
    mem_filter.2 ⟨hmem, decide_eq_true hstop⟩
  obtain ⟨⟨d, found⟩, hlast⟩ := getLast?_isSome.2 (ne_nil_of_mem hin) |> Option.isSome_iff_exists.1
  obtain ⟨hd, hdstop⟩ := mem_filter.1 (mem_of_getLast? hlast)
  obtain rfl : d = b := honly _ hd (of_decide_eq_true hdstop)
  have hfound := parse?_of_mem_contextBindings hd
  rw [parse?_of_mem_contextBindings hmem] at hfound
  rw [contextInScope?, hlast, Option.some.inj hfound]
  rfl

end

/-- The first binding of the name gives the call its context and its accounts. -/
structure CallTarget.FirstBound (t : CallTarget) (body name : Text) (first : Binding)
    (context : CallContext)
    (accounts : List (String × Text)) : Prop where
  find : Binding.find? body name = some first
  parse : CallContext.parse? first.value = some context
  given : t.accounts? context.accounts = some accounts

section

variable {t : CallTarget} {c : Context} {body name amount : Text} {call : Call}

theorem CallTarget.firstBound_of_lower? (hargs : call.args = [name, amount]) (hname : IsName name)
    (h : t.lower? c body call k = some lowered) :
    ∃ first context accounts, t.FirstBound body name first context accounts ∧
      t.Issues accounts (collapseBlanks amount) call.suffix lowered.replacement := by
  obtain ⟨expr, amount', context, removed, accounts, hargs', hcontext, haccounts, hissues, -⟩ :=
    lower?_cases h
  rw [hargs] at hargs'
  obtain ⟨rfl, hamount⟩ := cons.inj hargs'
  obtain ⟨rfl, -⟩ := cons.inj hamount
  rcases findCallContext?_cases hcontext with ⟨hwritten, -⟩ | ⟨first, -, hfind, hparse, -⟩
  · rw [parse?_of_isName hname] at hwritten
    cases hwritten
  · rw [trim_of_isName hname] at hfind
    exact ⟨first, context, accounts, ⟨hfind, hparse, haccounts⟩, hissues⟩

theorem CallTarget.FirstBound.lower?_ne_none {first : Binding}
    {accounts : List (String × Text)} (h : t.FirstBound body name first context accounts)
    (hargs : call.args = [name, amount]) (hname : IsName name) (hsigner : context.signer = none)
    (hderived : c.derivedFor? ((accounts.lookup t.signerRole).getD []) = none) (k : Nat) :
    t.lower? c body call k ≠ none := by
  have hcontext : findCallContext? body name = some (context, [(first.start, first.stop)]) := by
    rw [findCallContext?, parse?_of_isName hname]
    simp only [trim_of_isName hname, readAll?_word hname, h.find, Option.bind_eq_bind,
      Option.bind_some, h.parse]
    rfl
  rw [lower?, hargs]
  simp only [hcontext, h.given, Option.bind_eq_bind, Option.bind_some, hsigner, hderived]
  split
  · exact Option.some_ne_none _
  · exact Option.some_ne_none _

end

/-! ## The accounts of a call -/

theorem exists_becomes_lowerProgramCalls {c : Context} {body out : Text}
    (h : lowerProgramCalls c body = .ok out)
    {t : CallTarget} (hcall : (call, t) ∈ findTargetCalls (lowerBalances body)) :
    ∃ k, Edit.Becomes (callEdits c (lowerBalances body)) (lowerBalances body) call.start call.stop
      (t.lowerOrMark c (lowerBalances body) call k).replacement out := by
  obtain ⟨k, hk⟩ : ∃ k, (call, t.lowerOrMark c (lowerBalances body) call k) ∈
      lowerCalls c (lowerBalances body) 0 (findTargetCalls (lowerBalances body)) :=
    exists_mem_lowerCalls hcall
  refine ⟨k, Edit.becomes_replacement (fun e he => ?_) h (mem_callEdits_of_call hk)⟩
  have hcuts := cutsNoName_callEdits he
  exact ⟨hcuts.start_lt_stop, hcuts.stop_le.trans_eq (length_marked _)⟩

/-- **A bound call context is that of the first binding.** Every call of another program whose call
context is a name either issues, in its place, its instruction with the accounts of the first
binding of that name in the body, or is marked there, which happens only where the context is not
found, lacks an account or needs a signer. The accounts are those in scope at the call if the first
binding ends before it and no other binding of the name to a call context does. -/
theorem lowerProgramCalls_accounts {c : Context} {body out : Text}
    (h : lowerProgramCalls c body = .ok out)
    {call : Call} {t : CallTarget} (hcall : (call, t) ∈ findTargetCalls (lowerBalances body))
    {name amount : Text} (hargs : call.args = [name, amount]) (hname : IsName name) :
    (∃ first context accounts emitted,
      t.FirstBound (lowerBalances body) name first context accounts ∧
        Edit.Becomes (callEdits c (lowerBalances body)) (lowerBalances body) call.start call.stop
          emitted out ∧
        t.Issues accounts (collapseBlanks amount) call.suffix emitted ∧
        (first.stop ≤ call.start →
          (∀ e ∈ contextBindings (lowerBalances body) name, e.1.stop ≤ call.start → e.1 = first) →
          contextInScope? (lowerBalances body) name call.start = some context)) ∨
      (Edit.Becomes (callEdits c (lowerBalances body)) (lowerBalances body) call.start call.stop
          (Marker.render "cpi" ((lowerBalances body).slice call.start call.stop)) out ∧
        ∀ first context accounts, t.FirstBound (lowerBalances body) name first context accounts →
          context.signer ≠ none ∨ c.derivedFor? ((accounts.lookup t.signerRole).getD []) ≠
          none) := by
  obtain ⟨k, hout⟩ := exists_becomes_lowerProgramCalls h hcall
  rw [CallTarget.lowerOrMark] at hout
  cases hlower : t.lower? c (lowerBalances body) call k with
  | some lowered =>
    rw [hlower] at hout
    obtain ⟨first, context, accounts, hfirst, hissues⟩ :=
      CallTarget.firstBound_of_lower? hargs hname hlower
    refine .inl ⟨first, context, accounts, _, hfirst, hout, hissues, fun hstop honly => ?_⟩
    have hmem := List.mem_of_mem_head? (head?_contextBindings hfirst.find hfirst.parse)
    exact contextInScope?_of_only hmem hstop honly
  | none =>
    rw [hlower] at hout
    refine .inr ⟨hout, fun first context accounts hfirst => ?_⟩
    by_contra hneither
    obtain ⟨hsigner, hderived⟩ := not_or.1 hneither
    exact hfirst.lower?_ne_none hargs hname (not_not.1 hsigner) (not_not.1 hderived) k hlower

/-- A transfer whose context is bound before it, and again after it. -/
def reboundLater : Text := Text.concat [letContext "a" "b", transferBound, letContext "x" "y"]

def reboundBefore : Text := Text.concat [letContext "a" "b", letContext "x" "y", transferBound]

theorem lowerProgramCalls_accounts_rebound :
    ∃ out context accounts emitted, lowerProgramCalls bareContext reboundLater = .ok out ∧
      contextInScope? (lowerBalances reboundLater) "c" 49 = some context ∧
      systemTransfer.accounts? context.accounts = some accounts ∧
      Edit.Becomes (callEdits bareContext reboundLater) reboundLater 49 81 emitted out ∧
      systemTransfer.Issues accounts (collapseBlanks "5") (boundCall 49).suffix emitted := by
  have hbalances : lowerBalances reboundLater = reboundLater := by decide +kernel
  have hcalls : (callTargets.flatMap fun t => (findCalls t.head reboundLater).map fun call =>
      (call, t)) =
      [(boundCall 49, systemTransfer)] := by decide +kernel
  have hout : lowerProgramCalls bareContext reboundLater =
      .ok (Text.concat [transferIssued "a" "b", letContext "x" "y"]) := by
    rw [lowerProgramCalls_of_single hbalances hcalls
      (by decide +kernel : _ = [⟨49, 81, transferIssued "a" "b"⟩, ⟨0, 49, []⟩]) (by decide +kernel)
      (by decide +kernel)]
    decide +kernel
  have hcall : (boundCall 49, systemTransfer) ∈ findTargetCalls (lowerBalances reboundLater) := by
    rw [hbalances, findTargetCalls, hcalls, List.mergeSort_singleton]
    exact List.mem_singleton.2 rfl
  have hargs : (boundCall 49).args = ["c", "5"] := by decide +kernel
  rcases lowerProgramCalls_accounts hout hcall hargs (by decide) with
    ⟨first, context, accounts, emitted, hfirst, hemitted, hissues, hscope⟩ | ⟨hmarked, -⟩
  · have hstop : (Binding.find? reboundLater "c").all (·.stop ≤ 49) = true := by decide +kernel
    have honly : ∀ e ∈ contextBindings reboundLater "c", e.1.stop ≤ 49 →
        Binding.find? reboundLater "c" = some e.1 := by decide +kernel
    have hfind := hfirst.find
    rw [hbalances] at hfind hscope
    rw [hfind] at hstop honly
    have hin := hscope (of_decide_eq_true hstop) fun e he hle =>
      (Option.some.inj (honly e he hle)).symm
    have hend : (boundCall 49).stop = 81 := by decide
    rw [hbalances, hend] at hemitted
    rw [hbalances]
    exact ⟨_, context, accounts, emitted, hout, hin, hfirst.given, hemitted, hissues⟩
  · exact absurd hmarked.isInfix (by decide +kernel)

/-- **A context that is shadowed is still taken.** The transfer has the accounts of the first
binding, though the second one is in scope. -/
theorem lowerProgramCalls_takes_shadowed_context :
    lowerProgramCalls bareContext reboundBefore =
    .ok (Text.concat [letContext "x" "y", transferIssued "a" "b"]) ∧
      (contextInScope? reboundBefore "c" 98).bind
      (fun context => systemTransfer.accounts? context.accounts) =
        some [("from", "x".toList), ("to", "y".toList)] := by
  have hcalls : (callTargets.flatMap fun t => (findCalls t.head reboundBefore).map fun call =>
      (call, t)) =
      [(boundCall 98, systemTransfer)] := by decide +kernel
  refine ⟨?_, by decide +kernel⟩
  rw [lowerProgramCalls_of_single (by decide +kernel) hcalls
    (by decide +kernel : _ = [⟨98, 130, transferIssued "a" "b"⟩, ⟨0, 49, []⟩]) (by decide +kernel)
    (by decide +kernel)]
  decide +kernel

end AnchorLowering.Lowering
