import AnchorLowering.Lowering.ProgramCall
import AnchorLowering.Proofs.CommentSearch
import AnchorLowering.Proofs.Lexeme
import AnchorLowering.Proofs.PatternWay

/-!
# Call contexts that are bound to a name

A call of another program may take its call context from a local. This module says what a call
becomes (`CallTarget.lower?_cases`): an instruction with the accounts of its call context
(`CallTarget.Issues`), and with it go the first bindings of some names (`FirstOfName`).
-/

namespace AnchorLowering

open List Pattern Source

variable {takeSuffix : Bool} {e : Edit} {removed : List Span} {lowered : LoweredCall}
  {k start stop : Nat} {s : Span}
  {α : Type} {t body expr : Text} {call : Call} {b : Binding} {context : CallContext} {c : Context}

/-! ## Calls and bindings take up room -/

namespace Source

theorem le_matchingClose {index close : Nat} (h : matchingClose t index = some close) :
    index ≤ close := by
  obtain ⟨offset, -, rfl⟩ := Option.map_eq_some_iff.1 h
  exact Nat.le_add_left index offset

theorem le_getD_afterMark? (t : Text) (mark : Char) (index : Nat) :
    index ≤ (afterMark? t mark index).getD index := by
  rw [afterMark?]
  by_cases hmark : t[skipBlanks t index]? == some mark
  · rw [if_pos hmark]
    exact Nat.le_succ_of_le (Nat.le_add_right _ _)
  · rw [if_neg hmark]
    exact Nat.le_refl index

theorem le_readSuffix (t : Text) (index : Nat) : index ≤ (readSuffix t index).2.2 :=
  (le_getD_afterMark? t '?' index).trans (le_getD_afterMark? t ';' _)

theorem lt_stop_of_callWithHead? {start headStop : Nat}
    (h : callWithHead? t takeSuffix start headStop = some call) :
    call.start = start ∧ headStop < call.stop := by
  simp only [callWithHead?, Option.bind_eq_bind] at h
  split at h
  · cases h
  · obtain ⟨close, hclose, hcall⟩ := Option.bind_eq_some_iff.1 h
    have hopen : headStop ≤ skipBlanks t headStop := Nat.le_add_right _ _
    have hle := le_matchingClose hclose
    have hsuffix := le_readSuffix t (close + 1)
    obtain rfl := Option.some.inj hcall
    refine ⟨rfl, ?_⟩
    show headStop < (if takeSuffix = true then readSuffix t (close + 1) else (false, false,
        close + 1)).2.2
    split
    · omega
    · show headStop < close + 1
      omega

theorem exists_claim_of_mem_scan {claim : Claim α} {skip : Nat} {before after u : Text} {v : α}
    (h : Piece.claimed v u ∈ Text.scan claim skip before after) :
    ∃ w rest n, after = w ++ rest ∧ claim ⟨w.reverse ++ before, rest⟩ = some (v, n + 1) ∧
    u = rest.take (n + 1) := by
  induction after generalizing skip before with
  | nil => cases skip <;> cases h
  | cons x after ih =>
    have hlater : ∀ {skip}, Piece.claimed v u ∈ Text.scan claim skip (x :: before) after →
        ∃ w rest n, x :: after = w ++ rest ∧ claim ⟨w.reverse ++ before, rest⟩ = some (v, n + 1) ∧
        u = rest.take (n + 1) := by
      intro skip h
      obtain ⟨w, rest, n, rfl, hclaim, hu⟩ := ih h
      exact ⟨x :: w, rest, n, rfl, by simpa using hclaim, hu⟩
    cases skip with
    | succ skip => exact hlater h
    | zero =>
      rw [Text.scan] at h
      split at h
      · rename_i w n hclaim
        rcases mem_cons.1 h with heq | h
        · obtain ⟨rfl, rfl⟩ := Piece.claimed.inj heq
          exact ⟨[], _, n, rfl, hclaim, rfl⟩
        · exact hlater h
      · rcases mem_cons.1 h with heq | h
        · cases heq
        · exact hlater h

/-- A call that is found starts with its head, in code. -/
theorem exists_head_of_mem_findCallsWith {head : Pattern α}
    (h : call ∈ findCallsWith takeSuffix head t) :
    ∃ u v r, t = u ++ v ∧ inCode t u.length = true ∧ head.firstAt ⟨u.reverse, v⟩ = some r ∧
      callWithHead? t takeSuffix u.length (u.length + r.2) = some call := by
  obtain ⟨piece, hpiece, hcall⟩ := mem_filterMap.1 h
  cases piece with
  | char x => cases hcall
  | claimed call? u =>
    obtain rfl : call? = some call := by simpa [Piece.value?] using hcall
    obtain ⟨u, v, n, ht, hclaim, -⟩ := exists_claim_of_mem_scan hpiece
    rw [append_nil] at hclaim
    obtain ⟨r, hr, heq⟩ := Option.map_eq_some_iff.1 hclaim
    have hwith := (Prod.mk.inj heq).1
    rw [Cursor.position, length_reverse] at hwith
    split at hwith
    · rename_i hcode
      exact ⟨u, v, r, ht, hcode, hr, hwith⟩
    · cases hwith

theorem start_lt_stop_of_mem_findCalls {head : Pattern α} (h : call ∈ findCalls head t) :
    call.start < call.stop := by
  obtain ⟨u, v, r, -, -, -, hwith⟩ := exists_head_of_mem_findCallsWith h
  have hbounds := lt_stop_of_callWithHead? hwith
  omega

theorem start_lt_stop_of_mem_findAll {p : Pattern α} {m : Match α} (h : m ∈ Source.findAll p t) :
    m.start < m.stop := by
  obtain ⟨u, v, n, -, -, hstop, -⟩ := mem_matchesFrom (mem_filter.1 h).1
  omega

namespace Binding

variable {t name : Text} {b : Binding}

theorem ofHead?_eq_some {m : Match Unit} (h : ofHead? t name m = some b) :
    b.start = m.start ∧ m.stop < b.stop := by
  obtain ⟨semicolon, hend, hb⟩ := Option.bind_eq_some_iff.1 h
  obtain ⟨offset, -, rfl⟩ := Option.map_eq_some_iff.1 hend
  obtain rfl := Option.some.inj hb
  refine ⟨rfl, ?_⟩
  show m.stop < offset + m.stop + 1
  omega

/-- The bindings of a name in code whose statements end, from left to right. -/
def all (t name : Text) : List Binding := (Source.findAll (head name) t).filterMap (ofHead? t name)

theorem start_lt_stop_of_mem_all (h : b ∈ all t name) : b.start < b.stop := by
  obtain ⟨m, hm, hb⟩ := mem_filterMap.1 h
  have hspan := start_lt_stop_of_mem_findAll hm
  have hbounds := ofHead?_eq_some hb
  omega

theorem head?_all_of_find? (h : find? t name = some b) : (all t name).head? = some b := by
  obtain ⟨m, hm, hb⟩ := Option.bind_eq_some_iff.1 h
  obtain ⟨ms, hms⟩ := head?_eq_some_iff.1 hm
  rw [all, hms, filterMap_cons, hb]
  rfl

theorem name_of_find? (h : find? t name = some b) : b.name = name := by
  obtain ⟨m, -, hb⟩ := Option.bind_eq_some_iff.1 h
  obtain ⟨semicolon, -, heq⟩ := Option.bind_eq_some_iff.1 hb
  obtain rfl := Option.some.inj heq
  rfl

theorem start_lt_stop_of_find? (h : find? t name = some b) : b.start < b.stop :=
  start_lt_stop_of_mem_all (mem_of_mem_head? (head?_all_of_find? h))

end Binding

end Source

namespace Lowering

/-! ## Where the call context comes from -/

theorem dropWhile_isBlank_of_isWord (h : ∀ x ∈ t, isWord x = true) : t.dropWhile isBlank = t := by
  cases t with
  | nil => rfl
  | cons x t =>
    refine dropWhile_cons_of_neg ?_
    rw [isBlank_of_isWord (h x mem_cons_self)]
    exact Bool.false_ne_true

theorem trim_of_isName {name : Text} (h : IsName name) : Text.trim name = name := by
  have hreverse : ∀ x ∈ name.reverse, isWord x = true := fun x hx => h.word x (mem_reverse.1 hx)
  rw [Text.trim, Text.trimLeft, dropWhile_isBlank_of_isWord h.word, Text.trimRight,
    dropWhile_isBlank_of_isWord hreverse, reverse_reverse]

/-- The head of a call context has colons. -/
theorem colon_of_callContextHead {c : Cursor} {r : Unit × Nat} (h : r ∈ callContextHead c) :
    ':' ∈ c.after := by
  obtain ⟨q₁, -, s₁, h, -⟩ := mem_bind.1 h
  obtain ⟨q₂, -, s₂, h, -⟩ := mem_bind.1 h
  obtain ⟨q₃, h, -⟩ := mem_bind.1 h
  obtain ⟨q₄, -, s₄, h, -⟩ := mem_bind.1 h
  obtain ⟨q₅, -, s₅, h, -⟩ := mem_bind.1 h
  have hcolons := (mem_lit.1 h).1.subset (mem_cons_self : ':' ∈ [':', ':'])
  simp only [Cursor.after_advance] at hcolons
  exact mem_of_mem_drop (mem_of_mem_drop (mem_of_mem_drop (mem_of_mem_drop hcolons)))

/-- A name is no call context. -/
theorem parse?_of_isName {name : Text} (h : IsName name) : CallContext.parse? name = none := by
  have hnone : findCallsWith false callContextHead name = [] := by
    refine eq_nil_iff_forall_not_mem.2 fun call hcall => ?_
    obtain ⟨u, v, r, rfl, -, hr, -⟩ := exists_head_of_mem_findCallsWith hcall
    have hcolon : ':' ∈ v := colon_of_callContextHead (mem_of_mem_head? hr)
    exact absurd (h.word ':' (mem_append_right u hcolon)) (by decide)
  simp only [CallContext.parse?, trim_of_isName h, hnone]
  rfl

/-- The binding is the first one of its name. -/
def FirstOfName (body : Text) (b : Binding) : Prop :=
  IsName b.name ∧ Binding.find? body b.name = some b

theorem firstOfName_of_find? {name : Text} (hname : IsName name)
    (h : Binding.find? body name = some b) : FirstOfName body b := by
  have hb : b.name = name := Binding.name_of_find? h
  exact ⟨by rwa [hb], by rwa [hb]⟩

theorem FirstOfName.start_lt_stop (h : FirstOfName body b) : b.start < b.stop :=
  Binding.start_lt_stop_of_find? h.2

theorem way_of_readAll? {p : Pattern α} {a : α} (h : p.readAll? t = some a) : Way p [] a t [] := by
  obtain ⟨r, hr, rfl⟩ := Option.map_eq_some_iff.1 h
  have hmem := mem_of_find?_eq_some hr
  have hlen := find?_some hr
  rw [Way, append_nil, ← beq_iff_eq.1 hlen]
  exact hmem

theorem isName_of_readAll?_word (h : (word.readAll? t).isSome = true) : IsName t := by
  obtain ⟨a, ha⟩ := Option.isSome_iff_exists.1 h
  obtain ⟨hne, hword⟩ := way_many1.1 (way_of_readAll? ha)
  exact ⟨hne, hword⟩

/-- A call context is written in place or is that of the first binding of a name. -/
theorem findCallContext?_cases (h : findCallContext? body expr = some (context, removed)) :
    CallContext.parse? expr = some context ∧ removed = [] ∨
      ∃ b, IsName (Text.trim expr) ∧ Binding.find? body (Text.trim expr) = some b ∧
        CallContext.parse? b.value = some context ∧ removed = [(b.start, b.stop)] := by
  rw [findCallContext?] at h
  split at h
  · rename_i written hwritten
    obtain ⟨rfl, rfl⟩ := Prod.mk.inj (Option.some.inj h)
    exact .inl ⟨hwritten, rfl⟩
  · simp only [Option.bind_eq_bind] at h
    split at h
    · cases h
    · rename_i hword
      rw [Bool.not_eq_true, Option.isNone_eq_false_iff] at hword
      obtain ⟨b, hb, h⟩ := Option.bind_eq_some_iff.1 h
      obtain ⟨bound, hbound, h⟩ := Option.bind_eq_some_iff.1 h
      obtain ⟨rfl, rfl⟩ := Prod.mk.inj (Option.some.inj h)
      exact .inr ⟨b, isName_of_readAll?_word hword, hb, hbound, rfl⟩

theorem firstOfName_of_findCallContext? (h : findCallContext? body expr = some (context, removed)) :
    ∀ s ∈ removed, ∃ b, FirstOfName body b ∧ s = (b.start, b.stop) := by
  intro s hs
  rcases findCallContext?_cases h with ⟨-, rfl⟩ | ⟨b, hname, hb, -, rfl⟩
  · cases hs
  · exact ⟨b, firstOfName_of_find? hname hb, mem_singleton.1 hs⟩

/-! ## The instruction -/

/-- The text issues the instruction of the target with these accounts: as a transfer written in
place, as an invocation, or as one with the seeds of a signer. -/
inductive CallTarget.Issues (t : CallTarget) (accounts : List (String × Text))
    (amount suffix : Text) :
    Text → Prop where
  | inPlace (hsystem : t.isSystem = true) : t.Issues accounts amount suffix
      (transferInPlace ((accounts.lookup t.signerRole).getD [])
        ((accounts.lookup "to").getD []) amount)
  | invoked : t.Issues accounts amount suffix
      (Text.concat [t.instruction accounts amount, ".invoke()", suffix])
  | signed (signer : Nat) (seeds : List Text) (bump : Option Text) : t.Issues accounts amount suffix
      (invokeSigned signer seeds bump (t.instruction accounts amount) suffix)

/-- The bindings that are read for the seeds are the first of their names. -/
theorem firstOfName_of_mem_seedsInLocal {name : Text} (hname : IsName name)
    (h : b ∈ (seedsInLocal body name).2) : FirstOfName body b := by
  rw [seedsInLocal] at h
  split at h
  · cases h
  · rename_i d hd
    split at h
    · cases h
    · rw [mem_singleton.1 h]
      exact firstOfName_of_find? hname hd

theorem isName_of_readAll?_seedsLocal {name : Text} (h : seedsLocal.readAll? expr = some name) :
    IsName name := by
  have hway := way_of_readAll? h
  obtain ⟨_, _, _, _, _, hway⟩ := way_bind.1 hway
  obtain ⟨_, _, _, _, _, hway⟩ := way_bind.1 hway
  obtain ⟨_, _, _, _, _, hway⟩ := way_bind.1 hway
  obtain ⟨_, _, _, _, _, hway⟩ := way_bind.1 hway
  obtain ⟨found, u, _, _, hword, hway⟩ := way_bind.1 hway
  obtain ⟨_, _, _, _, _, hway⟩ := way_bind.1 hway
  obtain ⟨_, _, _, _, _, hway⟩ := way_bind.1 hway
  obtain ⟨_, _, _, _, _, hway⟩ := way_bind.1 hway
  obtain ⟨_, _, _, _, _, hway⟩ := way_bind.1 hway
  obtain ⟨rfl, -⟩ := way_pure.1 hway
  obtain ⟨rfl, _, hword⟩ := way_capture.1 hword
  obtain ⟨hne, hword⟩ := way_many1.1 hword
  exact ⟨hne, hword⟩

theorem firstOfName_of_mem_lookupSeeds {depth : Nat}
    (h : b ∈ (lookupSeeds body depth expr).2) : FirstOfName body b := by
  induction depth generalizing expr with
  | zero => cases h
  | succ depth ih =>
    rw [lookupSeeds] at h
    split at h
    · cases h
    · split at h
      · rename_i hlocal
        exact firstOfName_of_mem_seedsInLocal (isName_of_readAll?_seedsLocal hlocal) h
      · split at h
        · rename_i hword
          split at h
          · cases h
          · rename_i d hd
            rcases mem_cons.1 h with rfl | h
            · exact firstOfName_of_find? (isName_of_readAll?_word hword) hd
            · exact ih h
        · cases h

theorem firstOfName_of_mem_signerSeeds {account : Text} {signer : Option Text}
    {derived : Option DerivedAccount}
    (h : b ∈ (signerSeeds c body signer account derived).2) : FirstOfName body b := by
  unfold signerSeeds at h
  dsimp only at h
  split at h
  all_goals
    dsimp only at h
    split at h
    · cases h
    · cases h
    · exact firstOfName_of_mem_lookupSeeds h

theorem exists_binding_of_mem_deadBindings {excluded : List Span} {bindings : List Binding}
    (h : s ∈ deadBindings body excluded bindings) : ∃ b ∈ bindings, s = (b.start, b.stop) := by
  induction bindings generalizing excluded with
  | nil => cases h
  | cons b bindings ih =>
    have hlater : ∀ {excluded}, s ∈ deadBindings body excluded bindings →
        ∃ b' ∈ b :: bindings, s = (b'.start, b'.stop) := by
      intro excluded h
      obtain ⟨b', hb', hs⟩ := ih h
      exact ⟨b', mem_cons_of_mem b hb', hs⟩
    simp only [deadBindings] at h
    split at h
    · exact hlater h
    · rcases mem_cons.1 h with rfl | h
      · exact ⟨b, mem_cons_self, rfl⟩
      · exact hlater h

/-- A call that is lowered issues its instruction with the accounts of its call context. The binding
of its call context goes with it, and so do the bindings for the seeds that nothing else reads. -/
theorem CallTarget.lower?_cases {t : CallTarget} {n : Nat}
    (h : t.lower? c body call n = some lowered) :
    ∃ expr amount context removed accounts, call.args = [expr, amount] ∧
      findCallContext? body expr = some (context, removed) ∧
      t.accounts? context.accounts = some accounts ∧
      t.Issues accounts (collapseBlanks amount) call.suffix lowered.replacement ∧
      ∃ used, (∀ b ∈ used, FirstOfName body b) ∧
        lowered.removed = removed ++ deadBindings body (removed ++ [(call.start, call.stop)])
          used := by
  rw [lower?] at h
  split at h
  · rename_i expr amount hargs
    obtain ⟨⟨context, removed⟩, hcontext, h⟩ := Option.bind_eq_some_iff.1 h
    obtain ⟨accounts, haccounts, h⟩ := Option.bind_eq_some_iff.1 h
    have hunsigned : ∃ used, (∀ b ∈ used, FirstOfName body b) ∧
        removed = removed ++ deadBindings body (removed ++ [(call.start, call.stop)]) used :=
      ⟨[], fun b hb => absurd hb not_mem_nil, (append_nil removed).symm⟩
    refine ⟨expr, amount, context, removed, accounts, hargs, hcontext, haccounts, ?_⟩
    dsimp only at h
    split at h
    · rename_i hinline
      obtain rfl := Option.some.inj h
      simp only [Bool.and_eq_true] at hinline
      exact ⟨.inPlace hinline.1.1, hunsigned⟩
    · split at h
      · obtain rfl := Option.some.inj h
        exact ⟨.invoked, hunsigned⟩
      · obtain ⟨⟨seeds, bump⟩, -, h⟩ := Option.bind_eq_some_iff.1 h
        obtain rfl := Option.some.inj h
        exact ⟨.signed n seeds bump, _, fun b hb => firstOfName_of_mem_signerSeeds hb, rfl⟩
  · cases h

/-! ## The step -/

/-- What a call becomes. -/
def CallTarget.lowerOrMark (t : CallTarget) (c : Context) (body : Text) (call : Call) (n : Nat) :
    LoweredCall :=
  (t.lower? c body call n).getD ⟨Marker.render "cpi" (body.slice call.start call.stop), [], false⟩

section

variable {c : Context} {body : Text} {n : Nat} {calls : List (Call × CallTarget)}

theorem exists_mem_lowerCalls {t : CallTarget} (h : (call, t) ∈ calls) :
    ∃ k, (call, t.lowerOrMark c body call k) ∈ lowerCalls c body n calls := by
  induction calls generalizing n with
  | nil => cases h
  | cons e calls ih =>
    rcases mem_cons.1 h with rfl | h
    · exact ⟨n, mem_cons_self⟩
    · obtain ⟨k, hk⟩ := ih h
      exact ⟨k, mem_cons_of_mem _ hk⟩

theorem mem_lowerCalls (h : (call, lowered) ∈ lowerCalls c body n calls) :
    ∃ t k, (call, t) ∈ calls ∧ lowered = t.lowerOrMark c body call k := by
  induction calls generalizing n with
  | nil => cases h
  | cons e calls ih =>
    rcases mem_cons.1 h with heq | h
    · obtain ⟨rfl, rfl⟩ := Prod.mk.inj heq
      exact ⟨e.2, n, mem_cons_self, rfl⟩
    · obtain ⟨t, k, hmem, hlowered⟩ := ih h
      exact ⟨t, k, mem_cons_of_mem e hmem, hlowered⟩

/-- What is removed with a call are bindings, each the first of its name. -/
theorem CallTarget.firstOfName_of_mem_removed {t : CallTarget}
    (h : s ∈ (t.lowerOrMark c body call k).removed) :
    ∃ b, FirstOfName body b ∧ s = (b.start, b.stop) := by
  rw [lowerOrMark] at h
  cases hlower : t.lower? c body call k with
  | none =>
    rw [hlower] at h
    cases h
  | some lowered =>
    rw [hlower] at h
    obtain ⟨_, _, _, _, _, _, hcontext, _, _, used, hused, hremoved⟩ := lower?_cases hlower
    rw [Option.getD_some, hremoved] at h
    rcases mem_append.1 h with h | h
    · exact firstOfName_of_findCallContext? hcontext s h
    · obtain ⟨b, hb, rfl⟩ := exists_binding_of_mem_deadBindings h
      exact ⟨b, hused b hb, rfl⟩

end

/-! ## A transfer with a bound context -/

theorem readAll?_word {name : Text} (h : IsName name) : (word.readAll? name).isNone = false := by
  have hway : Way word [] () name [] := way_many1.2 ⟨h.ne_nil, h.word⟩
  rw [Way, append_nil] at hway
  rw [Pattern.readAll?, Option.isNone_map, Option.isNone_eq_false_iff, find?_isSome]
  exact ⟨_, hway, beq_self_eq_true _⟩

/-- A body with one call is edited at the call and at what goes with it. -/
theorem lowerProgramCalls_of_single {t : CallTarget} {edits : List Edit}
    (hbalances : lowerBalances body = body)
    (hcalls : (callTargets.flatMap fun t => (findCalls t.head body).map fun call => (call, t)) =
      [(call, t)])
    (hedits : ⟨call.start, call.stop, (t.lowerOrMark c body call 0).replacement⟩ ::
      (t.lowerOrMark c body call 0).removed.map (fun s => ⟨s.1, s.2, []⟩) = edits)
    (hdistinct : edits.eraseDups = edits) (hright : edits.Pairwise fun a b => a.rightOf b = true) :
    lowerProgramCalls c body = Edit.applyOrdered body (body.length + 1) edits := by
  have htargets : findTargetCalls body = [(call, t)] := by
    rw [findTargetCalls, hcalls, mergeSort_singleton]
  have hordered : Edit.ordered edits = edits := by
    rw [Edit.ordered, hdistinct, mergeSort_of_pairwise hright]
  have hlowered : lowerCalls c body 0 [(call, t)] = [(call, t.lowerOrMark c body call 0)] := rfl
  simp only [lowerProgramCalls, hbalances, htargets, hlowered, map_cons, map_nil, flatMap_cons,
    flatMap_nil, append_nil, singleton_append, hedits, Edit.apply, hordered]

/-- A context without accounts. -/
def bareContext : Context := .build [] [] [] [] .standard

/-- The system program's transfer. -/
def systemTransfer : CallTarget := callTargets.getLast (by decide)

/-- A statement that binds a call context for a transfer. -/
def letContext (source destination : Text) : Text :=
  Text.concat ["let c = ", "CpiContext", "::new(p, T \x7b", " from: ", source, ", to: ",
    destination, " \x7d);"]

/-- A statement that makes a transfer with the context that was bound. -/
def transferBound : Text := Text.concat ["system_program", "::transfer", "(c, 5)?;"]

/-- The statement that a transfer becomes. -/
def transferIssued (source destination : Text) : Text :=
  Text.concat ["pinocchio_system", "::instructions", "::Transfer \x7b", " from: ", source,
    ", to: ", destination, ", lamports: 5 \x7d", ".invoke()?;"]

/-- The call in it, by where it starts. -/
def boundCall (start : Nat) : Call :=
  ⟨start, start + transferBound.length, "system_program::transfer", "c, 5", true, true⟩

end Lowering

end AnchorLowering
