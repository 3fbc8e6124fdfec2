import AnchorLowering.Proofs.BareText
import AnchorLowering.Proofs.FieldRouting
import AnchorLowering.Proofs.RecordContext
import Mathlib.Data.List.Permutation

/-!
# When the order of the accounts matters

Routing one account after the other is routing all of them at once exactly where the accounts leave
each other alone (`routeFields_eq_routeTogether_iff`). That it is enough is a fact about two passes
over lexemes. That it is needed is shown by chains of two members: routing takes a chain to a chain
(`Chained.step`), names in it only grow (`Chained.grown_run`), and an account that would route the
chain as it stands does change it (`Chained.routed_run`); so a name that is taken for something else
never comes back.
-/

namespace AnchorLowering.Lowering

open List Pattern Source Lexeme

variable {bs : List StateBinding} {t u : Chained}

/-! ## Accesses that are taken for something else -/

/-- A member of a receiver, with a member of its own. A gap may stand before the member, and then
the member may be a receiver as well. -/
structure Chained where
  receiver : Text
  gapped : Bool
  member : Text

namespace Chained

/-- The chain with its last member, as a statement. -/
def lexemes (s : Chained) (last : Text) : List Lexeme :=
  .word s.receiver :: .mark '.' ::
    ((if s.gapped then [.gap [' ']] else []) ++ [.word s.member, .mark '.', .word last, .mark ';'])

/-- What routing does to the chain. -/
def step (routed : Text → Text → Bool) (last : Text) (s : Chained) : Chained :=
  if routed s.receiver s.member then ⟨handleName s.receiver, false, s.member⟩
  else if s.gapped && routed s.member last then { s with member := handleName s.member }
  else s

structure Named (s : Chained) : Prop where
  receiver : IsName s.receiver
  member : IsName s.member

variable {s : Chained} {last : Text} {routed : Text → Text → Bool}

theorem Named.step (h : s.Named) : (s.step routed last).Named := by
  unfold Chained.step
  split
  · exact ⟨isName_handleName h.receiver, h.member⟩
  · split
    · exact ⟨h.receiver, isName_handleName h.member⟩
    · exact h

theorem Named.lexed (h : s.Named) (hlast : IsName last) : Lexed (s.lexemes last) := by
  have htail : Lexed [.word s.member, .mark '.', .word last, .mark ';'] := by
    refine ⟨h.member, show isWord '.' = false by decide, ⟨by decide, by decide⟩, trivial, hlast,
      show isWord ';' = false by decide, ⟨by decide, by decide⟩, trivial, trivial⟩
  refine ⟨h.receiver, show isWord '.' = false by decide, ⟨by decide, by decide⟩, trivial, ?_⟩
  cases s.gapped with
  | false => exact htail
  | true =>
    refine ⟨⟨cons_ne_nil _ _, ?_⟩, htail.head?_isBlank nofun, htail⟩
    decide

theorem write_lexemes_eq (s : Chained) (last : Text) : write (s.lexemes last) =
    s.receiver ++ '.' ::
    ((if s.gapped then [' '] else []) ++ (s.member ++ '.' :: (last ++ [';']))) := by
  cases hgap : s.gapped <;> simp [lexemes, hgap]

theorem Named.bare (h : s.Named) (hlast : IsName last) : Bare (write (s.lexemes last)) := by
  have hname : ∀ {t : Text}, IsName t → Bare t := fun ht => .of_word ht.word
  have hgap : Bare (if s.gapped then [' '] else []) := by
    split <;> decide
  rw [write_lexemes_eq]
  exact (hname h.receiver).append <| .cons (by decide) <| hgap.append <| (hname h.member).append <|
    .cons (by decide) <| (hname hlast).append (by decide)

theorem route_lexemes :
    route routed (.free true false) (s.lexemes last) = (s.step routed last).lexemes last := by
  obtain ⟨receiver, gapped, member⟩ := s
  unfold step
  cases gapped <;> cases hr : routed receiver member <;> cases hm : routed member last <;>
    simp [lexemes, route, memberAfter?, dropGap, isCalled, hr, hm]

/-- Routing some of the accounts at once, on the text of a chain. -/
theorem replaceInCode_write (hbs : ∀ b ∈ bs, b.Named) (h : s.Named)
    (hlast : IsName last) : replaceInCode (anyFieldAccess bs) (write (s.lexemes last)) =
      write ((s.step (isField bs) last).lexemes last) := by
  rw [replaceInCode_of_bare (h.bare hlast), replaceAll_write hbs (h.lexed hlast), route_lexemes]

/-- Routing one account after the other, on a chain. -/
def run (bs : List StateBinding) (last : Text) (s : Chained) : Chained :=
  bs.foldl (fun s b => s.step (isField [b]) last) s

theorem foldl_routeBinding_write (hbs : ∀ b ∈ bs, b.Named) (h : s.Named) (hlast : IsName last) :
    bs.foldl routeBinding (write (s.lexemes last)) = write ((s.run bs last).lexemes last) := by
  induction bs generalizing s with
  | nil => rfl
  | cons b bs ih =>
    have hb : ∀ d ∈ [b], d.Named := by simpa using hbs b mem_cons_self
    rw [foldl_cons, routeBinding_eq, replaceInCode_write hb h hlast,
      ih (fun d hd => hbs d (mem_cons_of_mem _ hd)) h.step]
    rfl

theorem Named.run (h : s.Named) (bs : List StateBinding) : (s.run bs last).Named := by
  induction bs generalizing s with
  | nil => exact h
  | cons b bs ih => exact ih h.step

theorem lexemes_injective (h : s.lexemes last = t.lexemes last) : s = t := by
  obtain ⟨receiver, gapped, member⟩ := s
  obtain ⟨receiver', gapped', member'⟩ := t
  cases gapped <;> cases gapped' <;> simp_all [lexemes]

/-! ### Names only grow -/

theorem length_handleName (t : Text) : (handleName t).length = t.length + 6 := by
  rw [handleName, length_append]
  rfl

theorem not_handleName_prefix {t u : Text} (hu : u <+: t) : ¬ handleName t <+: u := by
  intro h
  have hle := (h.trans hu).length_le
  rw [length_handleName] at hle
  omega

/-- The names of the second chain go on from those of the first one. -/
structure Grown (s t : Chained) : Prop where
  receiver : s.receiver <+: t.receiver
  member : s.member <+: t.member

theorem Grown.of_eq (hreceiver : s.receiver = t.receiver) (hmember : s.member = t.member) :
    Grown s t :=
  ⟨hreceiver ▸ prefix_refl s.receiver, hmember ▸ prefix_refl s.member⟩

/-- One of the names of the first chain has become that of a handle in the second one. -/
def Routed (s t : Chained) : Prop :=
  handleName s.receiver <+: t.receiver ∨ handleName s.member <+: t.member

theorem step_eq_or_routed (routed : Text → Text → Bool) (last : Text) (s : Chained) :
    s.step routed last = s ∨ Routed s (s.step routed last) := by
  unfold step
  split
  · exact .inr (.inl prefix_rfl)
  · split
    · exact .inr (.inr prefix_rfl)
    · exact .inl rfl

theorem grown_step (routed : Text → Text → Bool) (last : Text) (s : Chained) :
    Grown s (s.step routed last) := by
  unfold step
  split
  · exact ⟨prefix_append _ _, prefix_rfl⟩
  · split
    · exact ⟨prefix_rfl, prefix_append _ _⟩
    · exact ⟨prefix_rfl, prefix_rfl⟩

theorem Grown.trans (h : Grown s t) (h' : Grown t u) : Grown s u :=
  ⟨h.receiver.trans h'.receiver, h.member.trans h'.member⟩

theorem Routed.grown (h : Routed s t) (h' : Grown t u) : Routed s u :=
  h.imp (·.trans h'.receiver) (·.trans h'.member)

/-- Names that have grown to those of handles are not the old ones. -/
theorem Routed.not_grown (h : Routed s t) : ¬ Grown t s := by
  intro hgrown
  rcases h with h | h
  · exact not_handleName_prefix hgrown.receiver h
  · exact not_handleName_prefix hgrown.member h

theorem step_ne_of_receiver (h : routed s.receiver s.member = true) : s.step routed last ≠ s := by
  intro hstay
  rw [step, if_pos h] at hstay
  have hlen := congrArg (·.receiver.length) hstay
  simp [length_handleName] at hlen

theorem step_ne_of_member (hgap : s.gapped = true) (h : routed s.member last = true) :
    s.step routed last ≠ s := by
  by_cases hreceiver : routed s.receiver s.member = true
  · exact step_ne_of_receiver hreceiver
  · intro hstay
    rw [step, if_neg hreceiver, hgap, h, if_pos (by rfl)] at hstay
    have hlen := congrArg (·.member.length) hstay
    simp [length_handleName] at hlen

theorem grown_run (bs : List StateBinding) (last : Text) (s : Chained) :
    Grown s (s.run bs last) := by
  induction bs generalizing s with
  | nil => exact ⟨prefix_rfl, prefix_rfl⟩
  | cons b bs ih => exact (grown_step _ last s).trans (ih _)

/-- An account that routes the chain as it stands is not the last to see it so. -/
theorem routed_run {b : StateBinding} (hb : b ∈ bs) (h : s.step (isField [b]) last ≠ s) :
    Routed s (s.run bs last) := by
  induction bs with
  | nil => cases hb
  | cons d bs ih =>
    show Routed s ((s.step (isField [d]) last).run bs last)
    rcases step_eq_or_routed (isField [d]) last s with hstay | hrouted
    · rw [hstay]
      rcases mem_cons.1 hb with rfl | hb
      · exact absurd hstay h
      · exact ih hb
    · exact hrouted.grown (grown_run bs last _)

/-- A receiver that is no account stays. -/
theorem receiver_run (h : ∀ b ∈ bs, b.account ≠ s.receiver) :
    (s.run bs last).receiver = s.receiver := by
  induction bs generalizing s with
  | nil => rfl
  | cons b bs ih =>
    have hstep : (s.step (isField [b]) last).receiver = s.receiver := by
      have hnot : isField [b] s.receiver s.member = false := by
        by_contra hfield
        exact h b mem_cons_self (isField_singleton.1 (by simpa using hfield)).1
      unfold step
      rw [hnot, if_neg Bool.false_ne_true]
      split
      · rfl
      · rfl
    show ((s.step (isField [b]) last).run bs last).receiver = _
    rw [ih, hstep]
    intro d hd
    rw [hstep]
    exact h d (mem_cons_of_mem _ hd)

end Chained

/-! ## Accounts that do not leave each other alone -/

section Converse

variable {early late : List StateBinding} {b b' : StateBinding}

/-- On every chain, one account after the other does what all accounts at once do. -/
def AgreeOnChains (early late : List StateBinding) : Prop :=
  ∀ (s : Chained) (last : Text), s.Named → IsName last →
    (s.run early last).run late last = s.step (isField (early ++ late)) last

theorem handle_of_agreeOnChains (h : AgreeOnChains early late) (hb : b ∈ early) (hb' : b' ∈ late)
    (hnamed : b.Named) : ∀ f ∈ b.fields, f ∈ b'.fields → b'.account ≠ b.handle := by
  intro f hf hf' hhandle
  let s : Chained := ⟨b.account, false, f⟩
  have hagree := h s f ⟨hnamed.account, hnamed.fields f hf⟩ (hnamed.fields f hf)
  have hrouted : isField (early ++ late) b.account f = true :=
    isField_iff.2 ⟨b, mem_append_left _ hb, rfl, hf⟩
  rw [Chained.step, if_pos hrouted] at hagree
  -- the access goes to the handle first, and is then taken for one of the later account
  have hfirst : Chained.Routed s (s.run early f) :=
    Chained.routed_run hb (Chained.step_ne_of_receiver (isField_singleton.2 ⟨rfl, hf⟩))
  have hbefore := Chained.grown_run early f s
  have hafter := Chained.grown_run late f (s.run early f)
  rw [hagree] at hafter
  have hmember : (s.run early f).member = f :=
    hafter.member.eq_of_length_le hbefore.member.length_le
  have hreceiver : (s.run early f).receiver = b'.account := by
    rw [hhandle]
    rcases hfirst with hfirst | hfirst
    · exact hafter.receiver.eq_of_length_le hfirst.length_le
    · exact absurd hfirst (Chained.not_handleName_prefix hafter.member)
  have hsecond : Chained.Routed (s.run early f) ((s.run early f).run late f) :=
    Chained.routed_run hb'
      (Chained.step_ne_of_receiver (isField_singleton.2 ⟨hreceiver.symm, hmember.symm ▸ hf'⟩))
  rw [hagree] at hsecond
  exact hsecond.not_grown (.of_eq (hreceiver.trans hhandle).symm hmember.symm)

theorem account_of_agreeOnChains (h : AgreeOnChains early late) (hb : b ∈ early) (hb' : b' ∈ late)
    (hearly : ∀ d ∈ early, d.account ≠ b'.account) (hnamed : b.Named) (hnamed' : b'.Named) :
    b.fields ≠ [] → b.account ∉ b'.fields := by
  intro hne hmem
  obtain ⟨g, hg⟩ := exists_mem_of_ne_nil _ hne
  let s : Chained := ⟨b'.account, true, b.account⟩
  have hagree := h s g ⟨hnamed'.account, hnamed.account⟩ (hnamed.fields g hg)
  have hrouted : isField (early ++ late) b'.account b.account = true :=
    isField_iff.2 ⟨b', mem_append_right _ hb', rfl, hmem⟩
  rw [Chained.step, if_pos hrouted] at hagree
  -- the member is routed as a receiver before its own receiver is
  have hfirst : Chained.Routed s (s.run early g) :=
    Chained.routed_run hb (Chained.step_ne_of_member rfl (isField_singleton.2 ⟨rfl, hg⟩))
  have hafter := Chained.grown_run late g (s.run early g)
  rw [hagree] at hafter
  have hreceiver : (s.run early g).receiver <+: b'.account :=
    (show (s.run early g).receiver = b'.account from Chained.receiver_run hearly) ▸ prefix_refl _
  exact hfirst.not_grown ⟨hreceiver, hafter.member⟩

theorem member_of_agreeOnChains (h : AgreeOnChains early late) (hb : b ∈ early) (hb' : b' ∈ late)
    (honly : ∀ d ∈ early ++ late, d.account = b'.account → d = b') (hnamed : b.Named)
    (hnamed' : b'.Named)
    (haccount : b.account ∉ b'.fields) : b.fields ≠ [] → b.handle ∉ b'.fields := by
  intro hne hmem
  obtain ⟨g, hg⟩ := exists_mem_of_ne_nil _ hne
  let s : Chained := ⟨b'.account, true, b.account⟩
  have hagree := h s g ⟨hnamed'.account, hnamed.account⟩ (hnamed.fields g hg)
  have hreceiver : ¬ isField (early ++ late) b'.account b.account = true := by
    intro hfield
    obtain ⟨d, hd, hda, hdf⟩ := isField_iff.1 hfield
    rw [honly d hd hda] at hdf
    exact haccount hdf
  have hrouted : isField (early ++ late) b.account g = true :=
    isField_iff.2 ⟨b, mem_append_left _ hb, rfl, hg⟩
  rw [Chained.step, if_neg hreceiver, hrouted, if_pos (by rfl)] at hagree
  -- the member goes to its handle, and the later account has a field of that name
  have hfirst : Chained.Routed s (s.run early g) :=
    Chained.routed_run hb (Chained.step_ne_of_member rfl (isField_singleton.2 ⟨rfl, hg⟩))
  have hbefore := Chained.grown_run early g s
  have hafter := Chained.grown_run late g (s.run early g)
  rw [hagree] at hafter
  have hreceiver : (s.run early g).receiver = b'.account :=
    hafter.receiver.eq_of_length_le hbefore.receiver.length_le
  have hmember : (s.run early g).member = b.handle := by
    rcases hfirst with hfirst | hfirst
    · exact absurd hfirst (Chained.not_handleName_prefix hafter.receiver)
    · exact hafter.member.eq_of_length_le hfirst.length_le
  have hsecond : Chained.Routed (s.run early g) ((s.run early g).run late g) :=
    Chained.routed_run hb'
      (Chained.step_ne_of_receiver (isField_singleton.2 ⟨hreceiver.symm, hmember.symm ▸ hmem⟩))
  rw [hagree] at hsecond
  exact hsecond.not_grown (.of_eq hreceiver.symm hmember.symm)

end Converse

/-- **Routing one account after the other is routing all at once** exactly where no account has what
is routed for an earlier one as a field, and none has the name of an earlier handle and a field of
its account. -/
theorem routeFields_eq_routeTogether_iff {c : Context} (hnamed : ∀ b ∈ c.states, b.Named)
    (hnodup : (c.states.map StateBinding.account).Nodup) :
    (∀ t, routeFields c t = routeTogether c t) ↔ c.states.Pairwise LeavesAlone := by
  constructor
  · intro h
    rw [List.pairwise_iff_forall_sublist]
    intro b b' hsub
    obtain ⟨early, late, hsplit, hb, hb'⟩ := List.cons_sublist_iff.1 hsub
    rw [List.singleton_sublist] at hb'
    have hagree : AgreeOnChains early late := by
      intro s last hs hlast
      have htext := h (write (s.lexemes last))
      rw [routeFields, Chained.foldl_routeBinding_write hnamed hs hlast, routeTogether,
        Chained.replaceInCode_write hnamed hs hlast] at htext
      have heq := Lexed.write_injective ((hs.run c.states).lexed hlast) (hs.step.lexed hlast) htext
      have hrun := Chained.lexemes_injective heq
      rw [hsplit] at hrun
      rw [← hrun]
      exact List.foldl_append.symm
    have hmem : ∀ {d}, d ∈ early ∨ d ∈ late → d ∈ c.states := by
      intro d hd
      rw [hsplit]
      exact List.mem_append.2 hd
    have hearly : ∀ d ∈ early, d.account ≠ b'.account := by
      rw [hsplit, List.map_append, List.nodup_append] at hnodup
      exact fun d hd => hnodup.2.2 _ (List.mem_map_of_mem hd) _ (List.mem_map_of_mem hb')
    have honly : ∀ d ∈ early ++ late, d.account = b'.account → d = b' := by
      intro d hd heq
      exact List.inj_on_of_nodup_map hnodup (hmem (List.mem_append.1 hd)) (hmem (.inr hb')) heq
    have hbn := hnamed b (hmem (.inl hb))
    have hbn' := hnamed b' (hmem (.inr hb'))
    have haccount := account_of_agreeOnChains hagree hb hb' hearly hbn hbn'
    exact ⟨handle_of_agreeOnChains hagree hb hb' hbn, haccount, fun hne =>
      member_of_agreeOnChains hagree hb hb' honly hbn hbn' (haccount hne) hne⟩
  · intro h t
    exact foldl_routeBinding hnamed h t

/-- A `Vault` has an owner and a total. -/
def holderLayout : RecordLayout where
  name := "Vault"
  size := 48
  fields := [⟨"owner", "Pubkey", 32, 8, none, 0, 0⟩, ⟨"total", "u64", 8, 40, none, 0, 0⟩]
  assumptions := []

/-- The context of an instruction whose accounts, with these names, each hold a `Vault`. -/
def holderContext (names : List Text) : Context := recordContext holderLayout names

theorem states_holderContext (a b : Text) : (holderContext [a, b]).states =
      [⟨a, "Vault", ["owner", "total"]⟩, ⟨b, "Vault", ["owner", "total"]⟩] := rfl

/-- Two accounts with the same fields are routed each to its own handle, in every text. -/
theorem routeFields_eq_routeTogether_vaults :
    (∀ b ∈ (holderContext ["from", "to"]).states, b.Named) ∧
      ((holderContext ["from", "to"]).states.map StateBinding.account).Nodup ∧
      ∀ t, routeFields (holderContext ["from", "to"]) t =
      routeTogether (holderContext ["from", "to"]) t := by
  have hnamed : ∀ b ∈ (holderContext ["from", "to"]).states, b.Named := by decide
  have hnodup : ((holderContext ["from", "to"]).states.map StateBinding.account).Nodup := by decide
  exact ⟨hnamed, hnodup, (routeFields_eq_routeTogether_iff hnamed hnodup).2 (by decide)⟩

/-- **The order of the accounts matters where an account has the name of a handle.** The access to
the first account ends up at the handle of the second one, though the names are distinct. -/
theorem routeFields_takes_handle_for_account :
    (∀ b ∈ (holderContext ["pool", "pool_state"]).states, b.Named) ∧
      ((holderContext ["pool", "pool_state"]).states.map StateBinding.account).Nodup ∧
      routeFields (holderContext ["pool", "pool_state"]) "pool.total + pool_state.total" =
        "pool_state_state.total + pool_state_state.total".toList ∧
      routeTogether (holderContext ["pool", "pool_state"]) "pool.total + pool_state.total" =
        "pool_state.total + pool_state_state.total".toList ∧
      routeFields (holderContext ["pool_state", "pool"]) "pool.total + pool_state.total" =
        "pool_state.total + pool_state_state.total".toList := by
  refine ⟨by decide, by decide, ?_, ?_, ?_⟩
  · rw [routeFields, states_holderContext]
    cbv
  · have hnamed : ∀ b ∈ (holderContext ["pool", "pool_state"]).states, b.Named := by decide
    have hlexemes := replaceAll_write hnamed (lexed_lexemes "pool.total + pool_state.total".toList)
    rw [write_lexemes] at hlexemes
    rw [routeTogether, replaceInCode_of_bare (by decide), hlexemes]
    decide
  · rw [routeFields, states_holderContext]
    cbv

end AnchorLowering.Lowering
