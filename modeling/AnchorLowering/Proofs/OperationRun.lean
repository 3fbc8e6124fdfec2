import AnchorLowering.Proofs.LoweredOperation

/-!
# Lowering all operations

The operations of a body are lowered from right to left. Each step leaves the pieces before its
operation as they were in the body, so the next operation still stands where it was found, up to its
opening bracket. By induction over the operations two bodies that are alike but for comments stay
so.
-/

namespace AnchorLowering.Lowering

open List Pattern Source

variable {m : Match (SequencePlace × SequenceOp)} {limit : Nat} {s : Scope} {body body' cur : Text}
  {ps : List (Piece Unit)}

/-! ## The order of operations -/

section

variable {β γ : Type} {claim : Claim β} {f : β → Option γ} {start stop : γ → Nat}

def ClaimsSpans (claim : Claim β) (f : β → Option γ) (start stop : γ → Nat) : Prop :=
  ∀ {before after b g n}, claim ⟨before, after⟩ = some (b, n) → f b = some g →
    start g = before.length ∧ stop g = before.length + n

/-- What is found among the pieces of a scan. -/
def foundIn (f : β → Option γ) (ps : List (Piece β)) : List γ :=
  ps.filterMap fun piece => piece.value?.bind f

/-- **What a scan finds stops before the next thing starts.** -/
theorem pairwise_scan (hclaim : ClaimsSpans claim f start stop) (skip : Nat) (before after : Text) :
    (∀ g ∈ foundIn f (Text.scan claim skip before after), before.length + skip ≤ start g) ∧
      (foundIn f (Text.scan claim skip before after)).Pairwise fun g g' => stop g ≤ start g' := by
  induction after generalizing skip before with
  | nil => cases skip <;> simp [foundIn, Text.scan]
  | cons x after ih =>
    have hlater : ∀ k, ∀ g ∈ foundIn f (Text.scan claim k (x :: before) after),
        before.length + 1 + k ≤ start g :=
      fun k => (ih k (x :: before)).1
    cases skip with
    | succ skip => exact ⟨fun g hg => by have := hlater skip g hg; omega, (ih skip (x :: before)).2⟩
    | zero =>
      rw [Text.scan]
      split
      · rename_i b n heq
        rw [foundIn, filterMap_cons, Piece.value?, Option.bind_some]
        cases hb : f b with
        | none => exact ⟨fun g hg => by have := hlater n g hg; omega, (ih n (x :: before)).2⟩
        | some g =>
          obtain ⟨hstart, hstop⟩ := hclaim heq hb
          refine ⟨forall_mem_cons.2 ⟨hstart.ge, fun g' hg' => ?_⟩,
            .cons (fun g' hg' => ?_) (ih n (x :: before)).2⟩
          · have := hlater n g' hg'
            omega
          · have := hlater n g' hg'
            omega
      · exact ⟨fun g hg => by have := hlater 0 g hg; omega, (ih 0 (x :: before)).2⟩

theorem pairwise_findAll {α : Type} (p : Pattern α) (t : Text) :
    (Source.findAll p t).Pairwise fun m m' => m.stop ≤ m'.start := by
  have hclaim : ClaimsSpans p.matchAt some Match.start Match.stop := by
    rintro before after m _ n h ⟨⟩
    obtain ⟨r, -, heq⟩ := Option.map_eq_some_iff.1 h
    obtain ⟨rfl, rfl⟩ := Prod.mk.inj heq
    exact ⟨rfl, rfl⟩
  have hpairs := (pairwise_scan hclaim 0 [] t).2
  simp only [foundIn, Option.bind_fun_some] at hpairs
  exact hpairs.filter _

end

theorem CallPieces.bracket_le {m' : Match (SequencePlace × SequenceOp)}
    (call : CallPieces m ps) (call' : CallPieces m' ps) (h : m.stop ≤ m'.start) :
    (spell (call.before ++ chars (call.head ++ call.gap ++ ['(']))).length ≤ m'.start := by
  have hstop : (spell call.before ++ call.head).length = m.stop := by
    rw [call.stop_eq, length_append, call.start_eq]
  have htext : spell ps = (spell call.before ++ call.head) ++
      (call.gap ++ '(' :: spell call.after) :=
    (congrArg spell call.pieces_eq).trans (by simp)
  have htext' : spell ps = spell call'.before ++
      (call'.head ++ (call'.gap ++ '(' :: spell call'.after)) :=
    (congrArg spell call'.pieces_eq).trans (by simp)
  by_contra hlt
  simp only [spell_append, spell_chars, length_append, length_cons, length_nil] at hlt hstop
  obtain ⟨i, hi⟩ := Nat.exists_eq_add_of_le h
  -- between the operation and its bracket stand blanks, but the next operation starts with a name
  have hword : ((spell ps).drop m'.start).head?.any isWord = true := by
    rw [htext', drop_left' call'.start_eq]
    have := call'.head_word
    cases hhead : call'.head with
    | nil => simp [hhead] at this
    | cons x head => simpa [hhead] using this
  have hdrop : (spell ps).drop m'.start = call.gap.drop i ++ '(' :: spell call.after := by
    rw [hi, ← drop_drop, htext, drop_left' (by rw [length_append]; exact hstop),
      drop_append_of_le_length (by omega)]
  rw [hdrop] at hword
  cases hgap : call.gap.drop i with
  | nil =>
    rw [hgap] at hword
    exact absurd hword (by simp [show isWord '(' = false by decide])
  | cons x gap =>
    have hx : isBlank x = true := call.gap_blank x (mem_of_mem_drop (hgap ▸ mem_cons_self))
    rw [hgap] at hword
    rw [isBlank_of_isWord (by simpa using hword)] at hx
    cases hx

/-! ## What a step keeps -/

/-- The pieces of two texts are the same up to a place. -/
def SameUpTo (limit : Nat) (body cur : Text) : Prop :=
  ∃ P S N, Text.pieces sealedClaim body = P ++ S ∧ Text.pieces sealedClaim cur = P ++ N ∧
    limit ≤ (spell P).length

theorem exists_append_of_spell_le {P Q P' Q' : List (Piece Unit)} {before rest : Text}
    (hlex : Lexes before (P ++ Q) rest) (h : P ++ Q = P' ++ Q')
    (hlen : (spell P).length ≤ (spell P').length) : ∃ M, P' = P ++ M ∧ Q = M ++ Q' := by
  obtain ⟨M, hP', hQ⟩ | ⟨M, rfl, rfl⟩ := append_eq_append_iff.1 h
  · exact ⟨M, hP', hQ⟩
  · obtain rfl : M = [] := by
      by_contra hne
      have hM := (lexes_append.1 (lexes_append.1 hlex).1).2
      have hpos := length_pos_of_ne_nil (hM.spell_ne_nil hne)
      rw [spell_append, length_append] at hlen
      omega
    exact ⟨[], by simp, rfl⟩

theorem SameUpTo.refl (t : Text) : SameUpTo t.length t t :=
  ⟨Text.pieces sealedClaim t, [], [], by simp, by simp, by rw [spell_pieces]⟩

theorem CallPieces.start_le (call : CallPieces m ps)
    (hlimit : (spell (call.before ++ chars (call.head ++ call.gap ++ ['(']))).length ≤ limit) :
    m.start ≤ limit := by
  rw [spell_append, length_append, call.start_eq] at hlimit
  omega

/-- An operation of a body stands in a text that is the same up to its bracket. -/
theorem SameUpTo.exists_callPieces (h : SameUpTo limit body cur)
    (call : CallPieces m (Text.pieces sealedClaim body))
    (hlimit : (spell (call.before ++ chars (call.head ++ call.gap ++ ['(']))).length ≤ limit) :
    Nonempty (CallPieces m (Text.pieces sealedClaim cur)) := by
  obtain ⟨P, S, N, hbody, hcur, hlen⟩ := h
  have hlex := lexes_pieces body
  rw [call.pieces_eq] at hlex
  obtain ⟨M, rfl, -⟩ :=
    exists_append_of_spell_le hlex (call.pieces_eq.symm.trans hbody) (Nat.le_trans hlimit hlen)
  exact ⟨⟨call.before, call.head, call.gap, M ++ N, by rw [hcur]; simp, call.start_eq, call.stop_eq,
    call.head_word, call.head_dotted, call.gap_blank, call.no_name_before, call.wellNamed,
    call.known⟩⟩

theorem SameUpTo.step {next : Text} (h : SameUpTo limit body cur)
    (call : CallPieces m (Text.pieces sealedClaim cur)) (hlimit : m.start ≤ limit)
    {N : List (Piece Unit)}
    (hnext : Text.pieces sealedClaim next = call.before ++ N) : SameUpTo m.start body next := by
  obtain ⟨P, S, N', hbody, hcur, hlen⟩ := h
  have hsplit := call.pieces_eq
  rw [append_assoc] at hsplit
  have hlex := lexes_pieces cur
  rw [hsplit] at hlex
  obtain ⟨M, rfl, -⟩ := exists_append_of_spell_le hlex (hsplit.symm.trans hcur)
    (by rw [call.start_eq]; exact Nat.le_trans hlimit hlen)
  exact ⟨call.before, M ++ S, N, by rw [hbody]; simp, hnext, call.start_eq.ge⟩

/-! ## All steps -/

/-- The operations on known sequences are apart from line comments, each one when its turn comes. -/
def OperationsApart (s : Scope) (body : Text) : List (Match (SequencePlace × SequenceOp)) → Prop
  | [] => True
  | m :: later => ((s.resolve? m.value.1).isSome →
      OperationApart m (later.foldr (lowerOperation s) body)) ∧ OperationsApart s body later

instance decidableOperationsApart (s : Scope) (body : Text) :
    ∀ ms, Decidable (OperationsApart s body ms)
  | [] => inferInstanceAs (Decidable True)
  | _ :: later =>
    have := decidableOperationsApart s body later
    inferInstanceAs (Decidable (_ ∧ _))

/-- How far two bodies are lowered: each is unchanged up to `limit`, they are alike but for
comments, and quotes stand apart in both. -/
structure Lockstep (limit : Nat) (body body' cur cur' : Text) : Prop where
  same : SameUpTo limit body cur
  same' : SameUpTo limit body' cur'
  alike : List.Forall₂ AlikePiece (Text.pieces sealedClaim cur) (Text.pieces sealedClaim cur')
  quotes : List.IsChain Apart (Text.pieces sealedClaim cur)
  quotes' : List.IsChain Apart (Text.pieces sealedClaim cur')

/-- Where the first of the operations starts, or the end of the body. -/
def firstStart (ms : List (Match (SequencePlace × SequenceOp))) (body : Text) : Nat :=
  (ms.head?.map (·.start)).getD body.length

theorem bracket_le_firstStart {later : List (Match (SequencePlace × SequenceOp))}
    (h : (m :: later) <:+ Source.findAll sequenceCall body)
    (call : CallPieces m (Text.pieces sealedClaim body)) :
    (spell (call.before ++ chars (call.head ++ call.gap ++ ['(']))).length ≤
    firstStart later body := by
  cases later with
  | nil =>
    have hlen := congrArg (fun ps => (spell ps).length) call.pieces_eq
    simp only [spell_pieces, spell_append _ call.after, length_append] at hlen
    simp only [firstStart, head?_nil, Option.map_none, Option.getD_none, hlen]
    exact Nat.le_add_right _ _
  | cons m' later =>
    have hpair := (pairwise_findAll sequenceCall body).sublist h.sublist
    obtain ⟨call'⟩ := exists_callPieces (h.subset (by simp) : m' ∈ Source.findAll sequenceCall body)
    exact call.bracket_le call' ((pairwise_cons.1 hpair).1 m' mem_cons_self)

theorem Lockstep.step (hcounted : Counted s.context) (hlocals : s.locals = []) {cur' : Text}
    (h : Lockstep limit body body' cur cur') (call : CallPieces m (Text.pieces sealedClaim body))
    (call' : CallPieces m (Text.pieces sealedClaim body'))
    (hlimit : (spell (call.before ++ chars (call.head ++ call.gap ++ ['(']))).length ≤ limit)
    (hlimit' : (spell (call'.before ++ chars (call'.head ++ call'.gap ++ ['(']))).length ≤ limit)
    (happart : (s.resolve? m.value.1).isSome → OperationApart m cur)
    (happart' : (s.resolve? m.value.1).isSome → OperationApart m cur') :
    Lockstep m.start body body' (lowerOperation s m cur) (lowerOperation s m cur') := by
  obtain ⟨now⟩ := h.same.exists_callPieces call hlimit
  obtain ⟨now'⟩ := h.same'.exists_callPieces call' hlimit'
  obtain ⟨other, N, N', hN, hN', halike, hquotes, hquotes'⟩ :=
    now.lowerOperation_alike hcounted hlocals now' rfl rfl h.alike h.quotes h.quotes' happart
      happart'
  have hstart := call.start_le hlimit
  exact ⟨h.same.step now hstart hN, h.same'.step other hstart hN', by rwa [hN, hN'], by rwa [hN],
    by rwa [hN']⟩

theorem lockstep_foldr (hcounted : Counted s.context) (hlocals : s.locals = [])
    (halike : Forall₂ AlikePiece (Text.pieces sealedClaim body) (Text.pieces sealedClaim body'))
    (hquotes : List.IsChain Apart (Text.pieces sealedClaim body))
    (hquotes' : List.IsChain Apart (Text.pieces sealedClaim body'))
    (hfound : Source.findAll sequenceCall body = Source.findAll sequenceCall body')
    {ms : List (Match (SequencePlace × SequenceOp))} (hms : ms <:+ Source.findAll sequenceCall body)
    (happart : OperationsApart s body ms) (happart' : OperationsApart s body' ms) :
    Lockstep (firstStart ms body) body body' (ms.foldr (lowerOperation s) body)
      (ms.foldr (lowerOperation s) body') := by
  have hlength : body.length = body'.length := by
    rw [← spell_pieces body, ← spell_pieces body', length_spell_of_alike halike]
  induction ms with
  | nil =>
    have hsame : SameUpTo body.length body' body' := hlength ▸ .refl body'
    exact ⟨.refl body, hsame, halike, hquotes, hquotes'⟩
  | cons m later ih =>
    obtain ⟨call⟩ := exists_callPieces (hms.subset mem_cons_self)
    obtain ⟨call'⟩ := exists_callPieces (hfound ▸ hms.subset mem_cons_self)
    have hlimit := bracket_le_firstStart hms call
    have hlimit' := bracket_le_firstStart (hfound ▸ hms) call'
    have hfirst : firstStart later body = firstStart later body' := by
      rw [firstStart, firstStart, hlength]
    exact (ih ((suffix_cons m later).trans hms) happart.2 happart'.2).step hcounted hlocals call
      call' hlimit (hfirst ▸ hlimit') happart.1 happart'.1

/-- Two bodies that are alike but for comments are so still when their operations are lowered. -/
theorem lowerOperations_alike (hcounted : Counted s.context) (hlocals : s.locals = [])
    (h : AlikeButComments body body') (hquotes : List.IsChain Apart (Text.pieces sealedClaim body))
    (hquotes' : List.IsChain Apart (Text.pieces sealedClaim body'))
    (hhides : HidesNothing sequenceCall body)
    (hhides' : HidesNothing sequenceCall body')
    (happart : OperationsApart s body (Source.findAll sequenceCall body))
    (happart' : OperationsApart s body' (Source.findAll sequenceCall body')) :
    AlikeButComments (lowerOperations s body) (lowerOperations s body') ∧
      List.IsChain Apart (Text.pieces sealedClaim (lowerOperations s body)) ∧
      List.IsChain Apart (Text.pieces sealedClaim (lowerOperations s body')) := by
  have hfound := findAll_congr stopsAt_sequenceCall startsWithWord_sequenceCall h hhides hhides'
  have hrun := lockstep_foldr hcounted hlocals (alikeButComments_iff.1 h) hquotes hquotes' hfound
    suffix_rfl happart (hfound ▸ happart')
  rw [lowerOperations, lowerOperations, ← hfound]
  exact ⟨alikeButComments_iff.2 hrun.alike, hrun.quotes, hrun.quotes'⟩

end AnchorLowering.Lowering
