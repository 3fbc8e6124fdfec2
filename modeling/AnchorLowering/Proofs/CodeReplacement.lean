import AnchorLowering.Proofs.PieceEdit

/-!
# Replacing in code

A rule that rewrites the code stretches of a text keeps its pieces apart from the code it rewrites,
if each replacement is plain code around a part of what it replaces (`pieces_replaceInCode`). So two
texts that are alike but for comments are so still when such a rule has rewritten both.
-/

namespace AnchorLowering.Source

open List Pattern

variable {c : Char} {Q R : List (Piece Unit)} {after before t v old : Text}
  {I : List (Piece Unit) → Prop}

/-! ## Rules -/

/-- A text that a rule replaces at a place, and its replacement: plain code around the same middle.
What is replaced starts a name, and ends with the end of a part or before an opening brace. -/
structure Reshaped (c : Cursor) (old new : Text) where
  oldHead : Text
  middle : Text
  oldTail : Text
  head : Text
  tail : Text
  old_eq : old = oldHead ++ middle ++ oldTail
  new_eq : new = head ++ middle ++ tail
  shell : Shell head tail
  no_name_before : c.before.head?.any isWord = false
  oldHead_head : oldHead.head?.any isWord = true
  oldHead_last : oldHead.getLast?.any isWord = false
  oldTail_ne_nil : oldTail ≠ []
  head_last : head.getLast? = some ' '
  fresh_head : ∀ prev rest, prev.any isWord = false → StartsAfresh prev (head ++ rest)
  fresh_tail : middle ≠ [] → ∀ prev rest, StartsAfresh prev (tail ++ rest)
  follows : (∃ y, oldTail.getLast? = some y ∧ endsPart (.char y) = true ∧ isWord y = false) ∨
    (c.after.drop old.length).head? = some '\x7b'

/-- Every match of the rule is kept or reshaped. -/
structure Reshapes (rule : Pattern Text) : Prop where
  startsWithWord : StartsWithWord rule
  reshaped : ∀ c v n, (v, n) ∈ rule c →
    n ≤ c.after.length ∧ (v = c.after.take n ∨ Nonempty (Reshaped c (c.after.take n) v))

/-- What a rule leaves of the text after a place. -/
def replacedFrom (rule : Pattern Text) (before after : Text) : Text :=
  (Text.scan rule.firstAt 0 before after).flatMap fun piece =>
    match piece with
    | .char c => [c]
    | .claimed replacement _ => replacement

variable {rule : Pattern Text}

theorem replaceAll_eq_replacedFrom (t : Text) : rule.replaceAll t = replacedFrom rule [] t := rfl

theorem replacedFrom_nil (before : Text) : replacedFrom rule before [] = [] := rfl

theorem replacedFrom_of_some {n : Nat} (hn : n + 1 ≤ (c :: after).length)
    (h : rule.firstAt ⟨before, c :: after⟩ = some (v, n + 1)) :
    replacedFrom rule before (c :: after) = v ++ replacedFrom rule
      (((c :: after).take (n + 1)).reverse ++ before)
        ((c :: after).drop (n + 1)) := by
  have hlen : ((c :: after).take (n + 1)).length = n + 1 := by
    rw [length_take, Nat.min_eq_left hn]
  have hsplit : c :: after = (c :: after).take (n + 1) ++ (c :: after).drop (n + 1) :=
    (take_append_drop _ _).symm
  have hscan := @scan_of_some Text rule.firstAt before ((c :: after).take (n + 1))
    ((c :: after).drop (n + 1)) v (by simp) (by rw [← hsplit, hlen, h])
  rw [← hsplit] at hscan
  rw [replacedFrom, hscan]
  rfl

theorem replacedFrom_of_not_some (h : ∀ v n, rule.firstAt ⟨before, c :: after⟩ ≠ some (v, n + 1)) :
    replacedFrom rule before (c :: after) = c :: replacedFrom rule (c :: before) after := by
  rw [replacedFrom, Text.scan]
  split
  · rename_i v n hv
    exact absurd hv (h v n)
  · rfl

/-! ## One stretch of code -/

/-- The pieces end with a sealed one, if there are any. -/
def EndsSealed (Q : List (Piece Unit)) : Prop := ∀ p, Q.getLast? = some p → ∃ u s, p = .claimed u s

theorem no_name_before_code (h : Lexes [] (Q ++ chars t ++ R) []) (hQ : EndsSealed Q)
    (ht : t.head?.any isWord = true) : (spell Q).getLast?.any isWord = false := by
  have hne : t ≠ [] := by
    rintro rfl
    simp at ht
  have hlexQ := (lexes_append.1 (lexes_append.1 h).1).1
  simp only [spell_chars] at hlexQ
  cases hlast : Q.getLast? with
  | none =>
    rw [getLast?_eq_none_iff.1 hlast]
    rfl
  | some p =>
    obtain ⟨u, s, rfl⟩ := hQ p hlast
    by_cases hline : s.startsWith "//" = true
    · obtain hnil | hbreak := hlexQ.line_end hlast (List.isPrefixOf_iff_prefix.1 hline)
      · simp [hne] at hnil
      · obtain ⟨x, t, rfl⟩ := exists_cons_of_ne_nil hne
        obtain rfl : x = '\n' := by simpa using hbreak
        have hbreak : isWord '\n' = true := by simpa using ht
        exact absurd hbreak (by decide)
    · obtain ⟨x, hx, hplain⟩ :=
        getLast?_spell_claimed hlexQ (by simp [hne]) hlast (by simpa using hline)
      rw [hx]
      by_contra hword
      rw [isPlain_of_isWord (by simpa using hword)] at hplain
      cases hplain

/-- No name ends before a match that starts with a name where none ends, also at the start of a
stretch. -/
theorem no_name_before_match {before : Text} (hQ : EndsSealed Q)
    (hbefore : before.head?.any isWord = false)
    (hold : old.head?.any isWord = true)
    (hlex : Lexes [] (Q ++ chars (before.reverse ++ old) ++ R) []) :
    (spell (Q ++ chars before.reverse)).getLast?.any isWord = false := by
  cases before with
  | nil => simpa using no_name_before_code (by simpa using hlex) hQ hold
  | cons x before => simpa using hbefore

theorem head?_append_word {u : Text} (h : u.head?.any isWord = true) :
    (u ++ v).head?.any isWord = true := by
  cases u with
  | nil => cases h
  | cons x u => exact h

theorem lexes_reshaped (hQ : EndsSealed Q) {before new after rest : Text}
    (r : Reshaped ⟨before, old ++ after⟩ old new) (hrest : after.head? = some '\x7b' →
      rest.head? = some '\x7b')
    (hlex : Lexes [] (Q ++ chars (before.reverse ++ (old ++ rest)) ++ R) [])
    (hapart : List.IsChain Apart (Q ++ chars (before.reverse ++ (old ++ rest)) ++ R)) :
    Lexes [] (Q ++ chars (before.reverse ++ (new ++ rest)) ++ R) [] ∧
      List.IsChain Apart (Q ++ chars (before.reverse ++ (new ++ rest)) ++ R) := by
  have hword : (old ++ rest).head?.any isWord = true := by
    rw [r.old_eq]
    simpa using head?_append_word (v := r.middle ++ (r.oldTail ++ rest)) r.oldHead_head
  have hfresh := no_name_before_match hQ r.no_name_before hword hlex
  have hsplit : ∀ {t head tail : Text}, t = head ++ r.middle ++ tail →
      Q ++ chars (before.reverse ++ (t ++ rest)) ++ R =
        (Q ++ chars before.reverse) ++ chars head ++ chars r.middle ++ chars tail ++
        (chars rest ++ R) := by
    rintro t head tail rfl
    simp
  rw [hsplit r.old_eq] at hlex hapart
  rw [hsplit r.new_eq]
  -- the end of a part or an opening brace comes before what follows
  have hfollows : (r.oldTail.getLast?.any isWord = false ∨ (chars rest ++ R).head? =
      some (.char '\x7b')) ∧
      ∀ q, (chars rest ++ R).head? = some q → startsLiteral q = false := by
    obtain ⟨y, hy, hends, hyword⟩ | hbrace := r.follows
    · exact ⟨.inl (by rw [hy]; exact hyword), fun q hq => startsLiteral_head? hapart hy hends hq⟩
    · have hbrace := hrest (by simpa using hbrace)
      obtain ⟨rest, rfl⟩ : ∃ tail, rest = '\x7b' :: tail := by
        cases rest with
        | nil => cases hbrace
        | cons x rest => cases hbrace; exact ⟨rest, rfl⟩
      refine ⟨.inr rfl, ?_⟩
      rintro q ⟨⟩
      rfl
  refine ⟨hlex.replace r.shell r.oldHead_head r.oldHead_last r.oldTail_ne_nil
    (r.fresh_head _ _ hfresh)
    (fun hne => r.fresh_tail (by simpa [chars] using hne) _ _) (fun u t hu => ?_) hfollows.1
      hfollows.2,
    isChain_replace hapart r.shell r.head_last (by decide) hfollows.2⟩
  rw [chars, getLast?_map, Option.map_eq_some_iff] at hu
  obtain ⟨x, -, hx⟩ := hu
  cases hx

/-- Each match of the rule keeps what holds of the pieces of a text, when the rule has rewritten the
rest of the stretch. -/
def KeptBy (rule : Pattern Text) (I : List (Piece Unit) → Prop) : Prop :=
  ∀ before after v n, (v, n) ∈ rule ⟨before, after⟩ → n ≤ after.length ∧ ∀ {Q R}, EndsSealed Q →
    I (Q ++ chars (before.reverse ++
      (after.take n ++ replacedFrom rule ((after.take n).reverse ++ before) (after.drop n))) ++ R) →
    I (Q ++ chars (before.reverse ++ (v ++ replacedFrom rule ((after.take n).reverse ++ before)
      (after.drop n))) ++ R)

theorem KeptBy.replacedFrom (h : KeptBy rule I) (hQ : EndsSealed Q) (before after : Text)
    (hI : I (Q ++ chars (before.reverse ++ after) ++ R)) :
    I (Q ++ chars (before.reverse ++ replacedFrom rule before after) ++ R) := by
  induction hn : after.length using Nat.strong_induction_on generalizing before after with
  | _ n ih =>
    cases after with
    | nil => exact hI
    | cons c after =>
      by_cases hsome : ∃ v n, rule.firstAt ⟨before, c :: after⟩ = some (v, n + 1)
      · obtain ⟨v, k, hv⟩ := hsome
        obtain ⟨hk, hkeeps⟩ := h _ _ v (k + 1) (mem_of_mem_head? hv)
        rw [replacedFrom_of_some hk hv]
        have hlater := ih _ (by rw [← hn, length_drop, length_cons]; omega)
          (((c :: after).take (k + 1)).reverse ++ before)
          ((c :: after).drop (k + 1)) (by simpa using hI) rfl
        rw [reverse_append, reverse_reverse, append_assoc before.reverse] at hlater
        exact hkeeps hQ hlater
      · simp only [not_exists] at hsome
        rw [replacedFrom_of_not_some hsome]
        simpa using ih after.length (by rw [← hn]; simp) (c :: before) after (by simpa using hI) rfl

/-- A rule that reshapes keeps the pieces of a text, and keeps quotes apart. -/
theorem Reshapes.keptBy (hrule : Reshapes rule) :
    KeptBy rule fun ps => Lexes [] ps [] ∧ ps.IsChain Apart := by
  intro before after v n hmem
  obtain ⟨hn, hvalue⟩ := hrule.reshaped _ v n hmem
  refine ⟨hn, fun {Q R} hQ hI => ?_⟩
  obtain ⟨old, rest, rfl, hold, hrest⟩ : ∃ old rest, after = old ++ rest ∧ after.take n = old ∧
      after.drop n = rest :=
    ⟨_, _, (take_append_drop _ _).symm, rfl, rfl⟩
  rw [hold] at hvalue
  rw [hold, hrest] at hI ⊢
  obtain rfl | ⟨⟨r⟩⟩ := hvalue
  · exact hI
  · refine lexes_reshaped hQ r (fun hbrace => ?_) hI.1 hI.2
    -- no match starts with the brace
    obtain ⟨tail, rfl⟩ := head?_eq_some_iff.1 hbrace
    rw [replacedFrom_of_not_some]
    · rfl
    · intro w i hw
      have hnone := hrule.startsWithWord.firstAt_eq_none
        (c := ⟨old.reverse ++ before, '\x7b' :: tail⟩) (show isWord '\x7b' = false by decide)
      rw [hnone] at hw
      cases hw

/-! ## A whole text -/

theorem isChain_segments (t : Text) :
    (segments t).IsChain fun s s' => s.isCode = true → s'.isCode = false := by
  rw [segments]
  induction Text.pieces sealedClaim t with
  | nil => exact .nil
  | cons p ps ih =>
    rw [foldr_cons]
    generalize ps.foldr Segment.consPiece [] = ss at ih ⊢
    cases p with
    | claimed u s => exact isChain_cons.2 ⟨fun _ _ h => Bool.noConfusion h, ih⟩
    | char c =>
      cases ss with
      | nil => exact .singleton _
      | cons s ss =>
        obtain ⟨isCode, t⟩ := s
        cases isCode with
        | true => exact isChain_cons.2 (isChain_cons.1 ih)
        | false => exact isChain_cons.2 ⟨by rintro s' ⟨⟩ _; rfl, ih⟩

/-- The pieces that a rule leaves of a segment. -/
def Segment.replaced (rule : Pattern Text) (s : Segment) : List (Piece Unit) :=
  if s.isCode then chars (rule.replaceAll s.text) else [.claimed () s.text]

theorem KeptBy.flatMap (h : KeptBy rule I) {ss : List Segment}
    (hss : ss.IsChain fun s s' => s.isCode = true → s'.isCode = false)
    (hQ : ∀ s, ss.head? = some s → s.isCode = true → EndsSealed Q)
    (hI : I (Q ++ ss.flatMap Segment.pieces)) :
    I (Q ++ ss.flatMap (Segment.replaced rule)) := by
  induction ss generalizing Q with
  | nil => exact hI
  | cons s ss ih =>
    obtain ⟨isCode, t⟩ := s
    obtain ⟨hnext, hrest⟩ := isChain_cons.1 hss
    simp only [flatMap_cons, ← append_assoc] at hI ⊢
    cases isCode with
    | false =>
      refine ih hrest (fun s _ _ p hp => ?_) hI
      obtain rfl : .claimed () t = p := by simpa [Segment.replaced] using hp
      exact ⟨(), t, rfl⟩
    | true => exact h.replacedFrom (hQ _ rfl rfl) [] t (ih hrest (fun s hs hcode => by
        simp [hnext s hs rfl] at hcode) hI)

theorem spell_flatMap_replaced (t : Text) :
    spell ((segments t).flatMap (Segment.replaced rule)) = replaceInCode rule t := by
  rw [replaceInCode, mapCode]
  induction segments t with
  | nil => rfl
  | cons s ss ih =>
    rw [flatMap_cons, flatMap_cons, spell_append, ih, Segment.replaced]
    cases s.isCode <;> simp

theorem pieces_replaceInCode (hrule : Reshapes rule)
    (hapart : List.IsChain Apart (Text.pieces sealedClaim t)) :
    Text.pieces sealedClaim (replaceInCode rule t) = (segments t).flatMap (Segment.replaced rule) ∧
      List.IsChain Apart (Text.pieces sealedClaim (replaceInCode rule t)) := by
  have hstart : Lexes [] ([] ++ (segments t).flatMap Segment.pieces) [] ∧
      ([] ++ (segments t).flatMap Segment.pieces).IsChain Apart := by
    rw [nil_append, flatMap_segments]
    exact ⟨lexes_pieces t, hapart⟩
  obtain ⟨hlex, hapart⟩ := hrule.keptBy.flatMap (isChain_segments t) (by simp [EndsSealed]) hstart
  have hpieces := pieces_eq_iff.2 ⟨spell_flatMap_replaced t, hlex⟩
  exact ⟨hpieces, hpieces ▸ hapart⟩

/-- Two texts that are alike but for comments are so still when a rule has rewritten both. -/
theorem replaceInCode_alike (hrule : Reshapes rule) {t' : Text} (h : AlikeButComments t t')
    (hapart : List.IsChain Apart (Text.pieces sealedClaim t))
    (hapart' : List.IsChain Apart (Text.pieces sealedClaim t')) :
    AlikeButComments (replaceInCode rule t) (replaceInCode rule t') := by
  rw [alikeButComments_iff, (pieces_replaceInCode hrule hapart).1,
    (pieces_replaceInCode hrule hapart').1]
  refine rel_flatMap h fun s s' hs => ?_
  obtain rfl | ⟨hcode, hcode', ht, ht', hlen⟩ := hs
  · exact forall₂_same _
  · rw [Segment.replaced, Segment.replaced, hcode, hcode']
    exact .cons (.comment ht ht' hlen) .nil

end AnchorLowering.Source
