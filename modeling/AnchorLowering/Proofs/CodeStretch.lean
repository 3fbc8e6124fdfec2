import AnchorLowering.Proofs.CodeReplacement

/-!
# Rules that keep the stretches of code

A rule that runs on the code stretches of a text may run again on what it leaves, and then the text
is cut anew. For a rule that keeps its stretches (`KeepsStretches`) nothing is cut differently: the
stretches of the new text are the rewritten stretches of the old one (`segments_replaceInCode`), so
one rule after another on a text is one rule after another on each stretch
(`mapCode_replaceInCode`).

A rule that writes every match as it was read leaves the text as it is
(`KeepsCode.replaceInCode_eq`).
-/

namespace AnchorLowering.Source

open List Pattern

variable {Q R : List (Piece Unit)} {ss : List Segment} {before new old t : Text}

/-- With `new` in the place of `old`, the other pieces of a text stay what they are. -/
def KeepsPieces (before old new : Text) : Prop :=
  ∀ Q R rest, EndsSealed Q → Lexes [] (Q ++ chars (before.reverse ++ (old ++ rest)) ++ R) [] →
    Lexes [] (Q ++ chars (before.reverse ++ (new ++ rest)) ++ R) []

/-- A rule whose replacements keep the pieces around them and are not empty. -/
structure KeepsStretches (rule : Pattern Text) : Prop where
  reach : ∀ c v n, (v, n) ∈ rule c → n ≤ c.after.length
  ne_nil : ∀ c v n, (v, n) ∈ rule c → v ≠ []
  keeps : ∀ c v n, (v, n) ∈ rule c → KeepsPieces c.before (c.after.take n) v

/-! ## Replacing the head of a match -/

/-- A text that a rule replaces at a place, and its replacement: only the head changes. It starts
with a name, where no name ends, and in both texts no name goes on from the head to the tail. -/
structure Swapped (before old new : Text) where
  oldHead : Text
  head : Text
  tail : Text
  old_eq : old = oldHead ++ tail
  new_eq : new = head ++ tail
  no_name_before : before.head?.any isWord = false
  oldHead_head : oldHead.head?.any isWord = true
  oldHead_last : oldHead.getLast?.any isWord = false
  head_plain : Plain head
  head_last : head.getLast?.any isWord = false
  head_ne_nil : head ≠ []
  fresh : ∀ prev rest, prev.any isWord = false → StartsAfresh prev (head ++ rest)

theorem Swapped.keepsPieces (s : Swapped before old new) : KeepsPieces before old new := by
  intro Q R rest hQ hlex
  obtain ⟨oldHead, head, tail, rfl, rfl, hbefore, hoHead, hoLast, hplain, hnLast, hne, hstart⟩ := s
  rw [append_assoc oldHead] at hlex
  have hfresh := no_name_before_match hQ hbefore (head?_append_word hoHead) hlex
  have hsplit : ∀ u : Text, Q ++ chars (before.reverse ++ (u ++ (tail ++ rest))) ++ R =
      (Q ++ chars before.reverse) ++ (chars u ++ (chars (tail ++ rest) ++ R)) := by simp
  rw [hsplit] at hlex
  rw [append_assoc head, hsplit]
  obtain ⟨hP, hrest⟩ := lexes_append.1 hlex
  obtain ⟨-, hT⟩ := lexes_append.1 hrest
  refine lexes_append.2 ⟨?_, lexes_append.2 ⟨lexes_plain hplain, ?_⟩⟩
  · rw [spell_append, spell_chars, append_assoc] at hP ⊢
    exact hP.before_afresh (head?_append_word hoHead) (hstart _ _ hfresh)
  · -- the tail follows a character that ends no name, as before
    have hone : oldHead ≠ [] := by
      rintro rfl
      cases hoHead
    refine hT.transfer ?_ id (fun _ _ _ _ => .inl rfl) fun _ => .inl rfl
    rw [← head?_reverse] at hoLast hnLast
    rw [spell_chars, spell_chars, head?_append_of_ne_nil _ (by simpa using hone),
      head?_append_of_ne_nil _ (by simpa using hne), hoLast, hnLast]

theorem Swapped.new_ne_nil (s : Swapped before old new) : new ≠ [] := by
  obtain ⟨oldHead, head, tail, -, rfl, -, -, -, -, -, hne, -⟩ := s
  intro hnil
  exact hne (append_eq_nil_iff.1 hnil).1

/-- A rule that only replaces heads keeps its stretches. -/
theorem KeepsStretches.of_swapped
    (h : ∀ c v n, (v, n) ∈ rule c → n ≤ c.after.length ∧
      Nonempty (Swapped c.before (c.after.take n) v)) :
    KeepsStretches rule where
  reach := fun c v n hmem => (h c v n hmem).1
  ne_nil := fun c v n hmem => (h c v n hmem).2.elim Swapped.new_ne_nil
  keeps := fun c v n hmem => (h c v n hmem).2.elim Swapped.keepsPieces

/-! ## One stretch -/

variable {rule : Pattern Text}

theorem KeepsStretches.keptBy (hrule : KeepsStretches rule) : KeptBy rule (Lexes [] · []) :=
  fun _ _ v n hmem => ⟨hrule.reach _ v n hmem, fun {Q R} hQ => hrule.keeps _ v n hmem Q R _ hQ⟩

theorem KeepsStretches.replaceAll_ne_nil (hrule : KeepsStretches rule) (ht : t ≠ []) :
    rule.replaceAll t ≠ [] := by
  obtain ⟨c, t, rfl⟩ := exists_cons_of_ne_nil ht
  rw [replaceAll_eq_replacedFrom]
  by_cases hsome : ∃ v n, rule.firstAt ⟨[], c :: t⟩ = some (v, n + 1)
  · obtain ⟨v, k, hv⟩ := hsome
    have hmem : (v, k + 1) ∈ rule ⟨[], c :: t⟩ := mem_of_mem_head? hv
    rw [replacedFrom_of_some (hrule.reach _ _ _ hmem) hv]
    intro hnil
    exact hrule.ne_nil _ _ _ hmem (append_eq_nil_iff.1 hnil).1
  · simp only [not_exists] at hsome
    rw [replacedFrom_of_not_some hsome]
    exact cons_ne_nil _ _

/-! ## A whole text -/

/-- The segment with its code rewritten. -/
def Segment.mapCode (f : Text → Text) (s : Segment) : Segment :=
  if s.isCode then ⟨true, f s.text⟩ else s

@[simp]
theorem Segment.isCode_mapCode (f : Text → Text) (s : Segment) :
    (s.mapCode f).isCode = s.isCode := by
  obtain ⟨isCode, t⟩ := s
  cases isCode <;> rfl

theorem mapCode_eq_flatMap (f : Text → Text) (t : Text) :
    mapCode f t = ((segments t).map (Segment.mapCode f)).flatMap Segment.text := by
  rw [mapCode, flatMap_map]
  refine flatMap_congr fun s _ => ?_
  obtain ⟨isCode, t⟩ := s
  cases isCode <;> rfl

theorem spell_flatMap_pieces (ss : List Segment) :
    spell (ss.flatMap Segment.pieces) = ss.flatMap Segment.text := by
  induction ss with
  | nil => rfl
  | cons s ss ih =>
    rw [flatMap_cons, flatMap_cons, spell_append, ih, Segment.pieces]
    cases s.isCode <;> simp

theorem flatMap_text_segments (t : Text) : (segments t).flatMap Segment.text = t := by
  rw [← spell_flatMap_pieces, flatMap_segments, spell_pieces]

/-- A rule that matches nowhere changes nothing. -/
theorem replaceInCode_of_eq_nil (h : ∀ c, rule c = []) (t : Text) : replaceInCode rule t = t := by
  have hstay : ∀ before u, replacedFrom rule before u = u := by
    intro before u
    induction u generalizing before with
    | nil => rfl
    | cons x u ih =>
      rw [replacedFrom_of_not_some, ih]
      intro v n hv
      rw [firstAt, h] at hv
      cases hv
  rw [replaceInCode, mapCode]
  refine Eq.trans (flatMap_congr fun s _ => ?_) (flatMap_text_segments t)
  rw [replaceAll_eq_replacedFrom, hstay, ite_self]

theorem foldr_consPiece_chars (ht : t ≠ []) (hss : ∀ s, ss.head? = some s → s.isCode = false) :
    (chars t).foldr Segment.consPiece ss = ⟨true, t⟩ :: ss := by
  induction t with
  | nil => exact absurd rfl ht
  | cons c t ih =>
    rw [chars_cons, foldr_cons]
    cases t with
    | nil =>
      cases ss with
      | nil => rfl
      | cons s ss =>
        obtain ⟨isCode, u⟩ := s
        obtain rfl : isCode = false := hss _ rfl
        rfl
    | cons d t =>
      rw [ih (cons_ne_nil d t)]
      rfl

/-- Segments in which code alternates with sealed regions are found again from their pieces. -/
theorem foldr_consPiece_flatMap (hss : ss.IsChain fun s s' => s.isCode = true → s'.isCode = false)
    (hne : ∀ s ∈ ss, s.isCode = true → s.text ≠ []) :
    (ss.flatMap Segment.pieces).foldr Segment.consPiece [] = ss := by
  induction ss with
  | nil => rfl
  | cons s ss ih =>
    obtain ⟨hnext, hrest⟩ := isChain_cons.1 hss
    have ih := ih hrest fun s hs => hne s (mem_cons_of_mem _ hs)
    rw [flatMap_cons, foldr_append, ih]
    obtain ⟨isCode, t⟩ := s
    cases isCode with
    | false => rfl
    | true => exact foldr_consPiece_chars (hne _ mem_cons_self rfl) fun s hs => hnext s hs rfl

theorem text_ne_nil_of_mem_segments {s : Segment} (h : s ∈ segments t) (hcode : s.isCode = true) :
    s.text ≠ [] := by
  revert h
  rw [segments]
  induction Text.pieces sealedClaim t generalizing s with
  | nil => exact fun h => absurd h not_mem_nil
  | cons p ps ih =>
    rw [foldr_cons]
    generalize ps.foldr Segment.consPiece [] = ss at ih ⊢
    intro h
    cases p with
    | claimed u w =>
      rcases mem_cons.1 h with rfl | h
      · cases hcode
      · exact ih hcode h
    | char c =>
      cases ss with
      | nil =>
        obtain rfl := mem_singleton.1 h
        exact cons_ne_nil c []
      | cons s' ss =>
        obtain ⟨isCode, w⟩ := s'
        cases isCode with
        | true =>
          rcases mem_cons.1 h with rfl | h
          · exact cons_ne_nil c w
          · exact ih hcode (mem_cons_of_mem _ h)
        | false =>
          rcases mem_cons.1 h with rfl | h
          · exact cons_ne_nil c []
          · exact ih hcode h

namespace KeepsStretches

/-- The stretches of the new text are the rewritten stretches of the old one. -/
theorem segments_replaceInCode (hrule : KeepsStretches rule) (t : Text) :
    segments (replaceInCode rule t) = (segments t).map (Segment.mapCode rule.replaceAll) := by
  have hchain : ((segments t).map (Segment.mapCode rule.replaceAll)).IsChain
      fun s s' => s.isCode = true → s'.isCode = false := by
    rw [isChain_map]
    simpa using isChain_segments t
  have hne : ∀ s ∈ (segments t).map (Segment.mapCode rule.replaceAll), s.isCode = true →
      s.text ≠ [] := by
    intro s hs hcode
    obtain ⟨s, hmem, rfl⟩ := mem_map.1 hs
    rw [Segment.isCode_mapCode] at hcode
    have ht := hrule.replaceAll_ne_nil (text_ne_nil_of_mem_segments hmem hcode)
    rwa [Segment.mapCode, if_pos hcode]
  have hpieces : Text.pieces sealedClaim (replaceInCode rule t) =
      ((segments t).map (Segment.mapCode rule.replaceAll)).flatMap Segment.pieces := by
    have hreplaced : ((segments t).map (Segment.mapCode rule.replaceAll)).flatMap Segment.pieces =
        (segments t).flatMap (Segment.replaced rule) := by
      rw [flatMap_map]
      refine flatMap_congr fun s _ => ?_
      obtain ⟨isCode, u⟩ := s
      cases isCode <;> rfl
    have hstart : Lexes [] ([] ++ (segments t).flatMap Segment.pieces) [] := by
      rw [nil_append, flatMap_segments]
      exact lexes_pieces t
    rw [hreplaced]
    exact pieces_eq_iff.2 ⟨spell_flatMap_replaced t, hrule.keptBy.flatMap (isChain_segments t)
      (by simp [EndsSealed]) hstart⟩
  rw [segments, hpieces, foldr_consPiece_flatMap hchain hne]

/-- A function on the stretches of the new text is one on the stretches of the old text. -/
theorem mapCode_replaceInCode (hrule : KeepsStretches rule) (f : Text → Text) (t : Text) :
    mapCode f (replaceInCode rule t) = mapCode (fun u => f (rule.replaceAll u)) t := by
  rw [mapCode_eq_flatMap, mapCode_eq_flatMap, hrule.segments_replaceInCode, map_map]
  refine congrArg (·.flatMap Segment.text) (map_congr_left fun s _ => ?_)
  obtain ⟨isCode, u⟩ := s
  cases isCode <;> rfl

end KeepsStretches

/-! ## Rules that keep a text -/

/-- Every match of the rule is written as it was read. -/
def Keeps (rule : Pattern Text) (t : Text) : Prop :=
  ∀ v u, Piece.claimed v u ∈ Text.pieces rule.firstAt t → v = u

instance (rule : Pattern Text) (t : Text) : Decidable (Keeps rule t) :=
  decidable_of_iff (∀ p ∈ Text.pieces rule.firstAt t, p.value?.getD p.text = p.text) <| by
    constructor
    · intro h v u hmem
      exact h _ hmem
    · rintro h (c | ⟨v, u⟩) hmem
      · rfl
      · exact h v u hmem

theorem Keeps.replaceAll_eq (h : Keeps rule t) : rule.replaceAll t = t := by
  refine Eq.trans (flatMap_congr fun p hp => ?_) (Text.flatten_pieces _ t)
  cases p with
  | char c => rfl
  | claimed v u => exact h v u hp

/-- The rule keeps every stretch of code. -/
def KeepsCode (rule : Pattern Text) (t : Text) : Prop :=
  ∀ s ∈ segments t, s.isCode = true → Keeps rule s.text

instance (rule : Pattern Text) (t : Text) : Decidable (KeepsCode rule t) :=
  inferInstanceAs (Decidable (∀ s ∈ segments t, s.isCode = true → Keeps rule s.text))

theorem mapCode_eq_self {f : Text → Text} (h : ∀ s ∈ segments t, s.isCode = true →
    f s.text = s.text) :
    mapCode f t = t := by
  refine Eq.trans (flatMap_congr fun s hs => ?_) (flatMap_text_segments t)
  split
  next hcode => exact h s hs hcode
  next => rfl

theorem KeepsCode.replaceInCode_eq (h : KeepsCode rule t) : replaceInCode rule t = t :=
  mapCode_eq_self fun s hs hcode => (h s hs hcode).replaceAll_eq

theorem replaceFromCode_eq (h : Source.findAll rule t = []) : replaceFromCode rule t = t := by
  rw [replaceFromCode]
  conv => rhs; rw [← Text.flatten_pieces rule.matchAt t]
  refine flatMap_congr fun p hp => ?_
  cases p with
  | char c => rfl
  | claimed m u =>
    dsimp only
    rw [if_neg]
    · rfl
    · intro hcode
      have hm : m ∈ Source.findAll rule t := mem_filter.2 ⟨mem_filterMap.2 ⟨_, hp, rfl⟩, hcode⟩
      rw [h] at hm
      cases hm

theorem foldl_eq_self {rules : List (Pattern Text)} {f : Text → Pattern Text → Text}
    (h : ∀ rule ∈ rules, f t rule = t) : rules.foldl f t = t := by
  induction rules with
  | nil => rfl
  | cons rule rules ih =>
    obtain ⟨hrule, hrules⟩ := forall_mem_cons.1 h
    rw [foldl_cons, hrule, ih hrules]

theorem foldl_replaceInCode_eq {rules : List (Pattern Text)}
    (h : ∀ rule ∈ rules, KeepsCode rule t) :
    rules.foldl (fun t rule => replaceInCode rule t) t = t :=
  foldl_eq_self fun rule hrule => (h rule hrule).replaceInCode_eq

end AnchorLowering.Source
