import AnchorLowering.Proofs.RecognisedCall
import AnchorLowering.Proofs.RemovedBinding

/-!
# Calls that survive the lowering

The lowering of calls is to leave no call of another program that the program's facts would still
list. It does so but for two things. A call may stay because a path that starts in a comment or a
literal hides it from the search (`RunsFromSealed`). And a call may come back in what is written for
another one, where a seed or an amount holds it.

`survives_iff` says that there is no third way, for a body whose removed bindings stand as
statements and whose edits leave no seam.
-/

namespace AnchorLowering.Lowering

open List Pattern Source Facts

variable {s : CallShape} {t : CallTarget} {e : Edit} {edits : List Edit}

/-! ## Calls across a cut -/

/-- A character that a call may have before its bracket. -/
def isCallChar (x : Char) : Bool := isWord x || isBlank x || x == ':'

theorem goesOn_isCallChar : GoesOn isCallChar where
  closer := by
    intro x hx
    rcases isCloser_iff.1 hx with rfl | rfl | rfl <;> decide
  question := by decide
  semicolon := by decide

/-- A call that runs across a cut: what it has on either side. -/
structure Crosses (s : CallShape) (a b w₁ w₂ : Marked) : Prop where
  left : w₁ <:+ a
  right : w₂ <+: b
  left_ne_nil : w₁ ≠ []
  right_ne_nil : w₂ ≠ []
  shape : IsShape s.program.toList s.function.toList ((w₁ ++ w₂).map (·.1))
  code : ∀ m ∈ w₁ ++ w₂, m.2 = true

section

variable {a b : Marked}

/-- Where no call runs across a cut, calls stand on either side. -/
theorem splitsAt_callAt (hlast : a.getLast?.any wordMark = false)
    (hcross : ∀ s ∈ callShapes, ∀ w₁ w₂, ¬Crosses s a b w₁ w₂) : SplitsAt CallAt a b := by
  intro i
  constructor
  · rintro ⟨s, hs, u, w, v, hsplit, rfl, hshape, hcode, hu⟩
    rcases append_eq_append_iff.1 hsplit with ⟨k, rfl, hb⟩ | ⟨k, rfl, hwv⟩
    · refine .inr ⟨by simp, s, hs, k, w, v, hb, by simp, hshape, hcode, ?_⟩
      rcases eq_nil_or_concat' k with rfl | ⟨k, m, rfl⟩
      · rfl
      · simpa [← append_assoc] using hu
    · rcases append_eq_append_iff.1 hwv with ⟨l, rfl, rfl⟩ | ⟨l, rfl, rfl⟩
      · exact .inl ⟨s, hs, u, w, l, rfl, rfl, hshape, hcode, hu⟩
      · by_cases hk : k = []
        · subst hk
          exact .inr ⟨by simp, s, hs, [], l, v, rfl, by simp, by simpa using hshape,
            by simpa using hcode, rfl⟩
        · by_cases hl : l = []
          · subst hl
            exact .inl ⟨s, hs, u, k, [],
              by simp, rfl, by simpa using hshape, by simpa using hcode, hu⟩
          · exact absurd ⟨suffix_append u k, prefix_append l v, hk, hl, hshape, hcode⟩
              (hcross s hs k l)
  · rintro (⟨s, hs, u, w, v, rfl, rfl, hshape, hcode, hu⟩ | ⟨hle, s, hs, u, w, v, rfl, hlen,
      hshape, hcode, hu⟩)
    · exact ⟨s, hs, u, w, v ++ b, by simp, rfl, hshape, hcode, hu⟩
    · exact ⟨s, hs, a ++ u, w, v,
        by simp, by rw [length_append]; omega, hshape, hcode, getLast?_append_any hlast hu⟩

/-- What a call has before a cut is a part of its names, colons and blanks. -/
theorem Crosses.exists_prefix {w₁ w₂ : Marked} (h : Crosses s a b w₁ w₂) :
    ∃ core g k, IsCore s.program.toList s.function.toList core ∧ Blank g ∧
    core ++ g = w₁.map (·.1) ++ k := by
  obtain ⟨core, g, hcore, hg, heq⟩ := h.shape
  refine ⟨core, g, ?_⟩
  rw [map_append, ← append_assoc] at heq
  rcases append_eq_append_iff.1 heq with ⟨k, hk, -⟩ | ⟨k, hk, hrest⟩
  · exact ⟨k, hcore, hg, hk⟩
  · have hnil : k = [] := by
      have := congrArg List.length hrest
      have := length_pos_of_ne_nil h.right_ne_nil
      simp only [length_append, length_map, length_singleton] at *
      exact eq_nil_of_length_eq_zero (by omega)
    exact ⟨[], hcore, hg, by rw [hk, hnil, append_nil, append_nil]⟩

theorem isCallChar_of_mem {program function core g : Text} (hnames : CallNames program function)
    (hcore : IsCore program function core) (hg : Blank g) :
    ∀ x ∈ core ++ g, isCallChar x = true := by
  obtain ⟨j, j', hj, hj', rfl⟩ := hcore
  have hword : ∀ {x}, isWord x = true → isCallChar x = true := fun hx => by simp [isCallChar, hx]
  have hblank : ∀ {x}, isBlank x = true → isCallChar x = true := fun hx => by simp [isCallChar, hx]
  intro x hx
  simp only [append_assoc, mem_append] at hx
  rcases hx with hx | hx | hx | hx | hx | hx
  · exact hword (hnames.first.word x hx)
  · exact hblank (hj x hx)
  · rcases mem_cons.1 hx with rfl | hx
    · decide
    · rw [mem_singleton.1 hx]
      decide
  · exact hblank (hj' x hx)
  · exact hword (hnames.second.word x hx)
  · exact hblank (hg x hx)

theorem not_crosses_of_last (h : a.getLast?.any (onChar isCallChar) = false) (hs : s ∈ callShapes)
    (w₁ w₂ : Marked) : ¬Crosses s a b w₁ w₂ := by
  intro hcross
  obtain ⟨core, g, k, hcore, hg, hk⟩ := hcross.exists_prefix
  obtain ⟨u, rfl⟩ := hcross.left
  have hmem := getLast_mem hcross.left_ne_nil
  rw [getLast?_append_of_ne_nil _ hcross.left_ne_nil, getLast?_eq_some_getLast hcross.left_ne_nil,
    Option.any_some, onChar, isCallChar_of_mem (callNames_of_mem hs) hcore hg _
      (by rw [hk]; exact mem_append_left k (mem_map_of_mem hmem))] at h
  cases h

/-- No call runs into a text that starts with a character that calls do not have. -/
theorem not_crosses_of_head (h : b.head?.any (onChar fun x => isCallChar x || x == '(') = false)
    {s : CallShape} (hs : s ∈ callShapes) (w₁ w₂ : Marked) : ¬Crosses s a b w₁ w₂ := by
  intro hcross
  obtain ⟨core, g, hcore, hg, heq⟩ := hcross.shape
  obtain ⟨v, rfl⟩ := hcross.right
  obtain ⟨m, w₂, rfl⟩ := exists_cons_of_ne_nil hcross.right_ne_nil
  have hmem : m.1 ∈ core ++ (g ++ ['(']) := by
    rw [← heq]
    exact mem_map_of_mem (by simp)
  rw [cons_append, head?_cons, Option.any_some, onChar] at h
  rw [← append_assoc] at hmem
  rcases mem_append.1 hmem with hmem | hmem
  · rw [isCallChar_of_mem (callNames_of_mem hs) hcore hg _ hmem] at h
    cases h
  · rw [mem_singleton.1 hmem] at h
    revert h
    decide

/-- No call runs into a text that starts with a name, if that is not the second name of a call with
its bracket. -/
theorem not_crosses_of_name (ha : a.getLast?.any wordMark = false)
    (hb : b.head?.any wordMark = true) (hs : s ∈ callShapes)
    (hno : ∀ g v, Blank g → b.map (·.1) ≠ s.function.toList ++ (g ++ '(' :: v)) (w₁ w₂ : Marked) :
    ¬Crosses s a b w₁ w₂ := by
  intro hcross
  have hnames := callNames_of_mem hs
  obtain ⟨_, g, ⟨j, j', hj, hj', rfl⟩, hg, heq⟩ := hcross.shape
  obtain ⟨u, rfl⟩ := hcross.left
  obtain ⟨v, rfl⟩ := hcross.right
  have hlast : (w₁.map (·.1)).getLast?.any isWord = false := by
    rw [getLast?_append_of_ne_nil _ hcross.left_ne_nil] at ha
    rw [getLast?_map_fst, ha]
  have hhead : (w₂.map (·.1)).head?.any isWord = true := by
    rw [head?_append_of_ne_nil _ hcross.right_ne_nil] at hb
    rw [head?_map_fst, hb]
  have hne : w₁.map (·.1) ≠ [] := by simpa using hcross.left_ne_nil
  have hsplit : w₁.map (·.1) ++ w₂.map (·.1) =
      s.program.toList ++ ((j ++ ("::".toList ++ j')) ++ (s.function.toList ++ (g ++ ['(']))) := by
    rw [← map_append, heq]
    simp
  obtain ⟨a₁, ha₁, hsplit₁⟩ := exists_after_name hnames.first hne hlast hsplit
  obtain ⟨a₂, rfl, hsplit₂⟩ := exists_after_marks (isWord_of_mem_marks hj hj') hhead hsplit₁
  by_cases hnil : a₂ = []
  · subst hnil
    refine hno g (v.map (·.1)) hg ?_
    rw [map_append, show w₂.map (·.1) = _ from hsplit₂]
    simp
  · have hlast₂ : a₂.getLast?.any isWord = false := by
      rw [ha₁, ← append_assoc, getLast?_append_of_ne_nil _ hnil] at hlast
      exact hlast
    obtain ⟨a₃, -, hsplit₃⟩ := exists_after_name hnames.second hnil hlast₂ hsplit₂
    have hmarks : ∀ x ∈ g ++ ['('], isWord x = false :=
      forall_mem_append.2 ⟨fun x hx => isWord_of_isBlank (hg x hx), by decide⟩
    obtain ⟨m, w, hw⟩ :=
      exists_cons_of_ne_nil (by simpa using hcross.right_ne_nil : w₂.map (·.1) ≠ [])
    rw [hw, head?_cons, Option.any_some, hmarks m (by rw [← hsplit₃, hw]; simp)] at hhead
    cases hhead

end

/-! ## Bindings that stand as statements -/

/-- Nothing in code that a call could go on from ends the text: its last character, blanks aside, is
neither part of a name nor a colon. -/
def Shut (ms : Marked) : Prop :=
  (ms.reverse.dropWhile (onChar isBlank)).head?.any (fun m => m.2 && (isWord m.1 || m.1 == ':')) =
  false

instance (ms : Marked) : Decidable (Shut ms) := inferInstanceAs (Decidable (_ = _))

section

variable {a b : Marked}

theorem shut_append_blanks (hb : ∀ m ∈ b, onChar isBlank m = true) : Shut (a ++ b) ↔ Shut a := by
  rw [Shut, reverse_append, dropWhile_append_of_pos fun m hm => hb m (mem_reverse.1 hm), Shut]

theorem shut_append_solid (hb : ∃ m ∈ b, onChar isBlank m = false) : Shut (a ++ b) ↔ Shut b := by
  have hne : b.reverse.dropWhile (onChar isBlank) ≠ [] := by
    intro hnil
    obtain ⟨m, hm, hsolid⟩ := hb
    rw [dropWhile_eq_nil_iff.1 hnil m (mem_reverse.2 hm)] at hsolid
    cases hsolid
  rw [Shut, reverse_append, dropWhile_append, if_neg (by simpa using hne),
    head?_append_of_ne_nil _ hne, Shut]

theorem not_crosses_of_shut (h : Shut a) (hs : s ∈ callShapes) (w₁ w₂ : Marked) :
    ¬Crosses s a b w₁ w₂ := by
  intro hcross
  have hnames := callNames_of_mem hs
  obtain ⟨core, g, k, hcore, hg, hk⟩ := hcross.exists_prefix
  have hchars : ∀ m ∈ w₁, isCallChar m.1 = true := fun m hm =>
    isCallChar_of_mem hnames hcore hg _ (by rw [hk]; exact mem_append_left k (mem_map_of_mem hm))
  obtain ⟨u, rfl⟩ := hcross.left
  have hsolid : ∃ m ∈ w₁, onChar isBlank m = false := by
    obtain ⟨m, w, rfl⟩ := exists_cons_of_ne_nil hcross.left_ne_nil
    obtain ⟨x, name, hname⟩ := exists_cons_of_ne_nil hnames.first.ne_nil
    obtain ⟨j, j', -, -, rfl⟩ := hcore
    rw [hname] at hk
    refine ⟨m, mem_cons_self, ?_⟩
    have hx : x = m.1 := (cons.inj hk).1
    rw [onChar, ← hx]
    exact isBlank_of_isWord (hnames.first.word x (by rw [hname]; exact mem_cons_self))
  rw [shut_append_solid hsolid, Shut] at h
  cases hlast : w₁.reverse.dropWhile (onChar isBlank) with
  | nil =>
    obtain ⟨m, hm, hsolid⟩ := hsolid
    rw [dropWhile_eq_nil_iff.1 hlast m (mem_reverse.2 hm)] at hsolid
    cases hsolid
  | cons m rest =>
    have hmem : m ∈ w₁ := mem_reverse.1 ((dropWhile_suffix _).subset (hlast ▸ mem_cons_self))
    have hsolid : isBlank m.1 = false := by
      have := head?_dropWhile_not (onChar isBlank) w₁.reverse
      rw [hlast] at this
      exact this
    rw [hlast, head?_cons, Option.any_some, hcross.code m (mem_append_left w₂ hmem)] at h
    have hchar := hchars m hmem
    rw [isCallChar, hsolid, Bool.or_false] at hchar
    rw [hchar] at h
    cases h

end

/-! ## Edits that cut no call -/

/-- What is written starts with a character that calls do not have, or with a name that is no second
name of a call. -/
def OpensNoCall (t : Text) : Prop :=
  t.head?.any (fun x => isCallChar x || x == '(') = false ∨ ∃ n r, t = n ++ r ∧ IsName n ∧ r ≠ [] ∧
    r.head?.any isWord = false ∧ ∀ s ∈ callShapes, s.function.toList ≠ n

/-- No call runs over the edges of an edit: neither over those of what it replaces nor over those of
what it writes. -/
structure CutsNoCall (ms : Marked) (e : Edit) : Prop extends CutsNoName ms e where
  stops : (ms.take e.stop).getLast?.any (onChar isCallChar) = false
  starts : (ms.drop e.start).head?.any wordMark = true
  opens : ∀ s ∈ callShapes, ∀ g v, (∀ x ∈ g, isBlank x = true) →
    (ms.drop e.start).map (·.1) ≠ s.function.toList ++ (g ++ '(' :: v)
  writes : e.replacement = [] ∧ Shut (ms.take e.start) ∨
    e.replacement ≠ [] ∧ e.replacement.getLast?.any isCallChar = false ∧ OpensNoCall e.replacement

theorem not_crosses_of_opensNoCall {a b : Marked} {t : Text} (ha : a.getLast?.any wordMark = false)
    (hne : t ≠ []) (h : OpensNoCall t) (hs : s ∈ callShapes) (w₁ w₂ : Marked) :
    ¬Crosses s a (marked t ++ b) w₁ w₂ := by
  have hne' : marked t ≠ [] := marked_ne_nil hne
  rcases h with h | ⟨n, r, rfl, hn, hr, hword, hno⟩
  · refine not_crosses_of_head ?_ hs w₁ w₂
    rw [head?_append_of_ne_nil _ hne', ← head?_map_fst, map_fst_marked, h]
  · refine not_crosses_of_name ha ?_ hs (fun g v hg heq => hno s hs ?_) w₁ w₂
    · rw [head?_append_of_ne_nil _ hne', ← head?_map_fst, map_fst_marked, isName_head? hn]
    · rw [map_append, map_fst_marked, append_assoc] at heq
      have hword' : (r ++ b.map (·.1)).head?.any isWord = false := by
        rwa [head?_append_of_ne_nil _ hr]
      exact (append_inj_of_class hn.word (callNames_of_mem hs).second.word hword'
        (head?_gap hg (by decide) v) heq).1.symm

section

variable {ms : Marked}

theorem CutsNoCall.take {k : Nat} (h : CutsNoCall ms e) (hstop : e.stop ≤ k) (hk : k ≤ ms.length) :
    CutsNoCall (ms.take k) e where
  toCutsNoName := h.toCutsNoName.take hstop hk
  stops := by rw [take_take, Nat.min_eq_left hstop, h.stops]
  starts := by
    have hlt := h.start_lt_stop
    have hstarts := h.starts
    rw [head?_drop] at hstarts ⊢
    rwa [getElem?_take_of_lt (by omega)]
  opens := by
    intro s hs g v hg heq
    refine h.opens s hs g (v ++ (ms.drop k).map (·.1)) hg ?_
    have hsplit : ms.drop e.start = (ms.take k).drop e.start ++ ms.drop k := by
      have hle : e.start ≤ (ms.take k).length := by
        rw [length_take_of_le hk]
        exact h.start_lt_stop.le.trans hstop
      rw [← drop_append_of_le_length hle, take_append_drop]
    rw [hsplit, map_append, heq]
    simp
  writes := by
    rw [take_take, Nat.min_eq_left (h.start_lt_stop.le.trans hstop)]
    exact h.writes

theorem shut_spliceMarked (h : Descends ms.length edits) (hcuts : ∀ e ∈ edits, CutsNoCall ms e)
    (hshut : Shut ms) : Shut (spliceMarked ms edits) := by
  induction edits generalizing ms with
  | nil => exact hshut
  | cons e edits ih =>
    have hcut := hcuts e mem_cons_self
    have hstart : e.start ≤ ms.length := hcut.start_lt_stop.le.trans hcut.stop_le
    rw [spliceMarked_cons h]
    by_cases hblank : ∀ m ∈ ms.drop e.stop, onChar isBlank m = true
    · rw [← append_assoc, shut_append_blanks hblank]
      rcases hcut.writes with ⟨hnil, hstands⟩ | ⟨hne, hlast, -⟩
      · rw [hnil, marked_nil, append_nil]
        refine ih ?_ (fun d hd => ?_) hstands
        · rw [length_take_of_le hstart]
          exact h.2.2
        · exact (hcuts d (mem_cons_of_mem e hd)).take (h.2.2.stop_le d hd) hstart
      · -- what is written ends with a character that is neither blank nor part of a call
        have hmarked : (marked e.replacement).getLast?.any (onChar isCallChar) = false := by
          rw [← getLast?_map_fst, map_fst_marked, hlast]
        obtain ⟨ns, m, hms⟩ :=
          (eq_nil_or_concat' (marked e.replacement)).resolve_left (marked_ne_nil hne)
        rw [hms, List.getLast?_concat, Option.any_some, onChar, isCallChar] at hmarked
        simp only [Bool.or_eq_false_iff] at hmarked
        obtain ⟨⟨hword, hsolid⟩, hcolon⟩ := hmarked
        rw [shut_append_solid ⟨m, by rw [hms]; simp, hsolid⟩, hms,
          shut_append_solid ⟨m, by simp, hsolid⟩, Shut, reverse_singleton,
          dropWhile_cons_of_neg (by rw [onChar, hsolid]; exact Bool.false_ne_true),
          head?_cons, Option.any_some, hword, hcolon, Bool.or_false, Bool.and_false]
    · have hsolid : ∃ m ∈ ms.drop e.stop, onChar isBlank m = false := by
        push Not at hblank
        obtain ⟨m, hm, hne⟩ := hblank
        exact ⟨m, hm, Bool.eq_false_iff.2 hne⟩
      rw [← append_assoc, shut_append_solid hsolid]
      rwa [← take_append_drop e.stop ms, shut_append_solid hsolid] at hshut

theorem splitsAtEdits_callAt (h : Descends ms.length edits) (hcuts : ∀ e ∈ edits, CutsNoCall ms e) :
    SplitsAtEdits CallAt ms edits := by
  induction edits generalizing ms with
  | nil => trivial
  | cons e edits ih =>
    have hcut := hcuts e mem_cons_self
    have hstart : e.start ≤ ms.length := hcut.start_lt_stop.le.trans hcut.stop_le
    have hdescends : Descends (ms.take e.start).length edits := by
      rw [length_take_of_le hstart]
      exact h.2.2
    have hcuts' : ∀ d ∈ edits, CutsNoCall (ms.take e.start) d := fun d hd =>
      (hcuts d (mem_cons_of_mem e hd)).take (h.2.2.stop_le d hd) hstart
    have hlast : (spliceMarked (ms.take e.start) edits).getLast?.any wordMark = false :=
      getLast?_spliceMarked hdescends (fun d hd => (hcuts' d hd).toCutsNoName) hcut.before
    refine ⟨splitsAt_callAt hcut.before fun s hs => ?_, splitsAt_callAt hcut.through fun s hs => ?_,
      splitsAt_callAt hlast fun s hs => ?_, splitsAt_callAt hcut.written fun s hs =>
        ?_, ih hdescends hcuts'⟩
    · exact not_crosses_of_name hcut.before hcut.starts hs (hcut.opens s hs)
    · exact not_crosses_of_last hcut.stops hs
    · rcases hcut.writes with ⟨hnil, hstands⟩ | ⟨hne, -, hopens⟩
      · exact not_crosses_of_shut (shut_spliceMarked hdescends hcuts' hstands) hs
      · exact not_crosses_of_opensNoCall hlast hne hopens hs
    · rcases hcut.writes with ⟨hnil, -⟩ | ⟨hne, hend, -⟩
      · rw [hnil]
        exact not_crosses_of_last rfl hs
      · refine not_crosses_of_last ?_ hs
        rw [← getLast?_map_fst, map_fst_marked, hend]

end

/-! ## What is written for a call -/

theorem prefix_join {separator part : Text} {parts : List Text} :
    part <+: Text.join separator (part :: parts) := by
  cases parts with
  | nil => simp [Text.join]
  | cons next parts =>
    rw [Text.join, intercalate_cons_cons, append_assoc]
    exact prefix_append _ _

theorem exists_invokeSigned (signer : Nat) (seeds : List Text) (bump : Option Text)
    (instruction suffix : Text) :
    ∃ w, invokeSigned signer seeds bump instruction suffix = "let".toList ++ ' ' :: w := by
  have hseed : ∀ seed k, ∀ part ∈ (seedPart signer seed k).1, "let ".toList <+: part := by
    intro seed k part hpart
    rw [seedPart] at hpart
    split at hpart
    · rw [mem_singleton.1 hpart]
      exact prefix_append _ _
    · cases hpart
  have hlets : ∀ part ∈ (seeds.zipIdx.map (fun e => seedPart signer e.1 e.2) ++ bump.toList.map
      fun b =>
      ([Text.concat ["let ", numbered "cpi_bump_" signer, " = [", b, "];"]],
        Text.concat ["Seed::from(&", numbered "cpi_bump_" signer, ")"])).flatMap (·.1),
          "let ".toList <+: part := by
    intro part hpart
    obtain ⟨e, he, hpart⟩ := mem_flatMap.1 hpart
    rcases mem_append.1 he with he | he
    · obtain ⟨⟨seed, k⟩, -, rfl⟩ := mem_map.1 he
      exact hseed seed k part hpart
    · obtain ⟨b, -, rfl⟩ := mem_map.1 he
      rw [mem_singleton.1 hpart]
      exact prefix_append _ _
  have hwhole : "let ".toList <+: invokeSigned signer seeds bump instruction suffix := by
    simp only [invokeSigned]
    revert hlets
    generalize (seeds.zipIdx.map (fun e => seedPart signer e.1 e.2) ++ bump.toList.map fun b =>
      ([Text.concat ["let ", numbered "cpi_bump_" signer, " = [", b, "];"]],
        Text.concat ["Seed::from(&", numbered "cpi_bump_" signer, ")"])) = all
    intro hlets
    cases hparts : all.flatMap (·.1) with
    | nil => exact (prefix_append _ _).trans prefix_join
    | cons part parts => exact (hlets part (by rw [hparts]; exact mem_cons_self)).trans prefix_join
  obtain ⟨w, hw⟩ := hwhole
  exact ⟨w, hw.symm⟩

theorem CallTarget.Issues.opensNoCall (ht : t ∈ callTargets) {accounts : List (String × Text)}
    {amount suffix text : Text} (h : t.Issues accounts amount suffix text) :
    text ≠ [] ∧ OpensNoCall text := by
  cases h with
  | inPlace hsystem => exact ⟨cons_ne_nil _ _, .inl rfl⟩
  | invoked =>
    have hpaths : ∀ t ∈ callTargets, ∃ n ∈ ["pinocchio_token".toList, "pinocchio_system".toList],
        ∃ r ∈ ["::instructions::Transfer".toList, "::instructions::MintTo".toList,
          "::instructions::Burn".toList], t.structPath.toList = n ++ r := by decide
    have hnames : ∀ n ∈ ["pinocchio_token".toList, "pinocchio_system".toList], IsName n ∧
        ∀ s ∈ callShapes, s.function.toList ≠ n := by decide
    have hrests : ∀ r ∈ ["::instructions::Transfer".toList, "::instructions::MintTo".toList,
        "::instructions::Burn".toList], r ≠ [] ∧ r.head?.any isWord = false := by decide
    obtain ⟨n, hn, r, hr, hpath⟩ := hpaths t ht
    obtain ⟨hname, hno⟩ := hnames n hn
    obtain ⟨hne, hword⟩ := hrests r hr
    obtain ⟨w, hw⟩ : t.structPath.toList <+: Text.concat [t.instruction accounts amount,
        ".invoke()", suffix] :=
      (prefix_append t.structPath.toList _).trans (prefix_append (t.instruction accounts amount) _)
    rw [← hw, hpath, append_assoc]
    refine ⟨by simp [hname.ne_nil], .inr ⟨n, r ++ w, rfl, hname, by simp [hne], ?_, hno⟩⟩
    rwa [head?_append_of_ne_nil _ hne]
  | signed signer seeds bump =>
    obtain ⟨w, hw⟩ := exists_invokeSigned signer seeds bump (t.instruction accounts amount) suffix
    rw [hw]
    exact ⟨cons_ne_nil _ _, .inr ⟨_, ' ' :: w, rfl, by decide, cons_ne_nil _ _, by rfl, by decide⟩⟩

theorem CallTarget.opensNoCall_replacement (ht : t ∈ callTargets) (c : Context) (body : Text)
    (call : Call) (k : Nat) : (t.lowerOrMark c body call k).replacement ≠ [] ∧
      OpensNoCall (t.lowerOrMark c body call k).replacement := by
  rw [lowerOrMark]
  cases hlower : t.lower? c body call k with
  | none => exact ⟨cons_ne_nil _ _, .inl rfl⟩
  | some lowered =>
    obtain ⟨_, _, _, _, _, _, _, _, hissues, _⟩ := lower?_cases hlower
    exact hissues.opensNoCall ht

/-! ## The edits for calls cut no call -/

section

variable {c : Context} {body : Text}

/-- A call starts with a path or with its own names, so no other call runs into it. -/
theorem opens_call (ht : t ∈ callTargets) {call : Call} (hcall : call ∈ findCalls t.head body) :
    (body.drop call.start).head?.any isWord = true ∧ ∀ s ∈ callShapes, ∀ g v, Blank g →
      body.drop call.start ≠ s.function.toList ++ (g ++ '(' :: v) := by
  have hpairs : ∀ t ∈ callTargets, IsName t.program.toList ∧ IsName t.function.toList ∧
      t.program.toList ≠ t.function.toList ∧ ∀ s ∈ callShapes, t.program.toList ≠
      s.function.toList := by decide
  obtain ⟨hprogram, hfunction, hne, hothers⟩ := hpairs t ht
  have hnames : CallNames t.program.toList t.function.toList := ⟨hprogram, hfunction, hne⟩
  obtain ⟨u, v, r, rfl, -, hr, hwith⟩ := exists_head_of_mem_findCallsWith hcall
  rw [(lt_stop_of_callWithHead? hwith).1, drop_left]
  obtain ⟨w, rest, rfl, -, hway⟩ := (mem_iff_way (bounded_head t)).1 (mem_of_mem_head? hr)
  obtain ⟨l, core, rfl, hlinks, hcore, -, -⟩ := (way_head hprogram hfunction).1 hway
  rw [append_assoc]
  constructor
  · obtain ⟨x, t', hxt, hx⟩ := head?_of_repeats hnames hcore hlinks
    rw [hxt]
    exact hx
  · intro s hs g v hg heq
    exact not_bracket_of_repeats hnames (callNames_of_mem hs).second (hothers s hs) hg hcore
      hlinks heq

theorem opens_binding {b : Binding} {name : Text} (hb : b ∈ Binding.all body name) :
    (body.drop b.start).head?.any isWord = true ∧ ∀ s ∈ callShapes, ∀ g v, Blank g →
      body.drop b.start ≠ s.function.toList ++ (g ++ '(' :: v) := by
  obtain ⟨m, hm, hbm⟩ := mem_filterMap.1 hb
  obtain ⟨u, v, n, rfl, hstart, -, hfirst⟩ := mem_matchesFrom (mem_filter.1 hm).1
  rw [length_nil, Nat.zero_add] at hstart
  rw [(Binding.ofHead?_eq_some hbm).1, hstart, drop_left]
  obtain ⟨w, rest, rfl, -, hway⟩ :=
    (mem_iff_way (Binding.bounded_head name)).1 (mem_of_mem_head? hfirst)
  obtain ⟨g', m', k, z, w', rfl, hne, hg', -⟩ := Binding.way_head hway
  refine ⟨rfl, fun s hs g v hg heq => ?_⟩
  have hlet : ∀ s ∈ callShapes, "let".toList ≠ s.function.toList := by decide
  obtain ⟨x, g', rfl⟩ := exists_cons_of_ne_nil hne
  rw [append_assoc] at heq
  refine hlet s hs (append_inj_of_class (by decide) (callNames_of_mem hs).second.word ?_
    (head?_gap hg (by decide) v) heq).1
  exact isWord_of_isBlank (hg' x mem_cons_self)

theorem cutsNoCall_callEdits (hstand : ∀ s ∈ removedSpans c body, Shut ((marked body).take s.1))
    (h : e ∈ callEdits c body) : CutsNoCall (marked body) e := by
  have hopens : (body.drop e.start).head?.any isWord = true → (∀ s ∈ callShapes, ∀ g v, Blank g →
      body.drop e.start ≠ s.function.toList ++ (g ++ '(' :: v)) →
        ClearBefore isCallChar body e.stop →
      (e.replacement = [] ∧ Shut ((marked body).take e.start) ∨ e.replacement ≠ [] ∧
        e.replacement.getLast?.any isCallChar = false ∧ OpensNoCall e.replacement) →
          CutsNoCall (marked body) e := by
    intro hword hno hstop hwrites
    have hdrop : ((marked body).drop e.start).map (·.1) = body.drop e.start := by
      rw [map_drop, map_fst_marked]
    refine ⟨cutsNoName_callEdits h, hstop.take_marked, ?_, ?_, hwrites⟩
    · rw [← head?_map_fst, hdrop, hword]
    · intro s hs g v hg
      rw [hdrop]
      exact hno s hs g v hg
  rcases mem_append.1 h with h | h
  · obtain ⟨⟨call, lowered⟩, hlowered, rfl⟩ := mem_map.1 h
    obtain ⟨t, ht, k, hcall, rfl⟩ := exists_target_of_mem_loweredCalls hlowered
    obtain ⟨hword, hno⟩ := opens_call ht hcall
    obtain ⟨hne, hopensNoCall⟩ := CallTarget.opensNoCall_replacement ht c body call k
    exact hopens hword hno (clearBefore_stop_of_mem_findCalls goesOn_isCallChar hcall)
      (.inr ⟨hne, t.getLast?_replacement goesOn_isCallChar (by decide) c body call k, hopensNoCall⟩)
  · obtain ⟨s, hs, rfl⟩ := mem_map.1 h
    have hshut := hstand s hs
    obtain ⟨b, hb, rfl⟩ := firstOfName_of_mem_removedSpans hs
    have hmem := Binding.mem_all_of_find? hb.2
    obtain ⟨hword, hno⟩ := opens_binding hmem
    exact hopens hword hno (Binding.clearBefore_stop_of_mem_all goesOn_isCallChar hmem)
      (.inl ⟨rfl, hshut⟩)

end

/-! ## The calls of the result -/

theorem locateCalls_ne_nil {t : Text} : locateCalls t ≠ [] ↔ ∃ i, CallAt (marked t) i := by
  constructor
  · intro h
    obtain ⟨⟨i, s⟩, hmem⟩ := exists_mem_of_ne_nil _ h
    exact ⟨i, exists_mem_locateCalls.1 ⟨s, hmem⟩⟩
  · rintro ⟨i, hi⟩
    obtain ⟨s, hs⟩ := exists_mem_locateCalls.2 hi
    exact ne_nil_of_mem hs

/-- **Which calls survive.** A recognised call of a body with nested brackets stays only if a path
that starts in a comment or a literal runs up to it. And where the edits leave no seam and the
removed bindings stand as statements, the result has a recognised call exactly if one stays, or one
stands in what is written for a call. -/
theorem survives_iff {c : Context} {body out : Text} (h : lowerProgramCalls c body = .ok out) :
    (Nested (lowerBalances body) → ∀ e ∈ locateCalls (lowerBalances body),
        Kept (callEdits c (lowerBalances body)) e.1 → RunsFromSealed (lowerBalances body) e.1) ∧
      (Seamless (lowerBalances body) (callEdits c (lowerBalances body)) out →
        (∀ s ∈ removedSpans c (lowerBalances body), Shut ((marked (lowerBalances body)).take s.1)) →
        (locateCalls out ≠ [] ↔
          (∃ e ∈ locateCalls (lowerBalances body), Kept (callEdits c (lowerBalances body)) e.1) ∨
            ∃ e ∈ callEdits c (lowerBalances body), locateCalls e.replacement ≠ [])) := by
  rw [lowerProgramCalls_eq] at h
  generalize lowerBalances body = body at h ⊢
  constructor
  · rintro hnested ⟨i, s⟩ hmem hkept
    exact runsFromSealed_of_kept hnested (exists_mem_locateCalls.1 ⟨s, hmem⟩) hkept
  · intro hseam hstand
    have hmem : ∀ e, e ∈ Edit.ordered (callEdits c body) ↔ e ∈ callEdits c body :=
      fun e => Edit.mem_ordered
    have hcuts : ∀ e ∈ Edit.ordered (callEdits c body), CutsNoCall (marked body) e := fun e he =>
      cutsNoCall_callEdits hstand ((hmem e).1 he)
    have hdescends : Descends (marked body).length (Edit.ordered (callEdits c body)) := by
      refine (descends_of_applyOrdered (fun e he => ?_) h).of_stop_le fun e he => ?_
      · exact (hcuts e he).start_lt_stop
      · exact (hcuts e he).stop_le
    have hstays : (∃ e ∈ locateCalls body, Kept (callEdits c body) e.1) ↔
        ∃ i, CallAt (marked body) i ∧ Kept (callEdits c body) i := by
      constructor
      · rintro ⟨⟨i, s⟩, hcall, hkept⟩
        exact ⟨i, exists_mem_locateCalls.1 ⟨s, hcall⟩, hkept⟩
      · rintro ⟨i, hi, hkept⟩
        obtain ⟨s, hs⟩ := exists_mem_locateCalls.2 hi
        exact ⟨(i, s), hs, hkept⟩
    rw [locateCalls_ne_nil, hseam, exists_spliceMarked CallAt.lt_length hdescends
      (splitsAtEdits_callAt hdescends hcuts),
      hstays]
    simp only [Kept, hmem, locateCalls_ne_nil]

/-- A transfer whose call context is bound before it: neither is left, and the result has no
recognised call. -/
theorem no_call_survives_readOnce :
    lowerProgramCalls bareContext readOnce = .ok (transferIssued "a" "b") ∧
    locateCalls readOnce ≠ [] ∧
      locateCalls (transferIssued "a" "b") = [] := by
  have hplaces : ∀ e ∈ locateCalls readOnce, e.1 < 81 := by decide +kernel
  have hnone : ∀ e ∈ [(⟨49, 81, transferIssued "a" "b"⟩ : Edit), ⟨0, 49, []⟩],
      locateCalls e.replacement = [] := by
    decide +kernel
  have hstand : ∀ s ∈ [(0, 49)], Shut ((marked readOnce).take s.1) := by decide +kernel
  refine ⟨lowerProgramCalls_readOnce, by decide +kernel, of_not_not fun hcall => ?_⟩
  have hsurvives := (survives_iff lowerProgramCalls_readOnce).2
  rw [lowerBalances_readOnce, removedSpans_readOnce] at hsurvives
  obtain ⟨e, he, hkept⟩ | ⟨e, he, hwrites⟩ := (hsurvives seamless_readOnce hstand).1 hcall
  · exact not_kept_readOnce (hplaces e he) hkept
  · rw [callEdits_readOnce] at he
    exact hwrites (hnone e he)

/-- A burn after a comment whose last characters look like the start of a path. -/
def burnAfterPath : Text := "// see x::\ntoken::burn(c, 1)?;".toList

/-- **A call survives after a comment that ends as a path does.** The path of the call is read from
inside the comment, and a call whose path starts there is passed over: it is neither lowered nor
marked. -/
theorem call_survives_after_path : Nested burnAfterPath ∧
    lowerProgramCalls bareContext burnAfterPath = .ok burnAfterPath ∧ locateCalls burnAfterPath ≠
    [] := by
  have hbalances : lowerBalances burnAfterPath = burnAfterPath := by decide +kernel
  have hcalls : (callTargets.flatMap fun t => (findCalls t.head burnAfterPath).map fun call =>
      (call, t)) = [] := by
    decide +kernel
  have hedits : callEdits bareContext burnAfterPath = [] := by
    rw [callEdits, removedSpans, loweredCalls, findTargetCalls, hcalls, List.mergeSort_nil]
    rfl
  refine ⟨by decide +kernel, ?_, by decide +kernel⟩
  rw [lowerProgramCalls_eq, hbalances, hedits, Edit.apply,
    Edit.ordered_of_pairwise List.eraseDups_nil .nil]
  rfl

end AnchorLowering.Lowering
