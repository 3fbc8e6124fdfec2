import AnchorLowering.Proofs.OperationRun
import AnchorLowering.Proofs.RecognisedCall

/-!
# The calls among the facts of a program

The calls of a body are searched shape by shape, and what the searches find is sorted. No call
overlaps another one of its shape, also where that one stands in a comment, so each search finds all
calls of its shape that stand in code. And no two shapes match at one place, so each place has one
call.

Main result: `calls_complete`.
-/

namespace AnchorLowering.Facts

open List Pattern Source Lowering

variable {s s' : CallShape} {t : Text} {i : Nat}

/-- The place is in code, and the call matches there. -/
def CallShape.StandsAt (s : CallShape) (t : Text) (i : Nat) : Prop :=
  inCode t i = true ∧ s.pattern ⟨(t.take i).reverse, t.drop i⟩ ≠ []

theorem CallShape.StandsAt.exists_shape (hs : s ∈ callShapes) (h : s.StandsAt t i) :
    (t.take i).getLast?.any isWord = false ∧
      ∃ w r, t.drop i = w ++ r ∧ IsShape s.program.toList s.function.toList w := by
  obtain ⟨⟨a, n⟩, hmem⟩ := exists_mem_of_ne_nil _ h.2
  obtain ⟨w, r, hdrop, -, hway⟩ := (mem_iff_way (bounded_callPattern s)).1 hmem
  obtain ⟨hbefore, hshape⟩ := (way_callPattern (callNames_of_mem hs).first).1 hway
  exact ⟨by rwa [← head?_reverse], w, r, hdrop, hshape⟩

/-- **A search finds the calls that stand in code.** -/
theorem mem_locateCalls_iff : (i, s) ∈ locateCalls t ↔ s ∈ callShapes ∧ s.StandsAt t i := by
  rw [mem_locateCalls]
  refine and_congr_right fun hs => ⟨?_, fun h => ?_⟩
  · rintro ⟨m, hm, rfl⟩
    obtain ⟨hmem, hcode⟩ := mem_filter.1 hm
    obtain ⟨u, v, n, rfl, hstart, -, hfirst⟩ := mem_matchesFrom hmem
    rw [length_nil, Nat.zero_add] at hstart
    rw [append_nil] at hfirst
    refine ⟨hcode, ?_⟩
    rw [hstart, take_left, drop_left]
    exact ne_nil_of_mem (mem_of_mem_head? hfirst)
  · obtain ⟨hbefore, w, r, hdrop, hshape⟩ := h.exists_shape hs
    have hi : i < t.length := by
      obtain ⟨_, _, -, -, rfl⟩ := hshape
      have := congrArg List.length hdrop
      simp only [length_drop, length_append, length_singleton] at this
      omega
    obtain ⟨m, hm, hstart⟩ := exists_mem_matchesFrom_call hs (v := r) hbefore hshape
    rw [← hdrop, take_append_drop] at hm
    rw [length_take_of_le hi.le] at hstart
    exact ⟨m, mem_filter.2 ⟨hm, by rw [hstart]; exact h.1⟩, hstart⟩

theorem names_eq_of_shapes {program function program' function' w w' r r' : Text}
    (hnames : CallNames program function)
    (hnames' : CallNames program' function') (h : IsShape program function w)
    (h' : IsShape program' function' w')
    (heq : w ++ r = w' ++ r') : program = program' ∧ function = function' := by
  obtain ⟨_, k, ⟨g, l, hg, hl, rfl⟩, hk, rfl⟩ := h
  obtain ⟨_, k', ⟨g', l', hg', hl', rfl⟩, hk', rfl⟩ := h'
  have hcolon : ∀ {g : Text} (t : Text), Blank g → (g ++ ("::".toList ++ t)).head?.any isWord =
      false :=
    fun t hg => head?_gap hg (by decide) _
  have hopen : ∀ {g : Text} (t : Text), Blank g → (g ++ (['('] ++ t)).head?.any isWord = false :=
    fun t hg => head?_gap hg (by decide) _
  simp only [append_assoc] at heq
  obtain ⟨hprogram, hmarks⟩ :=
    append_inj_of_class hnames.first.word hnames'.first.word (hcolon _ hg) (hcolon _ hg') heq
  obtain ⟨-, hpath⟩ := append_inj_of_class hg hg' rfl rfl hmarks
  obtain ⟨-, hlast⟩ := append_inj_of_class hl hl' (isName_head?_blank hnames.second _)
    (isName_head?_blank hnames'.second _)
    (append_cancel_left hpath)
  exact ⟨hprogram, (append_inj_of_class hnames.second.word hnames'.second.word (hopen _ hk)
    (hopen _ hk') hlast).1⟩

theorem pairwise_locateCalls (t : Text) : (locateCalls t).Pairwise fun a b => a.1 < b.1 := by
  have hle : (locateCalls t).Pairwise fun a b => a.1 ≤ b.1 := by
    refine (pairwise_mergeSort (fun a b c hab hbc => ?_) (fun a b => ?_) _).imp of_decide_eq_true
    · exact decide_eq_true (Nat.le_trans (of_decide_eq_true hab) (of_decide_eq_true hbc))
    · simpa using Nat.le_total a.1 b.1
  have hshapes : callShapes.Pairwise fun s s' =>
      ¬ (s.program.toList = s'.program.toList ∧ s.function.toList = s'.function.toList) := by decide
  have hne : (locateCalls t).Pairwise fun a b => a.1 ≠ b.1 := by
    refine ((mergeSort_perm _ _).pairwise_iff fun h => h.symm).2
      (pairwise_flatMap.2 ⟨fun s _ => ?_, ?_⟩)
    · refine pairwise_map.2 ((pairwise_findAll s.pattern t).imp_of_mem fun hm _ hlt => ?_)
      obtain ⟨u, v, n, -, -, hstop, -⟩ := mem_matchesFrom (mem_of_mem_filter hm)
      dsimp only
      omega
    · refine hshapes.imp_of_mem fun {s s'} hs hs' hdiffer a ha b hb heq => ?_
      obtain ⟨m, hm, rfl⟩ := mem_map.1 ha
      obtain ⟨m', hm', rfl⟩ := mem_map.1 hb
      obtain ⟨-, w, r, hdrop, hshape⟩ :=
        (mem_locateCalls_iff.1 (mem_locateCalls.2 ⟨hs, m, hm, rfl⟩)).2.exists_shape hs
      obtain ⟨-, w', r', hdrop', hshape'⟩ :=
        (mem_locateCalls_iff.1 (mem_locateCalls.2 ⟨hs', m', hm', rfl⟩)).2.exists_shape hs'
      rw [show m.start = m'.start from heq, hdrop'] at hdrop
      exact hdiffer (names_eq_of_shapes (callNames_of_mem hs) (callNames_of_mem hs') hshape hshape'
        hdrop.symm)
  exact hle.imp₂ (fun _ _ h h' => Nat.lt_of_le_of_ne h h') hne

/-- **The facts list every call once, in the order of the bodies.** For each instruction there is
one list of places and shapes: the places are increasing, and they are those in code at which a
shape matches, with that shape. The calls among the facts of a program are the calls of these lists,
instruction by instruction. -/
theorem calls_complete (p : Program) : ∃ found : Instruction → List (Nat × CallShape),
    (analyze p).calls = (p.instructions.flatMap fun ix => (found ix).map fun e =>
      ⟨ix.name, e.2.targetProgram, e.2.address, e.2.operation, e.2.roles.map String.toList⟩) ∧
    ∀ ix, ((found ix).Pairwise fun a b => a.1 < b.1) ∧
      ∀ i s, (i, s) ∈ found ix ↔ s ∈ callShapes ∧ s.StandsAt ix.bodyText i :=
  ⟨fun ix => locateCalls ix.bodyText, rfl,
    fun _ => ⟨pairwise_locateCalls _, fun _ _ => mem_locateCalls_iff⟩⟩

-- The call in the comment is none, the one after it is found at its place.
example : (locateCalls "// token::burn(a)\ntoken :: mint_to(c, 1)?;").map
    (fun e => (e.1, e.2.program, e.2.function)) = [(18, "token", "mint_to")] := by decide +kernel

end AnchorLowering.Facts
