import AnchorLowering.Proofs.NestedAssertion

/-!
# Reading markers back

A marker is written by replacing and cutting text, and read by a pattern that takes as little as it
can. The two fit: a marker is one comment (`segments_render`), and the issues of a text of markers,
with anything but comment marks between them, are those of its markers in order (`values_markers`).
What is read from a marker is written as the same marker again.
-/

namespace AnchorLowering.Source.Marker

open List Lowering Pattern

theorem segments_render {step : Text} (hstep : IsName step) (fragment : Text) :
    segments (render step fragment) = [⟨false, render step fragment⟩] := by
  obtain ⟨inner, hrender, hinner⟩ := exists_comment_render hstep fragment
  rw [hrender, segments, pieces_comment hinner]
  rfl

theorem not_infix_of_noPair {a b : Char} {t : Text} (h : NoPair a b t) : ¬ [a, b] <:+: t :=
  fun hin => by
  have hchain := IsChain.infix h hin
  exact (isChain_cons_cons.1 hchain).1 ⟨rfl, rfl⟩

theorem matchesFrom_of_no_slash {u : Text} (hu : '/' ∉ u) (before rest : Text) :
    matchesFrom pattern 0 before (u ++ rest) = matchesFrom pattern 0 (u.reverse ++ before)
      rest := by
  refine matchesFrom_append fun v w hvw hne => ?_
  obtain ⟨x, w, rfl⟩ := exists_cons_of_ne_nil hne
  have hx : x ≠ '/' := by
    rintro rfl
    exact hu (by simp [hvw])
  have hlit : lit "/* UNRESOLVED(" ⟨v.reverse ++ before, x :: w ++ rest⟩ = [] := if_neg fun h => by
    obtain ⟨r, hr⟩ := isPrefixOf_iff_prefix.1 h
    exact hx (cons.inj hr).1.symm
  rw [pattern, bind_apply, hlit]
  rfl

/-- The issues that are read from markers with separators after them, whatever stands before. -/
theorem values_markers {entries : List (Issue × Text)}
    (h : ∀ e ∈ entries, IsName e.1.step ∧ '/' ∉ e.2) (before : Text) :
    (matchesFrom pattern 0 before (entries.flatMap fun e => render e.1.step e.1.fragment ++
      e.2)).map (·.value) =
      entries.map fun e => ⟨e.1.step, quote e.1.fragment⟩ := by
  induction entries generalizing before with
  | nil => rfl
  | cons e entries ih =>
    obtain ⟨⟨hstep, hsep⟩, hentries⟩ := forall_mem_cons.1 h
    rw [flatMap_cons, append_assoc, (prefers_pattern hstep _ _ _).matchesFrom_eq
      (render_ne_nil _ _),
      matchesFrom_of_no_slash hsep, map_cons, ih hentries, map_cons]

/-- **Markers are inert and are read back.** A marker is one sealed region. One issue is read from
it, whose fragment is short and without comment marks, and which is written as the same marker.
Where markers stand in a text with separators that have no part of a comment mark, the issues of the
text are those of the markers, in order. -/
theorem markers_read_back :
    (∀ step fragment, IsName step →
      segments (render step fragment) = [⟨false, render step fragment⟩] ∧
      ∃ t, collect (render step fragment) = [⟨step, t⟩] ∧ t.length ≤ 96 ∧ ¬ "*/".toList <:+: t ∧
        ¬ "/*".toList <:+: t ∧ render step t = render step fragment) ∧
    ∀ (lead : Text) (entries : List (Issue × Text)), ('/' ∉ lead ∧ '*' ∉ lead) →
      (∀ e ∈ entries, IsName e.1.step ∧ '/' ∉ e.2 ∧ '*' ∉ e.2) →
      collect (lead ++ entries.flatMap fun e => render e.1.step e.1.fragment ++ e.2) =
        entries.flatMap fun e => collect (render e.1.step e.1.fragment) := by
  refine ⟨fun step fragment hstep => ?_, fun lead entries hlead hentries => ?_⟩
  · have hquoted := quoted_quote fragment
    exact ⟨segments_render hstep fragment, quote fragment, collect_render hstep fragment,
      length_quote fragment,
      not_infix_of_noPair hquoted.noClose, not_infix_of_noPair hquoted.noOpen,
      by rw [render_eq, render_eq, quote_quote]⟩
  · have hread : collect (lead ++ entries.flatMap fun e => render e.1.step e.1.fragment ++ e.2) =
        entries.map fun e => ⟨e.1.step, quote e.1.fragment⟩ := by
      rw [collect, findAll_eq_matchesFrom, matchesFrom_of_no_slash hlead.1]
      exact values_markers (fun e he => ⟨(hentries e he).1, (hentries e he).2.1⟩) _
    rw [hread, map_eq_flatMap]
    exact flatMap_congr fun e he => (collect_render (hentries e he).1 _).symm

/-- A fragment with overlapping comment marks, a quote and a line break, and a second marker right
after the first. -/
theorem markers_read_back_overlapping :
    let entries : List (Issue × Text) := [(⟨"cpi", "a */*/\n\"b"⟩, ""), (⟨"pda", "/* c"⟩, ";")]
    segments (render "cpi" "a */*/\n\"b") = [⟨false, render "cpi" "a */*/\n\"b"⟩] ∧
      collect (" x".toList ++ entries.flatMap fun e => render e.1.step e.1.fragment ++ e.2) =
        entries.flatMap fun e => collect (render e.1.step e.1.fragment) :=
  ⟨(markers_read_back.1 _ _ (by decide)).1, markers_read_back.2 _ _ (by decide) (by decide)⟩

end AnchorLowering.Source.Marker
