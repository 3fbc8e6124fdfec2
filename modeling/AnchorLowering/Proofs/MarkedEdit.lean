import AnchorLowering.Proofs.BoundContext
import AnchorLowering.Proofs.PieceEdit

/-!
# Edits and what is code

Edits cut a text into the stretches that stay and the stretches that are replaced. An edit is
*seamless* if no comment or literal forms or breaks where the parts meet: what is code in the result
is then what is code in the parts (`Seamless`). Where, besides, nothing that is looked for runs
across a cut, it stands in the result exactly where it stands in a stretch that stays, or in what an
edit writes (`exists_spliceMarked`; for names, `occurrences_apply`).
-/

namespace AnchorLowering.Source

open List Pattern

variable {p : Char → Bool} {e : Edit} {edits : List Edit} {ms : Marked} {i limit limit' n : Nat}
  {before out rest t u v : Text} {α : Type}

/-! ## Marked texts -/

theorem length_marks (ps : List (Piece Unit)) : (marks ps).length = (spell ps).length := by
  induction ps with
  | nil => rfl
  | cons p ps ih => cases p <;> simp [ih]

theorem length_codeMask (t : Text) : (codeMask t).length = t.length := by
  rw [codeMask_eq, length_marks]
  exact congrArg List.length (pieces_eq_iff.1 rfl).1

@[simp]
theorem length_marked (t : Text) : (marked t).length = t.length := by
  rw [marked, length_zip, length_codeMask, Nat.min_self]

theorem marked_ne_nil (h : t ≠ []) : marked t ≠ [] := by
  rw [← length_pos_iff, length_marked]
  exact length_pos_of_ne_nil h

@[simp]
theorem map_fst_marked (t : Text) : (marked t).map (·.1) = t := by
  rw [marked, map_fst_zip]
  exact (length_codeMask t).ge

@[simp]
theorem marked_nil : marked [] = [] := rfl

theorem getElem?_marked (t : Text) (h : i < t.length) : (marked t)[i]?.any (·.2) = inCode t i := by
  have hmask : i < (codeMask t).length := by rwa [length_codeMask]
  have hmark : (marked t)[i]? = some (t[i], (codeMask t)[i]) :=
    getElem?_zip_eq_some.2 ⟨getElem?_eq_getElem h, getElem?_eq_getElem hmask⟩
  rw [inCode, getD_eq_getElem?_getD, hmark, getElem?_eq_getElem hmask]
  rfl

theorem getElem?_marked_eq_some_iff {x : Char} :
    (marked t)[i]? = some (x, true) ↔ t[i]? = some x ∧ inCode t i = true := by
  have hchar : t[i]? = (marked t)[i]?.map (·.1) := by
    rw [← getElem?_map, map_fst_marked]
  rw [hchar]
  by_cases hi : i < t.length
  · rw [← getElem?_marked t hi, getElem?_eq_getElem (by rw [length_marked]; exact hi)]
    simp [Prod.ext_iff]
  · rw [getElem?_eq_none (by rw [length_marked]; omega)]
    simp

theorem inCode_of_marked {a b c : Marked} (h : marked t = a ++ (b ++ c)) (hb : b ≠ []) :
    inCode t a.length = b.head?.any (·.2) := by
  obtain ⟨m, b, rfl⟩ := exists_cons_of_ne_nil hb
  have hlt : a.length < t.length := by
    rw [← length_marked, h]
    simp
  rw [← getElem?_marked t hlt, h, getElem?_append_right (Nat.le_refl _), Nat.sub_self]
  rfl

/-- The character is of the class, whether it is code or not. -/
def onChar (p : Char → Bool) (m : Char × Bool) : Bool := p m.1

/-- A part of a name, whether it is code or not. -/
abbrev wordMark : Char × Bool → Bool := onChar isWord

/-! ## Names in marked texts -/

/-- The name stands at the place as a whole word, and it starts in code. -/
def WordAt (ms : Marked) (i : Nat) (name : Text) : Prop :=
  ∃ u w v, ms = u ++ (w ++ v) ∧ u.length = i ∧ w.map (·.1) = name ∧ w.head?.any (·.2) = true ∧
    u.getLast?.any wordMark = false ∧ v.head?.any wordMark = false

/-- The name stands somewhere as a whole word that starts in code. -/
def WordIn (ms : Marked) (name : Text) : Prop := ∃ i, WordAt ms i name

theorem head?_map_fst (ms : Marked) : (ms.map (·.1)).head?.any p = ms.head?.any (onChar p) := by
  cases ms <;> rfl

theorem getLast?_map_fst (ms : Marked) :
    (ms.map (·.1)).getLast?.any p = ms.getLast?.any (onChar p) := by
  rw [getLast?_map]
  cases ms.getLast? <;> rfl

section

variable {name : Text} (hname : IsName name) {a b : Marked}

include hname

/-- A whole word stands on one side of a place that no name runs into. -/
theorem wordAt_append (h : a.getLast?.any wordMark = false) :
    WordAt (a ++ b) i name ↔ WordAt a i name ∨ a.length ≤ i ∧ WordAt b (i - a.length) name := by
  -- a part of the word does not end the left side
  have hends : ∀ {u k l : Marked}, (k ++ l).map (·.1) = name → a = u ++ k → k = [] := by
    rintro u k l hw rfl
    by_contra hk
    rw [getLast?_append_of_ne_nil _ hk, getLast?_eq_some_getLast hk, Option.any_some] at h
    exact Bool.false_ne_true (h.symm.trans (hname.word _ (by
      rw [← hw]
      exact mem_map_of_mem (mem_append_left l (getLast_mem hk)))))
  constructor
  · rintro ⟨u, w, v, hsplit, rfl, hw, hcode, hu, hv⟩
    rcases append_eq_append_iff.1 hsplit with ⟨k, rfl, hb⟩ | ⟨k, rfl, hwv⟩
    · refine .inr ⟨by simp, k, w, v, hb, by simp, hw, hcode, ?_, hv⟩
      rcases eq_nil_or_concat' k with rfl | ⟨k, m, rfl⟩
      · rfl
      · simpa [← append_assoc] using hu
    · rcases append_eq_append_iff.1 hwv with ⟨l, rfl, rfl⟩ | ⟨l, rfl, rfl⟩
      · -- the word ends on the left side
        refine .inl ⟨u, w, l, rfl, rfl, hw, hcode, hu, ?_⟩
        cases l with
        | nil => rfl
        | cons m l => simpa using hv
      · obtain rfl := hends hw rfl
        exact .inr ⟨by simp, [], l, v, rfl, by simp, hw, hcode, rfl, hv⟩
  · rintro (⟨u, w, v, rfl, rfl, hw, hcode, hu, hv⟩ | ⟨hle, u, w, v, rfl, hlen, hw, hcode, hu, hv⟩)
    · refine ⟨u, w, v ++ b, by simp, rfl, hw, hcode, hu, ?_⟩
      cases v with
      | cons m v => simpa using hv
      | nil =>
        obtain rfl := hends (l := []) (by rwa [append_nil]) (by rw [append_nil])
        exact absurd hw.symm hname.ne_nil
    · refine ⟨a ++ u, w, v, by simp, by rw [length_append]; omega, hw, hcode, ?_, hv⟩
      rcases eq_nil_or_concat' u with rfl | ⟨u, m, rfl⟩
      · simpa using h
      · rw [← append_assoc]
        simpa using hu

theorem WordAt.lt_length (h : WordAt a i name) : i < a.length := by
  obtain ⟨u, w, v, rfl, rfl, rfl, -⟩ := h
  have := length_pos_of_ne_nil hname.ne_nil
  simp only [length_map] at this
  simp only [length_append]
  omega

end

/-! ## Searches -/

theorem exists_claimed_covering {claim : Claim α} (hv : v ≠ []) {a : α} (u : Text) (skip : Nat)
    (before : Text) (h : claim ⟨u.reverse ++ before, v⟩ = some (a, n + 1)) :
    u.length < skip ∨ ∃ u₁ u₂ b k w, u = u₁ ++ u₂ ∧ claim ⟨u₁.reverse ++ before, u₂ ++ v⟩ =
    some (b, k + 1) ∧
      u₂.length < k + 1 ∧ Piece.claimed b w ∈ Text.scan claim skip before (u ++ v) := by
  induction u generalizing skip before with
  | nil =>
    cases skip with
    | succ skip => exact .inl (Nat.succ_pos skip)
    | zero =>
      obtain ⟨x, v, rfl⟩ := exists_cons_of_ne_nil hv
      refine .inr ⟨[], [], a, n, x :: v.take n, rfl, h, Nat.succ_pos n, ?_⟩
      rw [nil_append, Text.scan, show claim ⟨before, x :: v⟩ = some (a, n + 1) from h]
      exact mem_cons_self
  | cons y u ih =>
    rw [reverse_cons, append_assoc, singleton_append] at h
    have hlater : ∀ {skip}, (∃ u₁ u₂ b k w, u = u₁ ++ u₂ ∧
        claim ⟨u₁.reverse ++ y :: before, u₂ ++ v⟩ = some (b, k + 1) ∧ u₂.length < k + 1 ∧
          Piece.claimed b w ∈ Text.scan claim skip (y :: before) (u ++ v)) →
        ∃ u₁ u₂ b k w, y :: u = u₁ ++ u₂ ∧ claim ⟨u₁.reverse ++ before, u₂ ++ v⟩ = some (b, k + 1) ∧
          u₂.length < k + 1 ∧ Piece.claimed b w ∈ Text.scan claim skip (y :: before) (u ++ v) := by
      rintro skip ⟨u₁, u₂, b, k, w, rfl, hclaim, hlt, hmem⟩
      exact ⟨y :: u₁, u₂, b, k, w, rfl, by simpa using hclaim, hlt, hmem⟩
    cases skip with
    | succ skip => exact (ih skip (y :: before) h).imp Nat.succ_lt_succ hlater
    | zero =>
      rw [cons_append, Text.scan]
      right
      split
      · rename_i b k hclaim
        rcases ih k (y :: before) h with hlt | hcovered
        · exact ⟨[], y :: u, b, k, _, rfl, hclaim, Nat.succ_lt_succ hlt, mem_cons_self⟩
        · obtain ⟨u₁, u₂, b', k', w, hu, hclaim', hlt, hmem⟩ := hlater hcovered
          exact ⟨u₁, u₂, b', k', w, hu, hclaim', hlt, mem_cons_of_mem _ hmem⟩
      · rcases ih 0 (y :: before) h with hlt | hcovered
        · cases hlt
        · obtain ⟨u₁, u₂, b', k', w, hu, hclaim', hlt, hmem⟩ := hlater hcovered
          exact ⟨u₁, u₂, b', k', w, hu, hclaim', hlt, mem_cons_of_mem _ hmem⟩

theorem exists_firstAt_of_way {p : Pattern α} {a : α} (h : Way p before a u rest) :
    ∃ r, p.firstAt ⟨before, u ++ rest⟩ = some r := by
  obtain ⟨r, more, hmatch⟩ := exists_cons_of_ne_nil (ne_nil_of_mem h)
  exact ⟨r, by rw [firstAt, hmatch]; rfl⟩

/-- If a pattern matches at a place, a match that a search finds covers the place. -/
theorem exists_match_covering {p : Pattern α} {a : α}
    (h : p.firstAt ⟨u.reverse, v⟩ = some (a, n + 1)) (hv : v ≠ []) :
    ∃ u₁ u₂ b k, u = u₁ ++ u₂ ∧ p.firstAt ⟨u₁.reverse, u₂ ++ v⟩ = some (b, k + 1) ∧
    u₂.length < k + 1 ∧
      ⟨u₁.length, u₁.length + (k + 1), b⟩ ∈ matchesFrom p 0 [] (u ++ v) := by
  have hclaim : p.matchAt ⟨u.reverse ++ [], v⟩ = some (⟨u.length, u.length + (n + 1), a⟩,
      n + 1) := by
    rw [matchAt, append_nil, h, Option.map_some, Cursor.position, length_reverse]
  rcases exists_claimed_covering hv u 0 [] hclaim with hlt | ⟨u₁, u₂, m, k, w, rfl, hclaim,
    hlt, hmem⟩
  · cases hlt
  · rw [append_nil, matchAt, Cursor.position, length_reverse] at hclaim
    obtain ⟨⟨b, j⟩, hfirst, heq⟩ := Option.map_eq_some_iff.1 hclaim
    obtain ⟨rfl, rfl⟩ := Prod.mk.inj heq
    exact ⟨u₁, u₂, b, k, rfl, hfirst, hlt, mem_filterMap.2 ⟨_, hmem, rfl⟩⟩

/-! ## Searching for a name -/

/-- A name as a whole word. -/
def wholeWord (name : Text) : Pattern Unit := do
  wordBoundary
  lit name
  wordBoundary

section

variable {name : Text} (hname : IsName name)

include hname

theorem way_wholeWord {e : Unit} : Way (wholeWord name) before e u rest ↔
    u = name ∧ before.head?.any isWord = false ∧ rest.head?.any isWord = false := by
  have hhead := hname.head?
  have hlast := hname.getLast?
  have hfirst : ∀ r : Text, (name ++ r).head?.any isWord = true := fun r => by
    rw [head?_append_of_ne_nil _ hname.ne_nil, hhead]
  have hend : ∀ r : Text, (name.reverse ++ r).head?.any isWord = true := fun r => by
    rw [head?_append_of_ne_nil _ (by simpa using hname.ne_nil), head?_reverse, hlast]
  simp only [wholeWord, way_bind, way_wordBoundary, way_lit]
  constructor
  · rintro ⟨-, _, _, rfl, ⟨rfl, hbefore⟩, -, _, _, rfl, rfl, rfl, hrest⟩
    rw [append_nil, hfirst] at hbefore
    rw [reverse_nil, nil_append, hend] at hrest
    exact ⟨by simp, by simpa using hbefore, by simpa using hrest⟩
  · rintro ⟨rfl, hbefore, hrest⟩
    refine ⟨(), [], u, rfl, ⟨rfl, ?_⟩, (), u, [], by simp, rfl, rfl, ?_⟩
    · rw [hfirst, hbefore]
      exact Bool.noConfusion
    · rw [reverse_nil, nil_append, hend, hrest]
      exact Bool.noConfusion

omit hname in
theorem bounded_wholeWord : Bounded (wholeWord name) :=
  Takes.wordBoundary.bind fun _ => Bounded.lit.bind fun _ => .wordBoundary

theorem firstAt_wholeWord {r : Unit × Nat} (h : (wholeWord name).firstAt ⟨before, v⟩ = some r) :
    before.head?.any isWord = false ∧ ∃ rest, v = name ++ rest ∧ r.2 = name.length ∧
    rest.head?.any isWord = false := by
  obtain ⟨u, rest, hsplit, hlen, hway⟩ := (mem_iff_way bounded_wholeWord).1 (mem_of_mem_head? h)
  obtain ⟨rfl, hbefore, hrest⟩ := (way_wholeWord hname).1 hway
  exact ⟨hbefore, rest, hsplit, hlen, hrest⟩

/-- **Whole words do not overlap**, so a search finds all of them. -/
theorem exists_mem_matchesFrom (hu : u.getLast?.any isWord = false)
    (hv : v.head?.any isWord = false) :
    ∃ m ∈ matchesFrom (wholeWord name) 0 [] (u ++ (name ++ v)), m.start = u.length := by
  have hway : Way (wholeWord name) u.reverse () name v :=
    (way_wholeWord hname).2 ⟨rfl, by rwa [head?_reverse], hv⟩
  obtain ⟨⟨a, n⟩, hfirst⟩ := exists_firstAt_of_way hway
  obtain ⟨-, rest, -, hlen, -⟩ := firstAt_wholeWord hname hfirst
  have hpos := length_pos_of_ne_nil hname.ne_nil
  obtain ⟨n, rfl⟩ : ∃ k, n = k + 1 := ⟨n - 1, by omega⟩
  obtain ⟨u₁, u₂, b, k, rfl, hcover, hlt, hmem⟩ :=
    exists_match_covering hfirst (by simp [hname.ne_nil])
  obtain ⟨-, rest', hsplit, hk, -⟩ := firstAt_wholeWord hname hcover
  refine ⟨_, hmem, ?_⟩
  -- a word that reaches over the place would go on from the character before it
  by_cases hnil : u₂ = []
  · rw [hnil, append_nil]
  · obtain ⟨l, hl⟩ : ∃ l, name = u₂ ++ l := by
      rcases append_eq_append_iff.1 hsplit with ⟨l, hl, -⟩ | ⟨l, hl, -⟩
      · exact ⟨l, hl⟩
      · have hlong := congrArg List.length hl
        rw [length_append] at hlong
        dsimp only at hk
        exact ⟨[], by rw [append_nil, hl, eq_nil_of_length_eq_zero (by omega : l.length = 0),
          append_nil]⟩
    rw [getLast?_append_of_ne_nil _ hnil, getLast?_eq_some_getLast hnil, Option.any_some,
      hname.word _ (by rw [hl]; exact mem_append_left l (getLast_mem hnil))] at hu
    cases hu

include hname in
/-- **The occurrences of a name are its whole words that start in code.** -/
theorem mem_occurrences : i ∈ Lowering.occurrences t name ↔ WordAt (marked t) i name := by
  have hoccurrences : Lowering.occurrences t name = (Source.findAll (wholeWord name) t).map
      (·.start) := rfl
  have hne {W : Marked} (hW : W.map (·.1) = name) : W ≠ [] :=
    fun hnil => hname.ne_nil (by rw [← hW, hnil]; rfl)
  rw [hoccurrences]
  constructor
  · intro h
    obtain ⟨m, hm, rfl⟩ := mem_map.1 h
    obtain ⟨hmem, hcode⟩ := mem_filter.1 hm
    obtain ⟨u, v, n, rfl, hstart, -, hfirst⟩ := mem_matchesFrom hmem
    obtain ⟨hbefore, rest, rfl, -, hrest⟩ := firstAt_wholeWord hname hfirst
    rw [length_nil, Nat.zero_add] at hstart
    rw [append_nil, head?_reverse] at hbefore
    obtain ⟨U, R, hmarked, hU, hR⟩ := map_eq_append_iff.1 (map_fst_marked (u ++ (name ++ rest)))
    obtain ⟨W, V, rfl, hW, hV⟩ := map_eq_append_iff.1 hR
    have hlen : U.length = u.length := by rw [← hU, length_map]
    refine ⟨U, W, V, hmarked, by rw [hlen, hstart], hW, ?_, ?_, ?_⟩
    · rw [hstart, ← hlen] at hcode
      exact (inCode_of_marked hmarked (hne hW)).symm.trans hcode
    · rw [← getLast?_map_fst, hU, hbefore]
    · rw [← head?_map_fst, hV, hrest]
  · rintro ⟨U, W, V, hmarked, rfl, hW, hcode, hU, hV⟩
    have ht : t = U.map (·.1) ++ (name ++ V.map (·.1)) := by
      have := congrArg (List.map (·.1)) hmarked
      rwa [map_fst_marked, map_append, map_append, hW] at this
    obtain ⟨m, hm, hstart⟩ := exists_mem_matchesFrom hname (u := U.map (·.1)) (v := V.map (·.1))
      (by rw [getLast?_map_fst, hU]) (by rw [head?_map_fst, hV])
    rw [length_map] at hstart
    rw [← ht] at hm
    refine mem_map.2 ⟨m, mem_filter.2 ⟨hm, ?_⟩, hstart⟩
    rw [hstart]
    exact (inCode_of_marked hmarked (hne hW)).trans hcode

include hname in
theorem occurrences_ne_nil : Lowering.occurrences t name ≠ [] ↔ WordIn (marked t) name := by
  constructor
  · intro h
    obtain ⟨i, hi⟩ := exists_mem_of_ne_nil _ h
    exact ⟨i, (mem_occurrences hname).1 hi⟩
  · rintro ⟨i, hi⟩
    exact ne_nil_of_mem ((mem_occurrences hname).2 hi)

end

/-! ## Edits on marked texts -/

theorem Edit.mem_ordered : e ∈ Edit.ordered edits ↔ e ∈ edits := by
  rw [Edit.ordered, mem_mergeSort, mem_eraseDups]

theorem Edit.ordered_of_pairwise (hdistinct : edits.eraseDups = edits)
    (hright : edits.Pairwise fun a b => a.rightOf b = true) : Edit.ordered edits = edits := by
  rw [Edit.ordered, hdistinct, mergeSort_of_pairwise hright]

/-- Edits from right to left, where what an edit writes is marked by itself. -/
def spliceMarked (ms : Marked) : List Edit → Marked
  | [] => ms
  | e :: edits => spliceMarked (ms.take e.start ++ (marked e.replacement ++ ms.drop e.stop)) edits

/-- The place is kept: no edit replaces it. -/
def Kept (edits : List Edit) (i : Nat) : Prop := ∀ e ∈ edits, ¬(e.start ≤ i ∧ i < e.stop)

/-- What is code in the result of edits is what is code in its parts. -/
def Seamless (t : Text) (edits : List Edit) (out : Text) : Prop :=
  marked out = spliceMarked (marked t) (Edit.ordered edits)

instance (t : Text) (edits : List Edit) (out : Text) : Decidable (Seamless t edits out) :=
  inferInstanceAs (Decidable (_ = _))

/-- Edits from right to left that do not overlap, all before the limit. -/
def Descends : Nat → List Edit → Prop
  | _, [] => True
  | limit, e :: edits => e.stop ≤ limit ∧ e.start < e.stop ∧ Descends e.start edits

theorem Descends.mono (h : Descends limit edits) (hle : limit ≤ limit') :
    Descends limit' edits := by
  cases edits with
  | nil => trivial
  | cons e edits => exact ⟨h.1.trans hle, h.2⟩

theorem Descends.stop_le (h : Descends limit edits) : ∀ e ∈ edits, e.stop ≤ limit := by
  induction edits generalizing limit with
  | nil => exact fun e he => nomatch he
  | cons d edits ih =>
    obtain ⟨hstop, hlt, hrest⟩ := h
    exact forall_mem_cons.2 ⟨hstop, fun e he => (ih hrest e he).trans (hlt.le.trans hstop)⟩

theorem Descends.of_stop_le (h : Descends limit edits)
    (hstop : ∀ e ∈ edits, e.stop ≤ limit') : Descends limit' edits := by
  cases edits with
  | nil => trivial
  | cons e edits => exact ⟨hstop e mem_cons_self, h.2⟩

/-- Edits that are applied do not overlap. -/
theorem descends_of_applyOrdered (hedits : ∀ e ∈ edits, e.start < e.stop)
    (h : Edit.applyOrdered t limit edits = .ok out) : Descends limit edits := by
  induction edits generalizing t limit with
  | nil => trivial
  | cons e edits ih =>
    rw [Edit.applyOrdered] at h
    split at h
    · cases h
    · exact ⟨by omega, hedits e mem_cons_self, ih (fun d hd => hedits d (mem_cons_of_mem e hd)) h⟩

theorem spliceMarked_append (h : Descends ms.length edits) (rest : Marked) :
    spliceMarked (ms ++ rest) edits = spliceMarked ms edits ++ rest := by
  induction edits generalizing ms with
  | nil => rfl
  | cons e edits ih =>
    obtain ⟨hstop, hlt, hrest⟩ := h
    have htake : (ms ++ rest).take e.start = ms.take e.start := take_append_of_le_length (by omega)
    have hdrop : (ms ++ rest).drop e.stop = ms.drop e.stop ++ rest := drop_append_of_le_length hstop
    have hlen : (ms.take e.start).length = e.start := length_take_of_le (by omega)
    rw [spliceMarked, spliceMarked, htake, hdrop, ← ih]
    · simp
    · refine hrest.mono ?_
      rw [length_append, hlen]
      omega

/-- The rightmost edit, the text after it, and the other edits in the text before it. -/
theorem spliceMarked_cons (h : Descends ms.length (e :: edits)) :
    spliceMarked ms (e :: edits) = spliceMarked (ms.take e.start) edits ++
    (marked e.replacement ++ ms.drop e.stop) := by
  obtain ⟨hstop, hlt, hrest⟩ := h
  have hlen : (ms.take e.start).length = e.start := length_take_of_le (by omega)
  rw [spliceMarked, spliceMarked_append (by rwa [hlen])]

/-! ## What stands in the result of edits -/

section

variable {Occ : Marked → Nat → Prop}

/-- What is looked for stands on one side of the cut. -/
def SplitsAt (Occ : Marked → Nat → Prop) (a b : Marked) : Prop :=
  ∀ i, Occ (a ++ b) i ↔ Occ a i ∨ a.length ≤ i ∧ Occ b (i - a.length)

theorem SplitsAt.exists_iff {a b : Marked} (h : SplitsAt Occ a b) :
    (∃ i, Occ (a ++ b) i) ↔ (∃ i, Occ a i) ∨ ∃ i, Occ b i := by
  constructor
  · rintro ⟨i, hi⟩
    exact ((h i).1 hi).imp (⟨i, ·⟩) fun ⟨_, hb⟩ => ⟨_, hb⟩
  · rintro (⟨i, hi⟩ | ⟨i, hi⟩)
    · exact ⟨i, (h i).2 (.inl hi)⟩
    · exact ⟨a.length + i, (h _).2 (.inr ⟨by omega, by rwa [Nat.add_sub_cancel_left]⟩)⟩

/-- What is looked for stands on one side of each cut that edits make: the edges of a stretch that
is replaced, and the edges of what replaces it. -/
def SplitsAtEdits (Occ : Marked → Nat → Prop) : Marked → List Edit → Prop
  | _, [] => True
  | ms, e :: edits =>
    SplitsAt Occ (ms.take e.start) (ms.drop e.start) ∧
    SplitsAt Occ (ms.take e.stop) (ms.drop e.stop) ∧
      SplitsAt Occ (spliceMarked (ms.take e.start) edits) (marked e.replacement ++ ms.drop e.stop) ∧
      SplitsAt Occ (marked e.replacement) (ms.drop e.stop) ∧
      SplitsAtEdits Occ (ms.take e.start) edits

/-- **What stands in the result of edits stands in a stretch that stays, or in what an edit
writes.** -/
theorem exists_spliceMarked (hlt : ∀ {ms i}, Occ ms i → i < ms.length)
    (h : Descends ms.length edits) (hsplits : SplitsAtEdits Occ ms edits) :
    (∃ i, Occ (spliceMarked ms edits) i) ↔
      (∃ i, Occ ms i ∧ Kept edits i) ∨ ∃ e ∈ edits, ∃ i, Occ (marked e.replacement) i := by
  -- the induction takes the rightmost edit off: the other edits are edits of the text before it
  induction edits generalizing ms with
  | nil => simp [spliceMarked, Kept]
  | cons e edits ih =>
    obtain ⟨hbefore, hthrough, hwritten, hafter, hrest⟩ := hsplits
    obtain ⟨hstop, hspan, hothers⟩ := h
    have hlen : (ms.take e.start).length = e.start := length_take_of_le (by omega)
    have hlenStop : (ms.take e.stop).length = e.stop := length_take_of_le hstop
    have hdescends : Descends (ms.take e.start).length edits := by rwa [hlen]
    have hstops : ∀ d ∈ edits, d.stop ≤ e.start := hothers.stop_le
    rw [SplitsAt, take_append_drop, hlen] at hbefore
    rw [SplitsAt, take_append_drop, hlenStop] at hthrough
    rw [spliceMarked_cons ⟨hstop, hspan, hothers⟩, hwritten.exists_iff,
      hafter.exists_iff, ih hdescends hrest]
    constructor
    · rintro ((⟨i, hi, houtside⟩ | ⟨d, hd, hocc⟩) | hocc | ⟨i, hi⟩)
      · have hltStart : i < e.start := by
          rw [← hlen]
          exact hlt hi
        refine .inl ⟨i, (hbefore i).2 (.inl hi), fun d hd => ?_⟩
        rcases mem_cons.1 hd with rfl | hd
        · omega
        · exact houtside d hd
      · exact .inr ⟨d, mem_cons_of_mem e hd, hocc⟩
      · exact .inr ⟨e, mem_cons_self, hocc⟩
      · refine .inl ⟨e.stop + i,
          (hthrough _).2 (.inr ⟨by omega, by rwa [Nat.add_sub_cancel_left]⟩), fun d hd => ?_⟩
        rcases mem_cons.1 hd with rfl | hd
        · omega
        · have := hstops d hd
          omega
    · rintro (⟨i, hi, houtside⟩ | ⟨d, hd, hocc⟩)
      · have hout := houtside e mem_cons_self
        rcases (hthrough i).1 hi with hleft | ⟨-, hright⟩
        · have hltStop : i < e.stop := by
            rw [← hlenStop]
            exact hlt hleft
          rcases (hbefore i).1 hi with hleft | ⟨hle, -⟩
          · exact .inl (.inl ⟨i, hleft, fun d hd => houtside d (mem_cons_of_mem e hd)⟩)
          · exact absurd ⟨hle, hltStop⟩ hout
        · exact .inr (.inr ⟨_, hright⟩)
      · rcases mem_cons.1 hd with rfl | hd
        · exact .inr (.inl hocc)
        · exact .inl (.inr ⟨d, hd, hocc⟩)

end

/-! ## Names in the result of edits -/

/-- No name runs over the edges of an edit, or ends what it writes. -/
structure CutsNoName (ms : Marked) (e : Edit) : Prop where
  start_lt_stop : e.start < e.stop
  stop_le : e.stop ≤ ms.length
  before : (ms.take e.start).getLast?.any wordMark = false
  through : (ms.take e.stop).getLast?.any wordMark = false
  written : (marked e.replacement).getLast?.any wordMark = false

theorem CutsNoName.take {k : Nat} (h : CutsNoName ms e) (hstop : e.stop ≤ k)
    (hk : k ≤ ms.length) : CutsNoName (ms.take k) e where
  start_lt_stop := h.start_lt_stop
  stop_le := by rwa [length_take_of_le hk]
  before := by rw [take_take, Nat.min_eq_left (h.start_lt_stop.le.trans hstop), h.before]
  through := by rw [take_take, Nat.min_eq_left hstop, h.through]
  written := h.written

theorem getLast?_append_any {f : α → Bool} {a b : List α} (ha : a.getLast?.any f = false)
    (hb : b.getLast?.any f = false) : (a ++ b).getLast?.any f = false := by
  rw [getLast?_append]
  cases hlast : b.getLast? with
  | none => exact ha
  | some x =>
    rw [hlast] at hb
    exact hb

/-- Edits that cut no name leave no name at the end where there was none. -/
theorem getLast?_spliceMarked (h : Descends ms.length edits) (hcuts : ∀ e ∈ edits, CutsNoName ms e)
    (hlast : ms.getLast?.any wordMark = false) :
    (spliceMarked ms edits).getLast?.any wordMark = false := by
  induction edits generalizing ms with
  | nil => exact hlast
  | cons e edits ih =>
    have hcut := hcuts e mem_cons_self
    have hstart : e.start ≤ ms.length := hcut.start_lt_stop.le.trans hcut.stop_le
    rw [spliceMarked_cons h]
    refine getLast?_append_any (ih ?_ ?_ hcut.before) (getLast?_append_any hcut.written ?_)
    · rw [length_take_of_le hstart]
      exact h.2.2
    · intro d hd
      exact (hcuts d (mem_cons_of_mem e hd)).take (h.2.2.stop_le d hd) hstart
    · rw [getLast?_drop]
      split
      · rfl
      · exact hlast

section

variable {name : Text} (hname : IsName name)

include hname

theorem splitsAtEdits_word (h : Descends ms.length edits)
    (hcuts : ∀ e ∈ edits, CutsNoName ms e) : SplitsAtEdits (WordAt · · name) ms edits := by
  induction edits generalizing ms with
  | nil => trivial
  | cons e edits ih =>
    have hcut := hcuts e mem_cons_self
    have hstart : e.start ≤ ms.length := hcut.start_lt_stop.le.trans hcut.stop_le
    have hdescends : Descends (ms.take e.start).length edits := by
      rw [length_take_of_le hstart]
      exact h.2.2
    have hcuts' : ∀ d ∈ edits, CutsNoName (ms.take e.start) d := fun d hd =>
      (hcuts d (mem_cons_of_mem e hd)).take (h.2.2.stop_le d hd) hstart
    exact ⟨fun _ => wordAt_append hname hcut.before, fun _ => wordAt_append hname hcut.through,
      fun _ => wordAt_append hname (getLast?_spliceMarked hdescends hcuts' hcut.before),
      fun _ => wordAt_append hname hcut.written, ih hdescends hcuts'⟩

/-- **The code of an edited text has the names of what stays and of what is written.** -/
theorem occurrences_apply (h : Edit.apply t edits = .ok out)
    (hcuts : ∀ e ∈ edits, CutsNoName (marked t) e)
    (hseam : Seamless t edits out) :
    Lowering.occurrences out name ≠ [] ↔ (∃ i ∈ Lowering.occurrences t name, Kept edits i) ∨
        ∃ e ∈ edits, Lowering.occurrences e.replacement name ≠ [] := by
  have hmem : ∀ e, e ∈ Edit.ordered edits ↔ e ∈ edits := fun e => Edit.mem_ordered
  have hdescends : Descends (marked t).length (Edit.ordered edits) := by
    refine (descends_of_applyOrdered (fun e he => ?_) h).of_stop_le fun e he => ?_
    · exact (hcuts e ((hmem e).1 he)).start_lt_stop
    · exact (hcuts e ((hmem e).1 he)).stop_le
  have hsplits := splitsAtEdits_word hname hdescends fun e he => hcuts e ((hmem e).1 he)
  rw [occurrences_ne_nil hname, hseam, WordIn,
    exists_spliceMarked (fun h => h.lt_length hname) hdescends hsplits]
  simp only [Kept, hmem, mem_occurrences hname, occurrences_ne_nil hname, WordIn]

end

end AnchorLowering.Source
