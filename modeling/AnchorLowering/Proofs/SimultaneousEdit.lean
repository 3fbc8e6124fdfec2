import AnchorLowering.Proofs.MarkedEdit

/-!
# Edits made at once

Edits are applied one by one, from right to left, and only neighbours are compared for overlap.

**Theorem (`apply_simultaneous`).** Let every edit replace at least one character of the text. The
edits are refused iff two different ones meet. Otherwise the result is the text with all edits made
at once: each place of the text is written by itself, whatever stands elsewhere (`madeAtOnce`).
Neither depends on the order of the edits, or on how often one is given.

Comparing neighbours is enough because the edits come sorted: one that stays left of its right
neighbour stays left of all edits further right (`descends_iff`). Making one edit after the other is
making them at once because an edit only moves what lies right of it, and no later edit looks there
(`applyOrdered_of_descends`).
-/

namespace AnchorLowering.Source.Edit

open List

variable {e : Edit} {limit place : Nat} {edits edits' : List Edit} {t out : Text}

/-- The two edits replace a common character. -/
def Meets (a b : Edit) : Prop := a.start < b.stop ∧ b.start < a.stop

instance (a b : Edit) : Decidable (Meets a b) := inferInstanceAs (Decidable (_ ∧ _))

/-- What is written for the character at a place: the replacement of an edit that starts there, and
the character itself unless an edit replaces it. -/
def writtenAt (edits : List Edit) (place : Nat) (x : Char) : Text :=
  (edits.find? (·.start == place)).elim [] replacement ++
    if edits.any fun e => e.start ≤ place && place < e.stop then [] else [x]

/-- The text with all edits made at once, its first character at `place`. -/
def madeAtOnce (edits : List Edit) (place : Nat) (t : Text) : Text :=
  (t.zipIdx place).flatMap fun p => writtenAt edits p.2 p.1

/-- A stretch of the text has become `new`: around it stands what the edits make of the text around
it. -/
def Becomes (edits : List Edit) (t : Text) (start stop : Nat) (new out : Text) : Prop :=
  out = madeAtOnce edits 0 (t.take start) ++ (new ++ madeAtOnce edits stop (t.drop stop))

theorem Becomes.isInfix {start stop : Nat} {new : Text} (h : Becomes edits t start stop new out) :
    new <:+: out :=
  ⟨_, _, (append_assoc ..).trans h.symm⟩

theorem madeAtOnce_append (edits : List Edit) (place : Nat) (t u : Text) :
    madeAtOnce edits place (t ++ u) = madeAtOnce edits place t ++ madeAtOnce edits
      (place + t.length) u := by
  simp only [madeAtOnce, zipIdx_append, flatMap_append]

theorem madeAtOnce_congr (h : ∀ i x, place ≤ i → i < place + t.length → writtenAt edits i x =
    writtenAt edits' i x) :
    madeAtOnce edits place t = madeAtOnce edits' place t :=
  flatMap_congr fun p hp => h p.2 p.1 (le_snd_of_mem_zipIdx hp) (snd_lt_add_of_mem_zipIdx hp)

theorem madeAtOnce_of_outside {edits : List Edit} {t : Text}
    (h : ∀ e ∈ edits, e.start < e.stop ∧ (e.stop ≤ place ∨ place + t.length ≤ e.start)) :
    madeAtOnce edits place t = t := by
  have hnone : madeAtOnce edits place t = madeAtOnce [] place t :=
    madeAtOnce_congr fun i x hi _ => by grind [writtenAt]
  rw [hnone]
  simp [madeAtOnce, writtenAt, ← map_eq_flatMap]

/-! ## From right to left -/

/-- Edits go down from the limit iff each does by itself and each stays left of all before it. -/
theorem descends_iff : Descends limit edits ↔
    (∀ e ∈ edits, e.start < e.stop ∧ e.stop ≤ limit) ∧ edits.Pairwise fun a b => b.stop ≤
    a.start := by
  induction edits generalizing limit with
  | nil => simp [Descends]
  | cons e edits ih =>
    rw [Descends, ih, forall_mem_cons, pairwise_cons]
    grind

/-- The rightmost edit of all: what stands before it is left to the others, and what stands after it
stays. -/
theorem madeAtOnce_cons (h : Descends t.length (e :: edits)) :
    madeAtOnce (e :: edits) 0 t = madeAtOnce edits 0 (t.take e.start) ++
    (e.replacement ++ t.drop e.stop) := by
  obtain ⟨hstop, hlt, hrest⟩ := h
  have hedits := (descends_iff.1 hrest).1
  obtain ⟨a, x, m, b, rfl, ha, hm⟩ : ∃ a x m b, t = a ++ (x :: m ++ b) ∧ a.length = e.start ∧
      e.start + (x :: m).length = e.stop := by
    refine ⟨t.take e.start, t[e.start], (t.drop (e.start + 1)).take (e.stop - (e.start + 1)),
      t.drop e.stop, ?_, ?_, ?_⟩
    · have hstart : t.drop e.stop = (t.drop (e.start + 1)).drop (e.stop - (e.start + 1)) := by
        rw [drop_drop, Nat.add_sub_cancel' hlt]
      rw [hstart, cons_append, take_append_drop, ← drop_eq_getElem_cons, take_append_drop]
    · rw [length_take]; omega
    · rw [length_cons, length_take, length_drop]; omega
  have hbefore : madeAtOnce (e :: edits) 0 a = madeAtOnce edits 0 a :=
    madeAtOnce_congr fun i y _ hi => by grind [writtenAt]
  have hreplaced : madeAtOnce (e :: edits) e.start (x :: m) = e.replacement := by
    have hfirst : writtenAt (e :: edits) e.start x = e.replacement := by simp [writtenAt, hlt]
    have hinside : madeAtOnce (e :: edits) (e.start + 1) m = [] := by
      refine flatMap_eq_nil_iff.2 fun p hp => ?_
      have hle := le_snd_of_mem_zipIdx hp
      have hlt := snd_lt_add_of_mem_zipIdx hp
      grind [writtenAt]
    rw [← append_nil e.replacement, ← hfirst, ← hinside]
    rfl
  have hafter : madeAtOnce (e :: edits) e.stop b = b := madeAtOnce_of_outside (by grind)
  have hrest : (a ++ (x :: m ++ b)).drop e.stop = b := by
    rw [← append_assoc, ← hm, ← ha, ← length_append, drop_left]
  rw [madeAtOnce_append, hbefore, Nat.zero_add, ha, madeAtOnce_append, hm, hreplaced, hafter,
    hrest, ← ha, take_left]

theorem applyOrdered_of_descends (h : Descends t.length edits)
    (hlimit : ∀ e ∈ edits, e.stop ≤ limit) :
    applyOrdered t limit edits = .ok (madeAtOnce edits 0 t) := by
  induction edits generalizing t limit with
  | nil => rw [applyOrdered, madeAtOnce_of_outside (forall_mem_nil _)]
  | cons e edits ih =>
    obtain ⟨hstop, hlt, hrest⟩ := h
    have hlen : (t.take e.start).length = e.start := by rw [length_take]; omega
    have hspliced : t.splice e.start e.stop e.replacement =
        t.take e.start ++ (e.replacement ++ t.drop e.stop) :=
      append_assoc ..
    have hdescends : Descends (t.splice e.start e.stop e.replacement).length edits :=
      hrest.mono (by rw [hspliced, length_append, hlen]; omega)
    have hkept := @madeAtOnce_of_outside e.start edits (e.replacement ++ t.drop e.stop)
      fun e' he' =>
      ((descends_iff.1 hrest).1 e' he').imp_right .inl
    rw [applyOrdered, if_neg (hlimit e mem_cons_self).not_gt, ih hdescends hrest.stop_le,
      madeAtOnce_cons ⟨hstop, hlt, hrest⟩, hspliced, madeAtOnce_append, hlen, Nat.zero_add, hkept]

/-! ## The order of the edits -/

theorem rightOf_iff {a b : Edit} :
    a.rightOf b = true ↔ b.start < a.start ∨ a.start = b.start ∧ b.stop ≤ a.stop := by
  simp only [rightOf, Bool.or_eq_true, Bool.and_eq_true, decide_eq_true_eq, beq_iff_eq]

theorem nodup_eraseDups : (edits : List Edit) → edits.eraseDups.Nodup
  | [] => by simp
  | e :: edits => by
    have hlt : (edits.filter fun d => !d == e).length < edits.length + 1 :=
      Nat.lt_succ_of_le (length_filter_le ..)
    rw [eraseDups_cons]
    exact nodup_cons.2 ⟨by simp [mem_eraseDups], nodup_eraseDups _⟩
termination_by edits => edits.length

theorem nodup_ordered (edits : List Edit) : (ordered edits).Nodup :=
  (mergeSort_perm ..).nodup_iff.2 (nodup_eraseDups edits)

theorem pairwise_ordered (edits : List Edit) :
    (ordered edits).Pairwise fun a b => a.rightOf b = true :=
  pairwise_mergeSort (fun a b c hab hbc => by rw [rightOf_iff] at *; omega)
    (fun a b => by rw [Bool.or_eq_true, rightOf_iff, rightOf_iff]; omega) _

/-- The span of an edit. -/
def span (e : Edit) : Nat × Nat := (e.start, e.stop)

/-- The same edits, in whatever order and number they are given, have the same spans in order. -/
theorem map_span_ordered (h : ∀ e, e ∈ edits' ↔ e ∈ edits) :
    (ordered edits').map span = (ordered edits).map span := by
  have hperm : (ordered edits').Perm (ordered edits) :=
    (perm_ext_iff_of_nodup (nodup_ordered _) (nodup_ordered _)).2 fun e => by
      rw [mem_ordered, mem_ordered, h]
  have hsorted (edits : List Edit) : ((ordered edits).map span).Pairwise fun s s' =>
      s'.1 < s.1 ∨ s.1 = s'.1 ∧ s'.2 ≤ s.2 :=
    pairwise_map.2 ((pairwise_ordered edits).imp fun hright => rightOf_iff.1 hright)
  refine (hperm.map span).eq_of_pairwise (fun s s' _ _ hle hge => Prod.ext ?_ ?_) (hsorted _)
    (hsorted _) <;> omega

theorem applyOrdered_error_congr {t' : Text} (h : edits.map span = edits'.map span)
    {o : Overlap} (herror : applyOrdered t limit edits = .error o) :
    applyOrdered t' limit edits' = .error o := by
  induction edits generalizing t t' limit edits' with
  | nil => cases herror
  | cons e edits ih =>
    obtain ⟨e', edits', rfl, hspan, hrest⟩ := map_eq_cons_iff.1 h.symm
    obtain ⟨hstart, hstop⟩ := Prod.mk.inj hspan
    rw [applyOrdered] at herror ⊢
    rw [hstart, hstop]
    split
    · rwa [if_pos ‹_›] at herror
    · rw [if_neg ‹_›] at herror
      exact ih hrest.symm herror

/-! ## Edits that meet -/

/-- No two different edits meet. -/
def Apart (edits : List Edit) : Prop := ∀ e ∈ edits, ∀ e' ∈ edits, e ≠ e' → ¬ Meets e e'

instance (edits : List Edit) : Decidable (Apart edits) :=
  inferInstanceAs (Decidable (∀ e ∈ edits, ∀ e' ∈ edits, e ≠ e' → ¬ Meets e e'))

section

variable {t : Text} {edits : List Edit} (hspans : ∀ e ∈ edits, e.start < e.stop ∧ e.stop ≤ t.length)

include hspans

theorem apart_of_apply (h : apply t edits = .ok out) : Apart edits := by
  intro e he e' he' hne
  have hdescends := descends_of_applyOrdered (fun e he => (hspans e (mem_ordered.1 he)).1) h
  have hpairs : (ordered edits).Pairwise fun a b => ¬ Meets a b ∧ ¬ Meets b a :=
    (descends_iff.1 hdescends).2.imp fun hle => by simp only [Meets]; omega
  have : Std.Symm fun a b : Edit => ¬ Meets a b ∧ ¬ Meets b a := ⟨fun _ _ h => h.symm⟩
  exact (hpairs.forall (mem_ordered.2 he) (mem_ordered.2 he') hne).1

/-- In order, an edit that does not meet its right neighbour stops before it. -/
theorem Apart.descends_ordered (h : Apart edits) : Descends t.length (ordered edits) := by
  refine descends_iff.2 ⟨fun e he => hspans e (mem_ordered.1 he), ?_⟩
  refine ((pairwise_ordered edits).and (nodup_ordered edits)).imp_of_mem fun {a b} ha hb ⟨hright,
    hne⟩ => ?_
  have hmeets := h a (mem_ordered.1 ha) b (mem_ordered.1 hb) hne
  have hlt := hspans a (mem_ordered.1 ha)
  rw [rightOf_iff] at hright
  rw [Meets] at hmeets
  have hlt' := hspans b (mem_ordered.1 hb)
  omega

/-- Of edits that do not meet, one at most starts at a place. -/
theorem Apart.find?_start (h : Apart edits) :
    edits.find? (·.start == place) = some e ↔ e ∈ edits ∧ e.start = place := by
  have hfound {e : Edit} (he : edits.find? (·.start == place) = some e) : e ∈ edits ∧
      e.start = place :=
    ⟨mem_of_find?_eq_some he, by simpa using find?_some he⟩
  refine ⟨hfound, fun ⟨he, hstart⟩ => ?_⟩
  obtain ⟨d, hd⟩ := Option.isSome_iff_exists.1
    (find?_isSome.2 ⟨e, he, by simp [hstart]⟩ : (edits.find? (·.start == place)).isSome = true)
  by_cases hne : d = e
  · rw [hd, hne]
  · have hmeets := h d (hfound hd).1 e he hne
    have hltd := hspans d (hfound hd).1
    have hlte := hspans e he
    have hstart' := (hfound hd).2
    rw [Meets] at hmeets
    omega

theorem Apart.madeAtOnce_congr (h : Apart edits) (hmem : ∀ e, e ∈ edits' ↔ e ∈ edits) :
    madeAtOnce edits' 0 t = madeAtOnce edits 0 t := by
  have h' : Apart edits' := fun e he e' he' => h e ((hmem e).1 he) e' ((hmem e').1 he')
  refine Edit.madeAtOnce_congr fun i x _ _ => ?_
  have hstart : edits'.find? (·.start == i) = edits.find? (·.start == i) :=
    Option.ext fun e => by
      rw [h.find?_start hspans, h'.find?_start fun e he => hspans e ((hmem e).1 he), hmem]
  have hcover : (edits'.any fun e => e.start ≤ i && i < e.stop) =
      edits.any fun e => e.start ≤ i && i < e.stop := by
    rw [Bool.eq_iff_iff, any_eq_true, any_eq_true]
    simp only [hmem]
  rw [writtenAt, writtenAt, hstart, hcover]

theorem Apart.apply_eq (h : Apart edits) : apply t edits = .ok (madeAtOnce edits 0 t) := by
  have hlimit : ∀ e ∈ ordered edits, e.stop ≤ t.length + 1 := fun e he => by
    have := hspans e (mem_ordered.1 he); omega
  rw [apply, applyOrdered_of_descends (h.descends_ordered hspans) hlimit,
    h.madeAtOnce_congr hspans fun _ => mem_ordered]

theorem Apart.madeAtOnce_replaced (h : Apart edits) (he : e ∈ edits) :
    madeAtOnce edits e.start (t.slice e.start e.stop) = e.replacement := by
  obtain ⟨hlt, hstop⟩ := hspans e he
  have hlength : (t.slice e.start e.stop).length = e.stop - e.start := by
    rw [Text.slice, length_drop, length_take]
    omega
  obtain ⟨x, m, hm⟩ := exists_cons_of_ne_nil (l := t.slice e.start e.stop)
    (ne_nil_of_length_pos (by omega))
  rw [hm, length_cons] at hlength
  have hfirst : writtenAt edits e.start x = e.replacement := by
    rw [writtenAt, (h.find?_start hspans).2 ⟨he, rfl⟩,
      if_pos (any_eq_true.2 ⟨e, he, by simp [hlt]⟩)]
    exact append_nil _
  have hinside : madeAtOnce edits (e.start + 1) m = [] := by
    refine flatMap_eq_nil_iff.2 fun p hp => ?_
    have hle := le_snd_of_mem_zipIdx hp
    have hlt' := snd_lt_add_of_mem_zipIdx hp
    have hnone : edits.find? (·.start == p.2) = none := by
      refine find?_eq_none.2 fun d hd hstart => ?_
      have hplace : d.start = p.2 := by simpa using hstart
      have hne : e ≠ d := by
        rintro rfl
        omega
      have hmeets := h e he d hd hne
      have hspan := hspans d hd
      rw [Meets] at hmeets
      omega
    have hcover : e.start ≤ p.2 ∧ p.2 < e.stop := by omega
    rw [writtenAt, hnone, if_pos (any_eq_true.2 ⟨e, he, by simpa using hcover⟩)]
    rfl
  rw [hm, ← append_nil e.replacement, ← hfirst, ← hinside]
  rfl

theorem becomes_of_apply (h : apply t edits = .ok out) {start stop : Nat} (hle : start ≤ stop)
    (hstop : stop ≤ t.length) :
    Becomes edits t start stop (madeAtOnce edits start (t.slice start stop)) out := by
  have heq := (apart_of_apply hspans h).apply_eq hspans
  rw [h, Except.ok.injEq] at heq
  have hsplit : t = t.take start ++ (t.slice start stop ++ t.drop stop) := by
    rw [Text.slice, ← append_assoc]
    conv_lhs => rw [← take_append_drop stop t, ← take_append_drop start (t.take stop), take_take,
      Nat.min_eq_left hle]
  have hlength : start + (t.slice start stop).length = stop := by
    rw [Text.slice, length_drop, length_take]
    omega
  rw [Becomes, heq]
  conv_lhs => rw [hsplit]
  rw [madeAtOnce_append, madeAtOnce_append, length_take_of_le (hle.trans hstop), Nat.zero_add,
    hlength]

/-- **An edit is made in its place.** -/
theorem becomes_replacement (h : apply t edits = .ok out) (he : e ∈ edits) :
    Becomes edits t e.start e.stop e.replacement out := by
  obtain ⟨hlt, hstop⟩ := hspans e he
  have hbecomes := becomes_of_apply hspans h hlt.le hstop
  rwa [(apart_of_apply hspans h).madeAtOnce_replaced hspans he] at hbecomes

end

theorem apply_simultaneous {t : Text} {edits : List Edit} (hspans : ∀ e ∈ edits, e.start < e.stop ∧
    e.stop ≤ t.length) :
    ((∃ o, apply t edits = .error o) ↔ ∃ e ∈ edits, ∃ e' ∈ edits, e ≠ e' ∧ Meets e e') ∧
      (Apart edits → apply t edits = .ok (madeAtOnce edits 0 t)) ∧
      ∀ edits', (∀ e, e ∈ edits' ↔ e ∈ edits) → apply t edits' = apply t edits := by
  have hmeet : (∃ e ∈ edits, ∃ e' ∈ edits, e ≠ e' ∧ Meets e e') ↔ ¬ Apart edits := by simp [Apart]
  have hrefused : (∃ o, apply t edits = .error o) ↔ ¬ Apart edits := by
    cases happly : apply t edits with
    | error o =>
      refine iff_of_true ⟨o, rfl⟩ fun h => ?_
      rw [h.apply_eq hspans] at happly
      cases happly
    | ok out => simpa using apart_of_apply hspans happly
  refine ⟨hrefused.trans hmeet.symm, fun h => h.apply_eq hspans, fun edits' hmem => ?_⟩
  by_cases h : Apart edits
  · have h' : Apart edits' := fun e he e' he' => h e ((hmem e).1 he) e' ((hmem e').1 he')
    rw [h.apply_eq hspans, h'.apply_eq fun e he => hspans e ((hmem e).1 he),
      h.madeAtOnce_congr hspans hmem]
  · obtain ⟨o, ho⟩ := hrefused.2 h
    exact (applyOrdered_error_congr (map_span_ordered hmem).symm ho).trans ho.symm

/-- Neighbouring edits, one of them given twice; and two edits that share one character. -/
theorem apply_simultaneous_neighbours :
    apply "let a = b;".toList [⟨8, 9, "c + d".toList⟩, ⟨0, 4, []⟩, ⟨4, 5, "xy".toList⟩,
      ⟨8, 9, "c + d".toList⟩] =
        .ok "xy = c + d;".toList ∧
      ∃ o, apply "let a = b;".toList [⟨0, 5, []⟩, ⟨4, 9, "x".toList⟩] = .error o := by
  obtain ⟨-, hmade, hcongr⟩ := @apply_simultaneous "let a = b;".toList
    [⟨4, 5, "xy".toList⟩, ⟨8, 9, "c + d".toList⟩, ⟨0, 4, []⟩] (by decide)
  constructor
  · exact (hcongr _ fun e => by simp only [List.mem_cons]; tauto).trans
      (hmade (by simp [Apart, Meets]))
  · exact (apply_simultaneous (by decide)).1.2
      ⟨⟨0, 5, []⟩, by simp, ⟨4, 9, "x".toList⟩, by simp, by simp, by simp [Meets]⟩

end AnchorLowering.Source.Edit
