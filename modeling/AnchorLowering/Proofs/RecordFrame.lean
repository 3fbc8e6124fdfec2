import AnchorLowering.Proofs.RecordPlacement
import AnchorLowering.Proofs.SequenceRefinement

/-!
# The sequences of a record do not interfere

A sequence that is opened on a field of a record covers exactly the bytes of that field
(`ofField_span`): its counter is where the layout says, and its slots fill the backing array. Fields
do not overlap, and operations stay inside the sequence that they work on, so a run on one field
keeps the header and every other field.
-/

namespace AnchorLowering.BoundedSequence

open List

variable {s : BoundedSequence} {b : Buffer} {f : StateField} {p : PlacedField} {start : Nat}

/-! ## Sequences and their fields -/

/-- The declared type of the field is a sequence with room for at least one element of at least one
byte. -/
def HasRoom (f : StateField) : Prop :=
  ∃ capacity elementSize, (FieldType.parse f.ty).capacity? f.bound = some capacity ∧
    (FieldType.parse f.ty).elementSize? = some elementSize ∧ 1 ≤ capacity.toNat ∧ 1 ≤ elementSize

theorem ofField_eq_ok_iff {capacity : Bound} {elementSize : Nat}
    (hcap : (FieldType.parse f.ty).capacity? f.bound = some capacity)
    (helem : (FieldType.parse f.ty).elementSize? = some elementSize)
    (hroom : start + (PlacedField.ofField start f).size ≤ b.length) :
    ofField b (PlacedField.ofField start f) = .ok s ↔
      1 ≤ capacity.toNat ∧ 1 ≤ elementSize ∧ s = ⟨start, capacity, elementSize⟩ := by
  have hsize := PlacedField.size_ofField hcap helem start
  have hopen : ofField b (PlacedField.ofField start f) =
      openAt b start capacity (PlacedField.ofField start f).elementSize := by
    unfold ofField
    rw [PlacedField.capacity_ofField, hcap, PlacedField.offset_ofField]
  rw [hopen, openAt_eq_ok_iff, PlacedField.elementSize_ofField hcap helem]
  by_cases hzero : capacity.toNat = 0
  · rw [if_pos hzero]
    exact ⟨fun h => absurd h.1 (by decide), fun h => by omega⟩
  · rw [if_neg hzero]
    constructor
    · rintro ⟨hpos, rfl, -⟩
      exact ⟨by omega, by omega, rfl⟩
    · rintro ⟨-, hpos, rfl⟩
      refine ⟨by omega, rfl, ?_⟩
      simp only [stop, counterOffset, counterWidth]
      omega

theorem ofField_isOk_iff (hroom : start + (PlacedField.ofField start f).size ≤ b.length) :
    (∃ s, ofField b (PlacedField.ofField start f) = .ok s) ↔ HasRoom f := by
  cases hcap : (FieldType.parse f.ty).capacity? f.bound with
  | none =>
    constructor
    · rintro ⟨s, hs⟩
      rw [ofField, PlacedField.capacity_ofField, hcap] at hs
      exact nomatch hs
    · rintro ⟨capacity, -, hcap', -⟩
      rw [hcap] at hcap'
      exact nomatch hcap'
  | some capacity =>
    have hsome := FieldType.elementSize?_isSome (FieldType.parse f.ty) f.bound
    rw [hcap, Option.isSome_some, Option.isSome_iff_exists] at hsome
    obtain ⟨elementSize, helem⟩ := hsome
    constructor
    · rintro ⟨s, hs⟩
      obtain ⟨h₁, h₂, -⟩ := (ofField_eq_ok_iff hcap helem hroom).1 hs
      exact ⟨capacity, elementSize, hcap, helem, h₁, h₂⟩
    · rintro ⟨capacity', elementSize', hcap', helem', h₁, h₂⟩
      obtain rfl : capacity = capacity' := Option.some.inj (hcap.symm.trans hcap')
      obtain rfl : elementSize = elementSize' := Option.some.inj (helem.symm.trans helem')
      exact ⟨_, (ofField_eq_ok_iff hcap helem hroom).2 ⟨h₁, h₂, rfl⟩⟩

/-- A sequence opened on a field takes exactly the bytes of the field, its slots those of the
backing array and its counter those after it. -/
theorem ofField_span (hroom : start + (PlacedField.ofField start f).size ≤ b.length)
    (hs : ofField b (PlacedField.ofField start f) = .ok s) :
    s.offset = start ∧
    (FieldType.parse f.ty).capacity? f.bound = some s.capacity ∧
    s.counterOffset = (PlacedField.ofField start f).counterOffset ∧
    s.capacity.toNat * s.elementSize = (PlacedField.ofField start f).backingSize ∧
    s.stop = start + (PlacedField.ofField start f).size := by
  obtain ⟨capacity, elementSize, hcap, helem, -, -⟩ := (ofField_isOk_iff hroom).1 ⟨s, hs⟩
  obtain ⟨-, -, rfl⟩ := (ofField_eq_ok_iff hcap helem hroom).1 hs
  have hback := PlacedField.backingSize_ofField hcap helem start
  refine ⟨rfl, hcap, ?_, hback.symm, ?_⟩
  · rw [PlacedField.counterOffset, PlacedField.offset_ofField, hback]
    rfl
  · rw [PlacedField.size_ofField hcap helem, ← Nat.add_assoc]
    rfl

/-! ## Runs on one field -/

theorem ofField_congr {b' : Buffer} (hlen : b'.length = b.length) (q : PlacedField) :
    ofField b' q = ofField b q := by
  unfold ofField openAt
  rw [hlen]

section Congr

variable {b' : Buffer} (h : ∀ k, s.offset ≤ k → k < s.stop → b'[k]? = b[k]?)
include h

theorem count_congr : s.count b' = s.count b := by
  have hoffset : s.offset ≤ s.counterOffset := Nat.le_add_right _ _
  rw [count, count, Buffer.slice_congr fun k hk hk' => h k (by omega) hk']

/-- The elements in use that lie in the slots of the sequence depend only on its bytes. A counter
beyond the capacity brings in elements from behind the sequence; these may differ. -/
theorem take_live_congr : (s.live b').take s.capacity.toNat = (s.live b).take s.capacity.toNat := by
  apply ext_getElem?
  intro i
  rw [getElem?_take, getElem?_take, getElem?_live, getElem?_live, count_congr h]
  by_cases hi : i < s.capacity.toNat
  · have h₁ := slotStop_le hi
    have h₂ := s.counterOffset_le_stop
    have hslot : s.readSlot i b' = s.readSlot i b :=
      Buffer.slice_congr fun k hk hk' =>
        h k (Nat.le_trans (s.offset_le_slotStart i) hk) (by omega)
    rw [hslot]
  · rw [if_neg hi, if_neg hi]

theorem live_congr (hcount : s.count b ≤ s.capacity.toNat) : s.live b' = s.live b := by
  have htake := take_live_congr h
  rwa [take_of_length_le (by rw [length_live, count_congr h]; exact hcount),
    take_of_length_le (by rw [length_live]; exact hcount)] at htake

end Congr

/-- **Sequences of one record do not interfere.** In a buffer with room for the record, a field
opens as a sequence exactly if it has room for an element, and then lies where the layout says. A
run of operations on one field, started with its counter within its capacity, keeps the header,
every byte of every other field, and so what is in use in the sequences of other fields. -/
theorem run_keeps_other_fields (r : StateRecord)
    (hbounds : ∀ f ∈ r.fields, ∀ n, f.bound = some n → n.toNat < 2 ^ 64)
    (hroom : (RecordLayout.ofRecord r).size ≤ b.length) :
    (∀ (i : Nat) (f : StateField) (p : PlacedField), r.fields[i]? = some f →
      (RecordLayout.ofRecord r).fields[i]? = some p →
      ((∃ s, ofField b p = .ok s) ↔ HasRoom f) ∧
      ∀ s, ofField b p = .ok s →
        s.counterOffset = p.counterOffset ∧ s.capacity.toNat * s.elementSize = p.backingSize) ∧
    ∀ (i j : Nat) (p q : PlacedField) (s : BoundedSequence), i ≠ j →
      (RecordLayout.ofRecord r).fields[i]? = some p →
      (RecordLayout.ofRecord r).fields[j]? = some q →
      ofField b p = .ok s → s.count b ≤ s.capacity.toNat → ∀ ops : List Op,
        (∀ k, k < headerSize → (s.run ops b)[k]? = b[k]?) ∧
        (∀ k, q.offset ≤ k → k < q.offset + q.size → (s.run ops b)[k]? = b[k]?) ∧
        ∀ t, ofField b q = .ok t →
          ofField (s.run ops b) q = .ok t ∧ t.count (s.run ops b) = t.count b ∧
          (t.live (s.run ops b)).take t.capacity.toNat = (t.live b).take t.capacity.toNat ∧
          (t.count b ≤ t.capacity.toNat → t.live (s.run ops b) = t.live b) := by
  constructor
  · intro i f p hf hp
    have hend := (RecordLayout.field_bounds hp).2
    obtain ⟨f', start, hf', rfl⟩ := RecordLayout.getElem?_placeFields hp
    obtain rfl : f = f' := Option.some.inj (hf.symm.trans hf')
    rw [PlacedField.offset_ofField] at hend
    refine ⟨ofField_isOk_iff (Nat.le_trans hend hroom), fun s hs => ?_⟩
    obtain ⟨-, -, hcounter, hback, -⟩ := ofField_span (Nat.le_trans hend hroom) hs
    exact ⟨hcounter, hback⟩
  · intro i j p q s hij hp hq hs hcount ops
    have hheader := (RecordLayout.field_bounds hp).1
    have hpend := (RecordLayout.field_bounds hp).2
    have hqend := (RecordLayout.field_bounds hq).2
    have hdisj := RecordLayout.fields_disjoint hp hq hij
    obtain ⟨f, start, hf, rfl⟩ := RecordLayout.getElem?_placeFields hp
    rw [PlacedField.offset_ofField] at hheader hpend hdisj
    obtain ⟨hoffset, hcap, -, -, hstop⟩ := ofField_span (Nat.le_trans hpend hroom) hs
    have hsmall : s.capacity.toNat < 2 ^ 64 :=
      FieldType.capacity_lt (hbounds f (List.mem_of_getElem? hf)) hcap
    obtain ⟨-, -, hsame⟩ := run_invariant ⟨by omega, hcount⟩ hsmall ops
    have hkeep : ∀ k, q.offset ≤ k → k < q.offset + q.size → (s.run ops b)[k]? = b[k]? :=
      fun k hk hk' => hsame.getElem?_eq k (by omega)
    refine ⟨fun k hk => hsame.getElem?_eq k (by omega), hkeep, fun t ht => ?_⟩
    obtain ⟨g, start', hg, rfl⟩ := RecordLayout.getElem?_placeFields hq
    rw [PlacedField.offset_ofField] at hqend hkeep
    obtain ⟨hoffset', -, -, -, hstop'⟩ := ofField_span (Nat.le_trans hqend hroom) ht
    have hbytes : ∀ k, t.offset ≤ k → k < t.stop → (s.run ops b)[k]? = b[k]? :=
      fun k hk hk' => hkeep k (by omega) (by omega)
    refine ⟨?_, count_congr hbytes, take_live_congr hbytes, live_congr hbytes⟩
    rw [ofField_congr hsame.length_eq]
    exact ht

theorem run_keeps_other_fields_neighbours :
    live ⟨11, .count 1, 2⟩
      (run ⟨8, .count 2, 1⟩ [.append [7], .append [8], .append [9]]
        [0, 0, 0, 0, 0, 0, 0, 0, 0, 0, 0, 5, 6, 1]) = [[5, 6]] := by
  let r : StateRecord :=
    ⟨"R", [⟨"a", "Vec<u8>", some (.count 2)⟩, ⟨"b", "Vec<u16>", some (.count 1)⟩], false⟩
  let b : Buffer := [0, 0, 0, 0, 0, 0, 0, 0, 0, 0, 0, 5, 6, 1]
  have hbounds : ∀ f ∈ r.fields, ∀ n, f.bound = some n → n.toNat < 2 ^ 64 := by
    intro f hf n hn
    simp only [r, List.mem_cons, List.not_mem_nil, or_false] at hf
    rcases hf with rfl | rfl <;> cases hn <;> decide
  have hroom : (RecordLayout.ofRecord r).size ≤ b.length := by decide +kernel
  have hp : (RecordLayout.ofRecord r).fields[0]? =
      some ⟨"a", "Vec<u8>", 3, 8, some (.count 2), 1, 1⟩ := by decide +kernel
  have hq : (RecordLayout.ofRecord r).fields[1]? =
      some ⟨"b", "Vec<u16>", 3, 11, some (.count 1), 2, 1⟩ := by decide +kernel
  obtain ⟨-, -, hother⟩ := (run_keeps_other_fields r hbounds hroom).2 0 1 _ _ ⟨8, .count 2, 1⟩
    (by decide) hp hq rfl (by decide) [.append [7], .append [8], .append [9]]
  obtain ⟨-, -, -, hlive⟩ := hother ⟨11, .count 1, 2⟩ rfl
  exact (hlive (by decide)).trans (by decide)

end AnchorLowering.BoundedSequence
