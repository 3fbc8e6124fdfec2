import AnchorLowering.Lowering.Context
import AnchorLowering.Proofs.RecordTiling
import Mathlib.Data.List.Nodup
import Mathlib.Data.List.Pairwise
import Mathlib.Tactic.TFAE

/-!
# Names in a target record

A sequence brings two names into the target record, its own and that of its counter. The second is
made from the first, and nothing keeps a source field from having it already.

Main result: `TargetRecord.names_tfae`.
-/

namespace AnchorLowering

open List

variable {f : StateField} {name : Text}

theorem counterName_injective {a b : Text} (h : counterName a = counterName b) : a = b :=
  append_cancel_right h

theorem counterName_ne (name : Text) : counterName name ≠ name := by
  intro h
  have hlength := congrArg List.length h
  rw [counterName, length_append] at hlength
  exact absurd hlength (by simp)

/-! ## Names of one field -/

namespace StateField

/-- The field is a sequence or a string. -/
def IsSequence (f : StateField) : Prop := ((FieldType.parse f.ty).capacity? f.bound).isSome = true

/-- The names that the field has in the target record. -/
def targetNames (f : StateField) : List Text :=
  if ((FieldType.parse f.ty).capacity? f.bound).isSome then [f.name,
    counterName f.name] else [f.name]

theorem mem_targetNames :
    name ∈ f.targetNames ↔ name = f.name ∨ f.IsSequence ∧ name = counterName f.name := by
  unfold targetNames IsSequence
  split
  · rename_i h
    simp [h]
  · rename_i h
    simp [h]

theorem nodup_targetNames (f : StateField) : f.targetNames.Nodup := by
  unfold targetNames
  split
  · simpa using (counterName_ne f.name).symm
  · simp

theorem map_name_ofPlaced (f : StateField) (offset : Nat) :
    (TargetField.ofPlaced (PlacedField.ofField offset f)).map (·.name) = f.targetNames := by
  unfold targetNames TargetField.ofPlaced
  rw [PlacedField.capacity_ofField]
  cases hcapacity : (FieldType.parse f.ty).capacity? f.bound <;> simp [PlacedField.ofField,
    hcapacity]

/-- Fields with different names share a target name exactly if one has the name of the other's
counter. -/
theorem disjoint_targetNames {g : StateField} (hne : f.name ≠ g.name) :
    f.targetNames.Disjoint g.targetNames ↔
      (g.IsSequence → f.name ≠ counterName g.name) ∧
      (f.IsSequence → g.name ≠ counterName f.name) := by
  simp only [List.Disjoint, mem_targetNames]
  constructor
  · intro h
    exact ⟨fun hg heq => h (.inl rfl) (.inr ⟨hg, heq⟩), fun hf heq => h (.inr ⟨hf, heq⟩) (.inl rfl)⟩
  · rintro ⟨hg, hf⟩ name (rfl | ⟨hsequence, rfl⟩) (heq | ⟨hsequence', heq⟩)
    · exact hne heq
    · exact hg hsequence' heq
    · exact hf hsequence heq.symm
    · exact hne (counterName_injective heq)

end StateField

/-! ## Names of a record -/

/-- No field has the name of the counter of a sequence. -/
def StateRecord.CountersFresh (r : StateRecord) : Prop :=
  ∀ f ∈ r.fields, ∀ g ∈ r.fields, g.IsSequence → f.name ≠ counterName g.name

theorem map_name_placeFields (offset : Nat) (fields : List StateField) :
    ((RecordLayout.placeFields offset fields).flatMap TargetField.ofPlaced).map (·.name) =
      fields.flatMap StateField.targetNames := by
  induction fields generalizing offset with
  | nil => rfl
  | cons f fields ih =>
    rw [RecordLayout.placeFields, flatMap_cons, map_append, StateField.map_name_ofPlaced, ih,
      flatMap_cons]

theorem Context.fieldNames_placeFields (offset : Nat) (fields : List StateField) :
    ((RecordLayout.placeFields offset fields).flatMap fun f =>
      if f.isSequence then [f.name, counterName f.name] else [f.name]) =
        fields.flatMap StateField.targetNames := by
  induction fields generalizing offset with
  | nil => rfl
  | cons f fields ih =>
    rw [RecordLayout.placeFields, flatMap_cons, ih, flatMap_cons]
    congr 1
    rw [PlacedField.isSequence, PlacedField.capacity_ofField, StateField.targetNames]
    cases hcapacity : (FieldType.parse f.ty).capacity? f.bound <;> simp [PlacedField.ofField,
      hcapacity]

namespace TargetRecord

/-- The names that a body may use for a record are those of the target fields. -/
theorem map_name_fields (r : StateRecord) :
    (ofLayout (.ofRecord r)).fields.map (·.name) = Context.fieldNames (.ofRecord r) :=
  (map_name_placeFields headerSize r.fields).trans
  (Context.fieldNames_placeFields headerSize r.fields).symm

theorem nodup_targetNames_iff {fields : List StateField} (h : (fields.map (·.name)).Nodup) :
    (fields.flatMap StateField.targetNames).Nodup ↔
      ∀ f ∈ fields, ∀ g ∈ fields, g.IsSequence → f.name ≠ counterName g.name := by
  have hpairwise : fields.Pairwise fun f g => f.name ≠ g.name := pairwise_map.1 h
  rw [nodup_flatMap]
  constructor
  · rintro ⟨-, hdisjoint⟩ f hf g hg hsequence heq
    have hsymm : Std.Symm (Function.onFun List.Disjoint StateField.targetNames) :=
      ⟨fun _ _ h _ hx hy => h hy hx⟩
    have hne : f ≠ g := by
      rintro rfl
      exact counterName_ne f.name heq.symm
    exact hdisjoint.forall hf hg hne (StateField.mem_targetNames.2 (.inl rfl))
      (StateField.mem_targetNames.2 (.inr ⟨hsequence, heq⟩))
  · intro hfresh
    refine ⟨fun f _ => f.nodup_targetNames, hpairwise.imp_of_mem fun hf hg hne => ?_⟩
    exact (StateField.disjoint_targetNames hne).2 ⟨hfresh _ hf _ hg, hfresh _ hg _ hf⟩

/-! ## Bytes of a name -/

/-- The name stands for the bytes of the range, given by its start and its length. -/
def Denotes (t : TargetRecord) (name : Text) (range : Nat × Nat) : Prop :=
  ∃ f ∈ t.fields, f.name = name ∧ (f.offset, f.size) = range

theorem find?_name {fields : List TargetField} (h : (fields.map (·.name)).Nodup) {f : TargetField}
    (hf : f ∈ fields) :
    fields.find? (·.name == f.name) = some f := by
  induction fields with
  | nil => cases hf
  | cons g fields ih =>
    rw [map_cons, nodup_cons] at h
    rcases mem_cons.1 hf with rfl | hf
    · simp
    · have hne : g.name ≠ f.name := fun heq => h.1 (heq ▸ mem_map_of_mem (f := (·.name)) hf)
      rw [find?_cons_of_neg (by simpa using hne)]
      exact ih h.2 hf

theorem denotes_unique {t : TargetRecord} (h : ∀ f ∈ t.fields, t.field? f.name = some f)
    (hname : name ∈ t.fields.map (·.name)) : ∃! range, t.Denotes name range := by
  obtain ⟨f, hf, rfl⟩ := mem_map.1 hname
  refine ⟨(f.offset, f.size), ⟨f, hf, rfl, rfl⟩, ?_⟩
  rintro range ⟨g, hg, heq, rfl⟩
  have hfound := h g hg
  rw [heq, h f hf] at hfound
  rw [Option.some.inj hfound]

end TargetRecord

theorem exists_first_ofPlaced (f : StateField) (offset : Nat) :
    ∃ g ∈ TargetField.ofPlaced (PlacedField.ofField offset f),
      g.name = f.name ∧ g.offset = offset ∧ g.size ≤ (PlacedField.ofField offset f).size := by
  obtain ⟨hsplits, htiles⟩ := ofPlaced_ofField f offset
  generalize TargetField.ofPlaced (PlacedField.ofField offset f) = group at hsplits htiles ⊢
  revert htiles
  cases hsplits with
  | sequence array counter capacity elementSize hcapacity helement harray hcounter =>
    rintro ⟨hoffset, hcounterOffset, hstop⟩
    refine ⟨array, mem_cons_self, harray.1, hoffset, ?_⟩
    have hstop' : offset + array.size + counter.size =
        offset + (PlacedField.ofField offset f).size := hstop
    omega
  | plain field hplain hfield =>
    rintro ⟨hoffset, hstop⟩
    refine ⟨field, mem_cons_self, hfield.1, hoffset, ?_⟩
    have hstop' : offset + field.size = offset + (PlacedField.ofField offset f).size := hstop
    omega

theorem exists_counter_ofPlaced (h : f.IsSequence) (offset : Nat) :
    ∃ g ∈ TargetField.ofPlaced (PlacedField.ofField offset f), g.name = counterName f.name ∧
    offset ≤ g.offset ∧
      g.offset + g.size = offset + (PlacedField.ofField offset f).size ∧ 0 < g.size := by
  obtain ⟨hsplits, htiles⟩ := ofPlaced_ofField f offset
  generalize TargetField.ofPlaced (PlacedField.ofField offset f) = group at hsplits htiles ⊢
  revert htiles
  cases hsplits with
  | sequence array counter capacity elementSize hcapacity helement harray hcounter =>
    rintro ⟨hoffset, hcounterOffset, hstop⟩
    have hpos : 0 < FieldType.counterSize capacity.toNat := by
      unfold FieldType.counterSize
      split
      · decide
      · split <;> decide
    refine ⟨counter, by simp, hcounter.1, by omega, ?_, hcounter.2.1 ▸ hpos⟩
    rw [hcounterOffset]
    exact hstop
  | plain field hplain hfield =>
    rw [StateField.IsSequence, ← FieldType.elementSize?_isSome, hplain] at h
    cases h

theorem RecordLayout.exists_placeFields {offset i : Nat} {fields : List StateField} {f : StateField}
    (h : fields[i]? = some f) :
    ∃ start, (placeFields offset fields)[i]? = some (PlacedField.ofField start f) := by
  induction fields generalizing offset i with
  | nil => simp at h
  | cons g fields ih =>
    cases i with
    | zero =>
      obtain rfl := Option.some.inj h
      exact ⟨offset, rfl⟩
    | succ i => exact ih h

namespace TargetRecord

theorem countersFresh_of_unique {r : StateRecord}
    (h : ∀ name ∈ Context.fieldNames (.ofRecord r), ∃! range,
      (ofLayout (.ofRecord r)).Denotes name range) :
    r.CountersFresh := by
  intro f hf g hg hsequence heq
  obtain ⟨i, hi⟩ := getElem?_of_mem hf
  obtain ⟨j, hj⟩ := getElem?_of_mem hg
  have hij : i ≠ j := by
    rintro rfl
    rw [hi] at hj
    rw [Option.some.inj hj] at heq
    exact counterName_ne g.name heq.symm
  obtain ⟨start, hstart⟩ := @RecordLayout.exists_placeFields headerSize _ _ _ hi
  obtain ⟨start', hstart'⟩ := @RecordLayout.exists_placeFields headerSize _ _ _ hj
  obtain ⟨first, hfirst, hname, hoffset, hsize⟩ := exists_first_ofPlaced f start
  obtain ⟨counter, hcounter, hname', hoffset', hstop, hpos⟩ :=
    exists_counter_ofPlaced hsequence start'
  have hmem : first ∈ (ofLayout (.ofRecord r)).fields :=
    mem_flatMap.2 ⟨_, mem_of_getElem? hstart, hfirst⟩
  have hmem' : counter ∈ (ofLayout (.ofRecord r)).fields :=
    mem_flatMap.2 ⟨_, mem_of_getElem? hstart', hcounter⟩
  obtain ⟨range, -, hunique⟩ := h first.name (map_name_fields r ▸ mem_map_of_mem hmem)
  have hranges : (first.offset, first.size) = (counter.offset, counter.size) :=
    (hunique _ ⟨first, hmem, rfl, rfl⟩).trans
      (hunique _ ⟨counter, hmem', by rw [hname', hname, heq], rfl⟩).symm
  -- The two fields lie in different source fields, and these do not touch.
  have hdisjoint := RecordLayout.fields_disjoint hstart hstart' hij
  rw [PlacedField.offset_ofField, PlacedField.offset_ofField] at hdisjoint
  rw [Prod.mk.injEq] at hranges
  omega

/-- **When target names are distinct.** For every record whose source fields have distinct names, it
is the same that the target fields have distinct names, that each of them is found by its name, that
every name which a body may use for the record stands for one range of bytes, and that no source
field has the name of a sequence's counter. -/
theorem names_tfae (r : StateRecord) (h : (r.fields.map (·.name)).Nodup) :
    [((ofLayout (.ofRecord r)).fields.map (·.name)).Nodup,
      ∀ f ∈ (ofLayout (.ofRecord r)).fields, (ofLayout (.ofRecord r)).field? f.name = some f,
      ∀ name ∈ Context.fieldNames (.ofRecord r), ∃! range,
      (ofLayout (.ofRecord r)).Denotes name range, r.CountersFresh].TFAE := by
  tfae_have 1 → 2 := fun hnodup f hf => find?_name hnodup hf
  tfae_have 2 → 3 := fun hfound name hname => denotes_unique hfound (map_name_fields r ▸ hname)
  tfae_have 3 → 4 := countersFresh_of_unique
  tfae_have 4 → 1 := fun hfresh =>
    (map_name_placeFields headerSize r.fields).symm ▸ (nodup_targetNames_iff h).2 hfresh
  tfae_finish

/-- A record with a sequence, a string and a field of its own that counts something else. -/
def countedRecord : StateRecord where
  name := "Pool".toList
  fields :=
    [⟨"items".toList, "Vec<u64>".toList, some (.count 4)⟩, ⟨"note".toList, "String".toList, none⟩,
     ⟨"len".toList, "u8".toList, none⟩]
  hasInitSpace := false

/-- No field of the record has the name of a counter, so all target names are distinct. -/
theorem countedRecord_names :
    (countedRecord.fields.map (·.name)).Nodup ∧ countedRecord.CountersFresh ∧
      ((ofLayout (.ofRecord countedRecord)).fields.map (·.name)).Nodup := by
  have hnodup : (countedRecord.fields.map (·.name)).Nodup := by decide
  have hfresh : countedRecord.CountersFresh := by
    have hall : ∀ f ∈ countedRecord.fields, ∀ g ∈ countedRecord.fields,
        f.name ≠ counterName g.name := by decide
    exact fun f hf g hg _ => hall f hf g hg
  exact ⟨hnodup, hfresh, ((names_tfae countedRecord hnodup).out 0 3).2 hfresh⟩

/-- A record with a sequence and a field that has the name of its counter. -/
def clashingRecord : StateRecord where
  name := "Pool".toList
  fields :=
    [⟨"items".toList, "Vec<u64>".toList, some (.count 4)⟩, ⟨"items_len".toList, "u64".toList, none⟩]
  hasInitSpace := false

/-- **A counter may take a name that is in use.** The record has distinct names, but its target has
two fields of the name `items_len`, and only the counter is found by it. -/
theorem counter_takes_name :
    (clashingRecord.fields.map (·.name)).Nodup ∧
    ¬ ((ofLayout (.ofRecord clashingRecord)).fields.map (·.name)).Nodup ∧
    (ofLayout (.ofRecord clashingRecord)).fields.map (fun f => (f.name, f.ty, f.offset)) =
      [("items".toList, "[u64; 4]".toList, 8), ("items_len".toList, "u8".toList, 40),
        ("items_len".toList, "u64".toList, 41)] ∧
    ((ofLayout (.ofRecord clashingRecord)).field? "items_len".toList).map (·.offset) = some 40 := by
  decide +kernel

end TargetRecord

end AnchorLowering
