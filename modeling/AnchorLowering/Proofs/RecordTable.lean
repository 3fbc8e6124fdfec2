import AnchorLowering.Lowering.Program
import Mathlib.Data.List.Induction
import Mathlib.Data.List.Nodup

/-!
# Records that share a name

A run looks up the layout of a record in a table by its name. The sizes in the facts about a program
come from the records themselves, one by one. The two agree as long as no two records meet in the
table.

Main result: `run_records_agree_iff`.
-/

namespace AnchorLowering

open List

/-! ## Tables -/

namespace Table

variable {α : Type}

theorem lookup_cons_eq_ite (name n : Text) (v : α) (rest : List (Text × α)) :
    ((n, v) :: rest).lookup name = if name = n then some v else rest.lookup name := by
  rw [lookup_cons]
  by_cases h : name = n
  · rw [if_pos h, h, beq_self_eq_true]
  · rw [if_neg h, beq_eq_false_iff_ne.2 h]

theorem get?_set (table : Table α) (name other : Text) (value : α) :
    (table.set name value).get? other = if other = name then some value else table.get? other := by
  induction table with
  | nil => exact lookup_cons_eq_ite other name value []
  | cons entry rest ih =>
    obtain ⟨n, v⟩ := entry
    rw [set]
    split
    · rename_i hn
      obtain rfl : n = name := by simpa using hn
      simp only [get?, lookup_cons_eq_ite]
      split <;> rfl
    · rename_i hn
      have hne : n ≠ name := by simpa using hn
      rw [get?] at ih
      rw [get?, get?, lookup_cons_eq_ite, lookup_cons_eq_ite, ih]
      by_cases h : other = n
      · rw [if_pos h, if_pos h, if_neg (h ▸ hne)]
      · rw [if_neg h, if_neg h]
        rfl

theorem get?_ofEntries (entries : List (Text × α)) (name : Text) :
    (ofEntries entries).get? name = entries.reverse.lookup name := by
  induction entries using reverseRecOn with
  | nil => rfl
  | append_singleton entries entry ih =>
    rw [ofEntries, foldl_concat, get?_set, reverse_concat, lookup_cons_eq_ite, ← ih]
    rfl

end Table

/-! ## Records of a program -/

namespace Program

variable {p : Program} {r : StateRecord}

/-- The last record of the name. -/
def lastRecord? (p : Program) (name : Text) : Option StateRecord :=
  p.records.reverse.find? (·.name == name)

theorem lookup_eq_find? (records : List StateRecord) (name : Text) :
    (records.map fun r => (r.name, RecordLayout.ofRecord r)).lookup name =
      (records.find? (·.name == name)).map RecordLayout.ofRecord := by
  induction records with
  | nil => rfl
  | cons r records ih =>
    rw [map_cons, Table.lookup_cons_eq_ite, find?_cons, ih]
    by_cases h : r.name = name
    · rw [if_pos h.symm, beq_iff_eq.2 h, Option.map_some]
    · rw [if_neg (Ne.symm h), beq_eq_false_iff_ne.2 h]

theorem get?_layouts (p : Program) (name : Text) :
    p.layouts.get? name = (p.lastRecord? name).map RecordLayout.ofRecord := by
  rw [layouts, Table.get?_ofEntries, ← map_reverse, lookup_eq_find?, lastRecord?]

theorem exists_lastRecord (h : r ∈ p.records) :
    ∃ last ∈ p.records, last.name = r.name ∧ p.lastRecord? r.name = some last := by
  cases hlast : p.lastRecord? r.name with
  | none =>
    have hnone := find?_eq_none.1 hlast r (mem_reverse.2 h)
    exact absurd (beq_self_eq_true r.name) hnone
  | some last =>
    have hname := find?_some hlast
    exact ⟨last, mem_reverse.1 (mem_of_find?_eq_some hlast), by simpa using hname, rfl⟩

/-- At the place of a record is the target of the last record of its name. -/
theorem getElem?_targetRecords {i : Nat} (h : p.records[i]? = some r) :
    ∃ last ∈ p.records, last.name = r.name ∧ p.lastRecord? r.name = some last ∧
      p.targetRecords[i]? = some (.ofLayout (.ofRecord last)) := by
  obtain ⟨last, hmem, hname, hlast⟩ := exists_lastRecord (mem_of_getElem? h)
  refine ⟨last, hmem, hname, hlast, ?_⟩
  rw [targetRecords, getElem?_map, h, Option.map_some, get?_layouts, hlast]
  rfl

/-- Records of one name have the same target. -/
def SharesTargets (p : Program) : Prop :=
  ∀ r ∈ p.records, ∀ r' ∈ p.records, r.name = r'.name →
    TargetRecord.ofLayout (.ofRecord r) = .ofLayout (.ofRecord r')

theorem sharesTargets_of_nodup (h : (p.records.map (·.name)).Nodup) : p.SharesTargets := by
  intro r hr r' hr' heq
  rw [inj_on_of_nodup_map h hr hr' heq]

end Program

/-! ## Runs -/

namespace Lowering.Lowerer

variable {ε : Type}

theorem records_of_run {l : Lowerer ε} {p : Program} {facts : Facts} {target : TargetProgram}
    (h : l.run p facts = .ok target) : target.records = p.targetRecords := by
  unfold run at h
  split at h
  · cases h
  · dsimp only at h
    split at h
    · cases h
    · cases h
      rfl

/-- The target record at each place is that of the source record there, and has the size that the
analysis gives for this place. -/
def RecordsAgree (p : Program) (target : TargetProgram) : Prop :=
  ∀ (i : Nat) (r : StateRecord), p.records[i]? = some r → target.records[i]? =
  some (TargetRecord.ofLayout (.ofRecord r)) ∧
    target.records[i]?.map TargetRecord.size = (Facts.analyze p).sizes[i]?.map RecordSize.size

/-- **Records agree place by place if those of one name do.** Whatever the lowering of bodies, the
hash and the facts: the target of a run has a record for each source record. It is the target of the
last source record of that name. The records agree with the source and with the analysis at every
place exactly if records of one name have the same target, and so they do if the names are
distinct. -/
theorem run_records_agree_iff (l : Lowerer ε) (p : Program) (facts : Facts) {target : TargetProgram}
    (h : l.run p facts = .ok target) :
    target.records.length = p.records.length ∧
    (∀ (i : Nat) (r : StateRecord), p.records[i]? = some r → ∃ last, p.lastRecord? r.name =
      some last ∧
      target.records[i]? = some (.ofLayout (.ofRecord last))) ∧
    (RecordsAgree p target ↔ p.SharesTargets) ∧
    ((p.records.map (·.name)).Nodup → RecordsAgree p target) := by
  have hrecords := records_of_run h
  have hagree : RecordsAgree p target ↔ p.SharesTargets := by
    rw [RecordsAgree, hrecords]
    constructor
    · intro hall r hr r' hr' heq
      obtain ⟨i, hi⟩ := List.getElem?_of_mem hr
      obtain ⟨j, hj⟩ := List.getElem?_of_mem hr'
      obtain ⟨last, -, -, hlast, htarget⟩ := Program.getElem?_targetRecords hi
      obtain ⟨last', -, -, hlast', htarget'⟩ := Program.getElem?_targetRecords hj
      rw [heq, hlast'] at hlast
      obtain rfl := Option.some.inj hlast
      rw [(hall i r hi).1, Option.some.injEq] at htarget
      rw [(hall j r' hj).1, Option.some.injEq] at htarget'
      rw [htarget, htarget']
    · intro hshares i r hi
      obtain ⟨last, hmem, hname, -, htarget⟩ := Program.getElem?_targetRecords hi
      have hsame := hshares last hmem r (List.mem_of_getElem? hi) hname
      have hsize : (Facts.analyze p).sizes[i]? = some (Facts.sizeOf r) := by
        rw [Facts.analyze, List.getElem?_map, hi, Option.map_some]
      rw [htarget, hsame, hsize]
      exact ⟨rfl, rfl⟩
  refine ⟨by rw [hrecords, Program.targetRecords, List.length_map], fun i r hi => ?_, hagree,
    fun hnodup => hagree.2 (Program.sharesTargets_of_nodup hnodup)⟩
  obtain ⟨last, -, -, hlast, htarget⟩ := Program.getElem?_targetRecords hi
  exact ⟨last, hlast, hrecords ▸ htarget⟩

/-- A program of two records and no instructions. -/
def twoRecords (first second : Text) : Program where
  name := "p".toList
  programId := none
  instructions := []
  groups := []
  records :=
    [⟨first, [⟨"total".toList, "u8".toList, none⟩], false⟩,
      ⟨second, [⟨"total".toList, "u64".toList, none⟩], false⟩]
  errors := []

theorem records_agree_vault :
    ∃ target, (Lowerer.standard .standard).run (twoRecords "Pool".toList "Vault".toList)
        (.analyze (twoRecords "Pool".toList "Vault".toList)) = .ok target ∧
      RecordsAgree (twoRecords "Pool".toList "Vault".toList) target := by
  refine ⟨_, rfl, ?_⟩
  exact (run_records_agree_iff (.standard .standard) (twoRecords "Pool".toList "Vault".toList) _
    rfl).2.2.2 (by decide)

/-- **A record may be replaced by another.** Two records of one name pass the check, and the first
becomes the second: its target has 16 bytes where the analysis gives it 9. -/
theorem record_replaced_by_namesake :
    (twoRecords "Pool".toList "Pool".toList).checkNames = .ok () ∧
    ∃ target, (Lowerer.standard .standard).run (twoRecords "Pool".toList "Pool".toList)
        (.analyze (twoRecords "Pool".toList "Pool".toList)) = .ok target ∧
      target.records.map (·.size) = [16, 16] ∧
      (Facts.analyze (twoRecords "Pool".toList "Pool".toList)).sizes.map (·.size) = [9, 16] := by
  refine ⟨rfl, _, rfl, ?_, ?_⟩ <;> decide +kernel

end Lowering.Lowerer

end AnchorLowering
