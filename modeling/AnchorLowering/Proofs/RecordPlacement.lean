import AnchorLowering.Layout.Record
import Mathlib.Algebra.Group.Nat.Defs

/-!
# Where the fields of a record lie

A record places its fields one after the other behind the header, so of two fields the earlier one
ends before the later one starts (`pairwise_placeFields`), and the last one ends where the record
does.
-/

namespace AnchorLowering

open List

variable {ty : FieldType} {fields : List StateField} {bound : Option Bound}

/-! ## Sizes of sequences -/

namespace FieldType

/-- The size of one element of a sequence or string at the top. -/
def elementSize? : FieldType → Option Nat
  | string _ => some 1
  | sequence _ element => some (element.size none)
  | _ => none

theorem toNat_getD (bound : Option Bound) (n : Nat) :
    (bound.getD (.count n)).toNat = capacityOr bound n := by
  cases bound <;> rfl

/-- A type has a capacity and a size of elements, or neither. -/
theorem elementSize?_isSome (ty : FieldType) (bound : Option Bound) :
    ty.elementSize?.isSome = (ty.capacity? bound).isSome := by
  cases ty <;> rfl

theorem size_eq_of_capacity {capacity : Bound} {elementSize : Nat}
    (hcap : ty.capacity? bound = some capacity)
    (helem : ty.elementSize? = some elementSize) :
    ty.size bound = capacity.toNat * elementSize + counterSize capacity.toNat := by
  cases ty with
  | string name =>
    simp only [capacity?, elementSize?, Option.some.injEq] at hcap helem
    rw [← hcap, ← helem, toNat_getD, Nat.mul_one]
    rfl
  | sequence name element =>
    simp only [capacity?, elementSize?, Option.some.injEq] at hcap helem
    rw [← hcap, ← helem, toNat_getD]
    rfl
  | _ => simp [capacity?] at hcap

theorem defaultCapacity_le (element : FieldType) : element.defaultCapacity ≤ 256 := by
  have htable : ∀ e ∈ defaultCapacities, e.2 ≤ 256 := by decide
  unfold defaultCapacity lookupName?
  cases hfind : defaultCapacities.find? fun e => e.1.toList == Text.lower element.name with
  | none => decide
  | some e => exact htable e (mem_of_find?_eq_some hfind)

/-- A capacity is as small as the bound that is given, and small without one. -/
theorem capacity_lt {capacity : Bound} (hbound : ∀ n, bound = some n → n.toNat < 2 ^ 64)
    (hcap : ty.capacity? bound = some capacity) : capacity.toNat < 2 ^ 64 := by
  cases bound with
  | some n =>
    have hn : capacity = n := by
      cases ty <;> simp only [capacity?, Option.getD_some, Option.some.injEq, reduceCtorEq] at hcap
      · exact hcap.symm
      · exact hcap.symm
    rw [hn]
    exact hbound n rfl
  | none =>
    cases ty with
    | string name =>
      simp only [capacity?, Option.getD_none, Option.some.injEq] at hcap
      rw [← hcap]
      decide
    | sequence name element =>
      simp only [capacity?, Option.getD_none, Option.some.injEq] at hcap
      have hle := element.defaultCapacity_le
      rw [← hcap]
      simp only [Bound.toNat]
      omega
    | _ => simp [capacity?] at hcap

end FieldType

/-! ## One field -/

namespace PlacedField

variable {f : StateField}

@[simp] theorem offset_ofField (offset : Nat) (f : StateField) :
    (ofField offset f).offset = offset := by
  simp only [ofField]
  split <;> rfl

@[simp] theorem capacity_ofField (offset : Nat) (f : StateField) :
    (ofField offset f).capacity = (FieldType.parse f.ty).capacity? f.bound := by
  simp only [ofField]
  split
  · rename_i h
    exact h.symm
  · rename_i capacity h
    exact h.symm

variable {capacity : Bound} {elementSize : Nat}
  (hcap : (FieldType.parse f.ty).capacity? f.bound = some capacity)
  (helem : (FieldType.parse f.ty).elementSize? = some elementSize)
include hcap helem

theorem size_ofField (offset : Nat) : (ofField offset f).size =
      capacity.toNat * elementSize + FieldType.counterSize capacity.toNat := by
  rw [← FieldType.size_eq_of_capacity hcap helem]
  simp only [ofField, hcap]

theorem backingSize_ofField (offset : Nat) :
    (ofField offset f).backingSize = capacity.toNat * elementSize := by
  rw [backingSize, size_ofField hcap helem]
  simp only [ofField, hcap]
  omega

/-- Dividing by the capacity gives the size of an element back, and zero if the capacity is. -/
theorem elementSize_ofField (offset : Nat) :
    (ofField offset f).elementSize = if capacity.toNat = 0 then 0 else elementSize := by
  have hsize := size_ofField hcap helem offset
  simp only [ofField, hcap] at hsize ⊢
  rw [hsize, Nat.add_sub_cancel]
  split
  · rename_i hzero
    rw [hzero, Nat.div_zero]
  · exact Nat.mul_div_cancel_left _ (by omega)

end PlacedField

/-! ## All fields -/

namespace RecordLayout

theorem getElem?_placeFields {offset i : Nat} {p : PlacedField}
    (h : (placeFields offset fields)[i]? = some p) :
    ∃ f start, fields[i]? = some f ∧ p = PlacedField.ofField start f := by
  induction fields generalizing offset i with
  | nil => simp [placeFields] at h
  | cons f rest ih =>
    cases i with
    | zero =>
      simp only [placeFields, getElem?_cons_zero, Option.some.injEq] at h
      exact ⟨f, offset, rfl, h.symm⟩
    | succ i =>
      simp only [placeFields, getElem?_cons_succ] at h
      simpa using ih h

/-- A field starts at or behind the place where the first one does, and ends at or before the place
where the last one does. -/
theorem mem_placeFields {offset : Nat} (h : p ∈ placeFields offset fields) :
    offset ≤ p.offset ∧ p.offset + p.size ≤
        offset + (placeFields offset fields).foldr (fun f size => f.size + size) 0 := by
  induction fields generalizing offset with
  | nil => simp [placeFields] at h
  | cons f rest ih =>
    simp only [placeFields, mem_cons, foldr_cons] at h ⊢
    rcases h with rfl | h
    · rw [PlacedField.offset_ofField]
      omega
    · have := ih h
      omega

/-- The fields do not overlap: each ends before the next ones start. -/
theorem pairwise_placeFields (offset : Nat) (fields : List StateField) :
    (placeFields offset fields).Pairwise fun p q => p.offset + p.size ≤ q.offset := by
  induction fields generalizing offset with
  | nil => exact .nil
  | cons f rest ih =>
    refine pairwise_cons.2 ⟨fun q hq => ?_, ih _⟩
    rw [PlacedField.offset_ofField]
    exact (mem_placeFields hq).1

variable {r : StateRecord} {i j : Nat} {p q : PlacedField}

/-- Every field lies between the header and the end of the record. -/
theorem field_bounds (hp : (ofRecord r).fields[i]? = some p) :
    headerSize ≤ p.offset ∧ p.offset + p.size ≤ (ofRecord r).size :=
  mem_placeFields (mem_of_getElem? hp)

theorem fields_disjoint (hp : (ofRecord r).fields[i]? = some p)
    (hq : (ofRecord r).fields[j]? = some q) (hij : i ≠ j) :
    p.offset + p.size ≤ q.offset ∨ q.offset + q.size ≤ p.offset := by
  have hall := pairwise_placeFields headerSize r.fields
  rw [pairwise_iff_getElem] at hall
  obtain ⟨hi, rfl⟩ := List.getElem?_eq_some_iff.1 hp
  obtain ⟨hj, rfl⟩ := List.getElem?_eq_some_iff.1 hq
  rcases Nat.lt_or_gt_of_ne hij with hlt | hgt
  · exact Or.inl (hall i j hi hj hlt)
  · exact Or.inr (hall j i hj hi hgt)

end RecordLayout

end AnchorLowering
