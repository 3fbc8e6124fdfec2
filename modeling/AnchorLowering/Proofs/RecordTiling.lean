import AnchorLowering.Proofs.RecordPlacement
import AnchorLowering.Target.Record
import Mathlib.Algebra.GroupWithZero.Nat
import Mathlib.Data.List.Forall2

/-!
# Target records tile their bytes

A target record has every field at a fixed place. Its fields come from the placed fields of a
layout, each as it is or, for a sequence, cut into a backing array and a counter.

Main result: `fields_tile`.
-/

namespace AnchorLowering

open List

/-! ## Tilings -/

/-- The fields cover the bytes from `start` to `stop` one after the other. -/
def Tiles : Nat → List TargetField → Nat → Prop
  | start, [], stop => start = stop
  | start, f :: rest, stop => f.offset = start ∧ Tiles (start + f.size) rest stop

namespace Tiles

variable {start middle stop : Nat} {fields more : List TargetField}

theorem append (h : Tiles start fields middle) (h' : Tiles middle more stop) :
    Tiles start (fields ++ more) stop := by
  induction fields generalizing start with
  | nil =>
    obtain rfl : start = middle := h
    exact h'
  | cons f fields ih => exact ⟨h.1, ih h.2⟩

theorem stop_eq (h : Tiles start fields stop) : stop = start + (fields.map (·.size)).sum := by
  induction fields generalizing start with
  | nil => exact Eq.symm h
  | cons f fields ih =>
    rw [ih h.2, map_cons, sum_cons, Nat.add_assoc]

end Tiles

/-! ## One source field -/

/-- The target fields of a source field. A sequence has a backing array with room for its capacity,
which is also its bound, and a counter. Any other field is one field of its size. -/
inductive Splits (f : StateField) : List TargetField → Prop where
  | sequence (array counter : TargetField) (capacity : Bound) (elementSize : Nat)
      (hcapacity : (FieldType.parse f.ty).capacity? f.bound = some capacity)
      (helement : (FieldType.parse f.ty).elementSize? = some elementSize)
      (harray : array.name = f.name ∧ array.size = capacity.toNat * elementSize ∧
        array.bound = some capacity)
      (hcounter : counter.name = counterName f.name ∧
        counter.size = FieldType.counterSize capacity.toNat ∧ counter.bound = none) :
      Splits f [array, counter]
  | plain (field : TargetField) (hplain : (FieldType.parse f.ty).elementSize? = none)
      (hfield : field.name = f.name ∧ field.ty = f.ty ∧
        field.size = (FieldType.parse f.ty).size f.bound ∧ field.bound = none) :
      Splits f [field]

theorem ofPlaced_ofField (f : StateField) (offset : Nat) :
    Splits f (TargetField.ofPlaced (PlacedField.ofField offset f)) ∧
      Tiles offset (TargetField.ofPlaced (PlacedField.ofField offset f))
        (offset + (PlacedField.ofField offset f).size) := by
  have hshape := (FieldType.parse f.ty).elementSize?_isSome f.bound
  cases hcapacity : (FieldType.parse f.ty).capacity? f.bound with
  | none =>
    have hplain : (FieldType.parse f.ty).elementSize? = none := by
      simpa [hcapacity] using hshape
    have hplaced : PlacedField.ofField offset f =
        ⟨f.name, f.ty, (FieldType.parse f.ty).size f.bound, offset, none, 0, 0⟩ := by
      simp only [PlacedField.ofField, hcapacity]
    rw [hplaced]
    exact ⟨.plain _ hplain ⟨rfl, rfl, rfl, rfl⟩, rfl, rfl⟩
  | some capacity =>
    rw [hcapacity] at hshape
    obtain ⟨elementSize, helement⟩ := Option.isSome_iff_exists.1 hshape
    have hbacking := PlacedField.backingSize_ofField hcapacity helement offset
    have hsize := PlacedField.size_ofField hcapacity helement offset
    have hname : (PlacedField.ofField offset f).name = f.name := by
      simp only [PlacedField.ofField, hcapacity]
    have hcounter : (PlacedField.ofField offset f).counterSize =
        FieldType.counterSize capacity.toNat := by
      simp only [PlacedField.ofField, hcapacity]
    unfold TargetField.ofPlaced
    rw [PlacedField.capacity_ofField, hcapacity]
    simp only [PlacedField.counterOffset, hname, hbacking, hcounter, hsize,
      PlacedField.offset_ofField]
    exact ⟨.sequence _ _ capacity elementSize hcapacity helement ⟨rfl, rfl, rfl⟩ ⟨rfl, rfl, rfl⟩,
      rfl, rfl, Nat.add_assoc ..⟩

/-! ## All fields -/

theorem tiles_placeFields (offset : Nat) (fields : List StateField) :
    Tiles offset ((RecordLayout.placeFields offset fields).flatMap TargetField.ofPlaced)
      (offset + (RecordLayout.placeFields offset fields).foldr (fun f size => f.size + size)
        0) := by
  induction fields generalizing offset with
  | nil => rfl
  | cons f rest ih =>
    simp only [RecordLayout.placeFields, flatMap_cons, foldr_cons, ← Nat.add_assoc]
    exact (ofPlaced_ofField f offset).2.append (ih _)

theorem splits_placeFields (offset : Nat) (fields : List StateField) : Forall₂ Splits fields
      ((RecordLayout.placeFields offset fields).map TargetField.ofPlaced) := by
  induction fields generalizing offset with
  | nil => exact .nil
  | cons f rest ih => exact .cons (ofPlaced_ofField f offset).1 (ih _)

/-- The fields of a target record cover its bytes behind the header, without a gap or an overlap.
They come in one group per source field, in the order of these. -/
theorem TargetRecord.fields_tile (r : StateRecord) :
    Tiles headerSize (ofLayout (.ofRecord r)).fields (ofLayout (.ofRecord r)).size ∧
      (ofLayout (.ofRecord r)).size =
        headerSize + ((ofLayout (.ofRecord r)).fields.map (·.size)).sum ∧
      ∃ groups, (ofLayout (.ofRecord r)).fields = groups.flatten ∧
        List.Forall₂ Splits r.fields groups := by
  have htiles := tiles_placeFields headerSize r.fields
  exact ⟨htiles, htiles.stop_eq, _, List.flatMap_def .., splits_placeFields _ _⟩

end AnchorLowering
