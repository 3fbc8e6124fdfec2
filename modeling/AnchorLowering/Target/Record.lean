import AnchorLowering.Layout.Record

/-!
# Target records

A record with every field at a fixed place. A sequence is two fields there, its backing array and
its counter.
-/

namespace AnchorLowering

/-- A field of a target record. A bound marks the backing array of a sequence. -/
structure TargetField where
  name : Text
  ty : Text
  size : Nat
  offset : Nat
  bound : Option Bound
  deriving DecidableEq

structure TargetRecord where
  name : Text
  size : Nat
  fields : List TargetField
  assumptions : List Text

def TargetRecord.field? (r : TargetRecord) (name : Text) : Option TargetField :=
  r.fields.find? (·.name == name)

/-- The type of the elements of a sequence field. -/
def TargetField.elementName (ty : Text) : Text :=
  match FieldType.parse ty with
  | .sequence _ element => element.name
  | _ => "u8"

/-- The target fields of a field: a sequence becomes its backing array and its counter. -/
def TargetField.ofPlaced (f : PlacedField) : List TargetField :=
  match f.capacity with
  | none => [⟨f.name, f.ty, f.size, f.offset, none⟩]
  | some capacity =>
    let array := Text.concat ["[", elementName f.ty, "; ", capacity.text, "]"]
    let counter := FieldType.counterType capacity.toNat
    [⟨f.name, array, f.backingSize, f.offset, some capacity⟩,
     ⟨counterName f.name, counter, f.counterSize, f.counterOffset, none⟩]

def TargetRecord.ofLayout (layout : RecordLayout) : TargetRecord :=
  { name := layout.name
    size := layout.size
    fields := layout.fields.flatMap TargetField.ofPlaced
    assumptions := layout.assumptions.map SizeAssumption.describe }

def TargetField.toJson (f : TargetField) : Json :=
  .object
    [("name", .str f.name), ("type", .str f.ty), ("size", .nat f.size), ("offset", .nat f.offset),
     ("bound", (f.bound.map Bound.toJson).getD .null)]

def TargetRecord.toJson (r : TargetRecord) : Json :=
  .object
    [("name", .str r.name), ("size", .nat r.size),
     ("fields", .arr (r.fields.map TargetField.toJson))]

end AnchorLowering
