import AnchorLowering.Layout.FieldType
import AnchorLowering.Model.Program

/-!
# Record layouts

A record starts with a header of eight bytes. Its fields follow in their order without padding. A
sequence or string field is a backing array of its capacity followed by a counter of the elements
in use.
-/

namespace AnchorLowering

def headerSize : Nat := 8

/-- The name of the counter of a sequence field. -/
def counterName (field : Text) : Text := field ++ "_len".toList

/-- A field at its place in a record. A capacity makes it a sequence. -/
structure PlacedField where
  name : Text
  ty : Text
  size : Nat
  offset : Nat
  capacity : Option Bound
  elementSize : Nat
  counterSize : Nat
  deriving DecidableEq

namespace PlacedField

def isSequence (f : PlacedField) : Bool := f.capacity.isSome

/-- The size of the field without its counter. -/
def backingSize (f : PlacedField) : Nat := f.size - f.counterSize

def counterOffset (f : PlacedField) : Nat := f.offset + f.backingSize

def ofField (offset : Nat) (f : StateField) : PlacedField :=
  let ty := FieldType.parse f.ty
  let size := ty.size f.bound
  match ty.capacity? f.bound with
  | none => ⟨f.name, f.ty, size, offset, none, 0, 0⟩
  | some capacity =>
    let counter := FieldType.counterSize capacity.toNat
    ⟨f.name, f.ty, size, offset, some capacity, (size - counter) / capacity.toNat, counter⟩

end PlacedField

/-- A type that is not known was given a size. -/
structure SizeAssumption where
  record : Text
  field : Text
  typeName : Text
  size : Nat
  deriving DecidableEq

def SizeAssumption.describe (a : SizeAssumption) : Text :=
  a.record ++ ".".toList ++ a.field ++ ": unknown type '".toList ++ a.typeName ++
    "' assumed ".toList ++ Text.ofNat a.size ++ " bytes".toList

/-- The fields of a record at their places, its size, and the assumptions made on the way. -/
structure RecordLayout where
  name : Text
  size : Nat
  fields : List PlacedField
  assumptions : List SizeAssumption

namespace RecordLayout

def placeFields : Nat → List StateField → List PlacedField
  | _, [] => []
  | offset, f :: rest =>
    let placed := PlacedField.ofField offset f
    placed :: placeFields (offset + placed.size) rest

/-- The assumptions on the fields of a record. -/
def assumptionsOf (r : StateRecord) : List SizeAssumption :=
  r.fields.flatMap fun f =>
    (FieldType.parse f.ty).unknowns.map fun ty => ⟨r.name, f.name, ty, FieldType.fallbackSize⟩

def ofRecord (r : StateRecord) : RecordLayout :=
  let fields := placeFields headerSize r.fields
  { name := r.name
    size := headerSize + fields.foldr (fun f size => f.size + size) 0
    fields
    assumptions := assumptionsOf r }

def field? (layout : RecordLayout) (name : Text) : Option PlacedField :=
  layout.fields.find? (·.name == name)

def sequenceFields (layout : RecordLayout) : List PlacedField :=
  layout.fields.filter PlacedField.isSequence

end RecordLayout

end AnchorLowering
