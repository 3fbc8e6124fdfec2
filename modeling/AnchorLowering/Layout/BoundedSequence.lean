import AnchorLowering.Layout.Record

/-!
# Bounded sequences

A bounded sequence lives in a buffer: a backing array of elements of one size, followed by a
little-endian counter of the elements in use. What lies beyond the counted elements is stale.

Each operation gives its result and the buffer after it. A counter read from a buffer may exceed
the capacity; elements are then taken from the bytes that follow, cut at the end of the buffer, and
shifting such elements may shorten it.
-/

namespace AnchorLowering

abbrev Buffer := List UInt8

namespace Buffer

def ofNat : (width : Nat) → Nat → Buffer
  | 0, _ => []
  | width + 1, n => UInt8.ofNat n :: ofNat width (n / 256)

/-- The number that little-endian bytes stand for. -/
def toNat : Buffer → Nat
  | [] => 0
  | b :: rest => b.toNat + 256 * toNat rest

def limit (width : Nat) : Nat := 1 <<< (8 * width)

/-- The bytes from `start` to `stop`, cut at the end of the buffer. -/
def slice (b : Buffer) (start stop : Nat) : Buffer := (b.take stop).drop start

/-- The buffer with the bytes from `start` to `stop` replaced. -/
def splice (b : Buffer) (start stop : Nat) (bytes : Buffer) : Buffer :=
  b.take start ++ bytes ++ b.drop stop

end Buffer

structure BoundedSequence where
  offset : Nat
  capacity : Bound
  elementSize : Nat
  deriving DecidableEq

namespace BoundedSequence

inductive Fault where
  | elementSizeNotPositive (size : Int)
  | endsBeyondBuffer (stop available : Nat)
  | notASequence (field : Text)
  | wrongElementSize (expected actual : Nat)
  | full (capacity : Bound)
  | indexOutOfRange (index : Int) (length : Nat)
  | counterUnreachable
  deriving DecidableEq

def Fault.message : Fault → Text
  | elementSizeNotPositive size => "Element size must be positive, got ".toList ++ Text.ofInt size
  | endsBeyondBuffer stop available =>
    "Sequence ends at byte ".toList ++ Text.ofNat stop ++ " but buffer holds ".toList ++
      Text.ofNat available
  | notASequence field => "Field '".toList ++ field ++ "' is not a bounded sequence".toList
  | wrongElementSize expected actual =>
    "Expected ".toList ++ Text.ofNat expected ++ "-byte element, got ".toList ++ Text.ofNat actual
  | full capacity => "Bounded sequence is full (capacity ".toList ++ capacity.text ++ ")".toList
  | indexOutOfRange index length =>
    "Index ".toList ++ Text.ofInt index ++ " out of range for length ".toList ++ Text.ofNat length
  | counterUnreachable => "Counter out of reach"

/-! ## Opening a sequence -/

def counterOffset (s : BoundedSequence) : Nat := s.offset + s.capacity.toNat * s.elementSize

def counterWidth (s : BoundedSequence) : Nat := FieldType.counterSize s.capacity.toNat

def stop (s : BoundedSequence) : Nat := s.counterOffset + s.counterWidth

/-- Opens a sequence in a buffer that has room for it. -/
def openAt (b : Buffer) (offset : Nat) (capacity : Bound) (elementSize : Int) :
    Except Fault BoundedSequence :=
  if elementSize ≤ 0 then .error (.elementSizeNotPositive elementSize)
  else
    let s : BoundedSequence := ⟨offset, capacity, elementSize.toNat⟩
    if b.length < s.stop then .error (.endsBeyondBuffer s.stop b.length) else .ok s

/-- Opens the sequence of a record's field. -/
def ofField (b : Buffer) (f : PlacedField) : Except Fault BoundedSequence :=
  match f.capacity with
  | some capacity => openAt b f.offset capacity f.elementSize
  | none => .error (.notASequence f.name)

/-! ## Parts of the buffer -/

/-- The number of elements in use, as the counter says. -/
def readCount (s : BoundedSequence) (b : Buffer) : Except Fault Nat :=
  if b.length < s.stop then .error .counterUnreachable
  else .ok (Buffer.toNat (b.slice s.counterOffset s.stop))

def writeCount (s : BoundedSequence) (n : Nat) (b : Buffer) : Except Fault Buffer :=
  if b.length < s.stop ∨ Buffer.limit s.counterWidth ≤ n then .error .counterUnreachable
  else .ok (b.splice s.counterOffset s.stop (Buffer.ofNat s.counterWidth n))

def slotStart (s : BoundedSequence) (i : Nat) : Nat := s.offset + i * s.elementSize

def readSlot (s : BoundedSequence) (i : Nat) (b : Buffer) : Buffer :=
  b.slice (s.slotStart i) (s.slotStart i + s.elementSize)

def writeSlot (s : BoundedSequence) (i : Nat) (item b : Buffer) : Buffer :=
  b.splice (s.slotStart i) (s.slotStart i + s.elementSize) item

/-- Copies each of `n` elements after the element `i` into the place before it. -/
def shiftDown (s : BoundedSequence) : (i n : Nat) → Buffer → Buffer
  | _, 0, b => b
  | i, n + 1, b => shiftDown s (i + 1) n (s.writeSlot i (s.readSlot (i + 1) b) b)

/-! ## Operations -/

/-- The result of an operation and the buffer after it. -/
abbrev Outcome (α : Type) := Except Fault α × Buffer

/-- Runs an operation that needs the number of elements in use. -/
def withCount {α : Type} (s : BoundedSequence) (b : Buffer) (f : Nat → Outcome α) : Outcome α :=
  match s.readCount b with
  | .ok n => f n
  | .error e => (.error e, b)

/-- Sets the counter as the last step of an operation on the buffer. -/
def finish {α : Type} (s : BoundedSequence) (n : Nat) (b : Buffer) (result : α) : Outcome α :=
  match s.writeCount n b with
  | .ok b' => (.ok result, b')
  | .error e => (.error e, b)

def append (s : BoundedSequence) (item b : Buffer) : Outcome Unit :=
  if item.length ≠ s.elementSize then
    (.error (.wrongElementSize s.elementSize item.length), b)
  else
    s.withCount b fun n =>
      if s.capacity.toNat ≤ n then (.error (.full s.capacity), b)
      else s.finish (n + 1) (s.writeSlot n item b) ()

def clear (s : BoundedSequence) (b : Buffer) : Outcome Unit := s.finish 0 b ()

/-- The element at an index, if it is in use. -/
def get (s : BoundedSequence) (index : Int) (b : Buffer) : Outcome (Option Buffer) :=
  if index < 0 then (.ok none, b)
  else
    s.withCount b fun n =>
      (.ok (if index < n then some (s.readSlot index.toNat b) else none), b)

/-- Removes the element at an index and moves those after it down. -/
def remove (s : BoundedSequence) (index : Int) (b : Buffer) : Outcome Buffer :=
  s.withCount b fun n =>
    if index < 0 ∨ (n : Int) ≤ index then (.error (.indexOutOfRange index n), b)
    else
      let i := index.toNat
      s.finish (n - 1) (s.shiftDown i (n - 1 - i) b) (s.readSlot i b)

def isEmpty (s : BoundedSequence) (b : Buffer) : Outcome Bool :=
  s.withCount b fun n => (.ok (n == 0), b)

def toList (s : BoundedSequence) (b : Buffer) : Outcome (List Buffer) :=
  s.withCount b fun n => (.ok ((List.range n).map fun i => s.readSlot i b), b)

end BoundedSequence

end AnchorLowering
