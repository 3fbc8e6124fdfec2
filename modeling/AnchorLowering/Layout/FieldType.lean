import AnchorLowering.Model.Bound
import AnchorLowering.Pattern.Search

/-!
# Field types

The type of a record field is read from its text: a primitive type, a string, an array, an optional
value, a sequence, or a type that is not known. Names of primitive types and of the wrappers are
read in any letter case, spaces are dropped, and a path before a wrapper's name is allowed.

The size of a type depends on it and on the bound of the field. A bound reaches the sequence or
string at the top, also under options; elements of arrays and sequences have none.
-/

namespace AnchorLowering

/-- The type of a record field. Each carries its text without spaces. -/
inductive FieldType where
  | primitive (name : Text) (size : Nat)
  | string (name : Text)
  | array (name : Text) (element : FieldType) (length : Nat)
  | option (name : Text) (inner : FieldType)
  | sequence (name : Text) (element : FieldType)
  | unknown (name : Text)
  deriving DecidableEq

namespace FieldType

open Pattern

def name : FieldType → Text
  | primitive n _ | string n | array n _ _ | option n _ | sequence n _ | unknown n => n

/-! ## Reading a type -/

def primitiveSizes : List (String × Nat) :=
  [("bool", 1), ("u8", 1), ("i8", 1), ("u16", 2), ("i16", 2), ("u32", 4), ("i32", 4), ("f32", 4),
   ("u64", 8), ("i64", 8), ("f64", 8), ("u128", 16), ("i128", 16), ("pubkey", 32),
   ("publickey", 32)]

/-- The value of a name, in any letter case, in a table with lower-case names. -/
def lookupName? {α : Type} (table : List (String × α)) (name : Text) : Option α :=
  (table.find? fun e => e.1.toList == Text.lower name).map (·.2)

/-- What stands before a closing character at the end of a text, or before a final line end. -/
def beforeClosing? (close : Char) (t : Text) : Option Text :=
  match t.reverse with
  | '\n' :: c :: rest => if c == close then some rest.reverse else none
  | c :: rest => if c == close then some rest.reverse else none
  | [] => none

/-- The texts before and after the last occurrence of a character. -/
def splitLast? (separator : Char) (t : Text) : Option (Text × Text) :=
  match t.reverse.dropWhile (· != separator) with
  | _ :: before => some (before.reverse, (t.reverse.takeWhile (· != separator)).reverse)
  | [] => none

def isInner (t : Text) : Bool := !t.isEmpty && !t.contains '\n'

def arrayParts? : Text → Option (Text × Nat)
  | '[' :: rest => do
    let body ← beforeClosing? ']' rest
    let (element, length) ← splitLast? ';' body
    if isInner element && !length.isEmpty && length.all isDecimal then
      some (element, Text.toNat length)
    else none
  | _ => none

def path : Pattern Unit := do
  word
  star do
    lit "::"
    word

def genericParts? (t : Text) : Option (Text × Text) :=
  match t.dropWhile (· != '<') with
  | _ :: rest => do
    let wrapper := t.takeWhile (· != '<')
    let inner ← beforeClosing? '>' rest
    if isInner inner && (path.readAll? wrapper).isSome then some (wrapper, inner) else none
  | [] => none

theorem length_beforeClosing {close : Char} {t body : Text}
    (h : beforeClosing? close t = some body) : body.length < t.length := by
  have hr : t.length = t.reverse.length := List.length_reverse.symm
  unfold beforeClosing? at h
  split at h
  · rename_i heq
    simp only [Option.ite_none_right_eq_some, Option.some.injEq] at h
    rw [hr, heq, ← h.2, List.length_reverse, List.length_cons, List.length_cons]
    omega
  · rename_i heq
    simp only [Option.ite_none_right_eq_some, Option.some.injEq] at h
    rw [hr, heq, ← h.2, List.length_reverse, List.length_cons]
    omega
  · simp at h

theorem length_splitLast {separator : Char} {t before rest : Text}
    (h : splitLast? separator t = some (before, rest)) : before.length < t.length := by
  have hle := (List.dropWhile_suffix (· != separator) (l := t.reverse)).length_le
  unfold splitLast? at h
  split at h
  · rename_i heq
    simp only [Option.some.injEq, Prod.mk.injEq] at h
    rw [heq, List.length_reverse, List.length_cons] at hle
    rw [← h.1, List.length_reverse]
    omega
  · simp at h

theorem length_arrayParts {t element : Text} {n : Nat} (h : arrayParts? t = some (element, n)) :
    element.length < t.length := by
  unfold arrayParts? at h
  split at h
  · rename_i rest
    simp only [Option.bind_eq_bind, Option.bind_eq_some_iff] at h
    obtain ⟨body, hbody, ⟨e, l⟩, hsplit, h⟩ := h
    have h₁ := length_beforeClosing hbody
    have h₂ := length_splitLast hsplit
    split at h <;> simp_all
    omega
  · simp at h

theorem length_genericParts {t wrapper inner : Text} (h : genericParts? t = some (wrapper, inner)) :
    inner.length < t.length := by
  have hle := (List.dropWhile_suffix (· != '<') (l := t)).length_le
  unfold genericParts? at h
  split at h
  · rename_i c rest hd
    simp only [Option.bind_eq_bind, Option.bind_eq_some_iff] at h
    obtain ⟨body, hbody, h⟩ := h
    have h₁ := length_beforeClosing hbody
    rw [hd, List.length_cons] at hle
    split at h <;> simp_all
    omega
  · simp at h

/-- The wrapper names an optional value or a sequence. -/
def wrapperIs (wrapper : Text) (name : String) : Bool :=
  Text.lower (Text.lastPart "::" wrapper) == name.toList

def ofCompact (t : Text) : FieldType :=
  match lookupName? primitiveSizes t with
  | some size => .primitive t size
  | none =>
    if Text.lower t == "string".toList then .string t
    else
      match h : arrayParts? t with
      | some (element, length) =>
        have := length_arrayParts h
        .array t (ofCompact element) length
      | none =>
        match h : genericParts? t with
        | some (wrapper, inner) =>
          have := length_genericParts h
          if wrapperIs wrapper "option" then .option t (ofCompact inner)
          else if wrapperIs wrapper "vec" then .sequence t (ofCompact inner)
          else .unknown t
        | none => .unknown t
termination_by t.length

def parse (t : Text) : FieldType := ofCompact (t.filter (· != ' '))

/-! ## Sizes -/

def counterSize (capacity : Nat) : Nat :=
  if capacity ≤ 0xff then 1 else if capacity ≤ 0xffff then 2 else 8

def counterType (capacity : Nat) : Text :=
  if capacity ≤ 0xff then "u8" else if capacity ≤ 0xffff then "u16" else "usize"

/-- The capacities of sequences without a bound, by the type of their elements. -/
def defaultCapacities : List (String × Nat) :=
  [("pubkey", 32), ("u64", 100), ("u32", 100), ("u16", 256), ("u8", 256), ("i64", 100),
   ("string", 10), ("accountinfo", 16)]

/-- The capacity of a sequence without a bound whose elements have a type that is not listed. -/
def fallbackCapacity : Nat := 32

def stringCapacity : Nat := 32

/-- The size that a type which is not known is given. -/
def fallbackSize : Nat := 32

/-- The capacity of a sequence without a bound that has elements of this type. -/
def defaultCapacity (element : FieldType) : Nat :=
  (lookupName? defaultCapacities element.name).getD fallbackCapacity

/-- The number of elements that a bound allows, or the default without one. -/
def capacityOr (bound : Option Bound) (default : Nat) : Nat := (bound.map Bound.toNat).getD default

def size (bound : Option Bound) : FieldType → Nat
  | primitive _ n => n
  | string _ =>
    let capacity := capacityOr bound stringCapacity
    capacity + counterSize capacity
  | array _ element length => length * element.size none
  | option _ inner => 1 + inner.size bound
  | sequence _ element =>
    let capacity := capacityOr bound element.defaultCapacity
    capacity * element.size none + counterSize capacity
  | unknown _ => fallbackSize

/-- The parts of the type that are not known, from left to right. -/
def unknowns : FieldType → List Text
  | array _ element _ | sequence _ element => element.unknowns
  | option _ inner => inner.unknowns
  | unknown n => [n]
  | primitive _ _ | string _ => []

/-- The capacity of a field that holds a sequence or a string at the top. -/
def capacity? (bound : Option Bound) : FieldType → Option Bound
  | string _ => some (bound.getD (.count stringCapacity))
  | sequence _ element => some (bound.getD (.count element.defaultCapacity))
  | _ => none

end FieldType

end AnchorLowering
