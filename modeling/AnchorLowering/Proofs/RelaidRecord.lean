import AnchorLowering.Proofs.RecordTiling

/-!
# Laying out a target record again

The fields of a target record have types that are written as text. Laying out a record with these
names and types reads the texts back, and should give every field the size and the place that it
has.

Main result: `TargetRecord.reproduced_iff`.

The backing array of a sequence is always read back (`size_parse_array`). What may fail is the
counter and the option. A counter of eight bytes has the type `usize`, which is not among the
primitive types, so it is taken for an unknown type of 32 bytes. And an option is one field whose
type does not show the bound of the sequence in it.
-/

namespace AnchorLowering

open List

variable {elementSize m n : Nat} {f : StateField} {element ty t : Text} {x : Char}

namespace FieldType

/-! ## Reading the type of a backing array -/

theorem name_ofCompact (t : Text) : (ofCompact t).name = t := by
  rw [ofCompact]
  split
  · rfl
  · split
    · rfl
    · split
      · rfl
      · split
        · split
          · rfl
          · split <;> rfl
        · rfl

theorem lookupName?_bracket {α : Type} (table : List (String × α)) (t : Text)
    (h : ∀ e ∈ table, e.1.toList.head? ≠ some '[') : lookupName? table ('[' :: t) = none := by
  have hlower : (Text.lower ('[' :: t)).head? = some '[' := by
    rw [Text.lower, map_cons, head?_cons]
    decide
  rw [lookupName?, Option.map_eq_none_iff, find?_eq_none]
  intro e he heq
  have hhead := h e he
  rw [eq_of_beq heq] at hhead
  exact hhead hlower

theorem splitLast?_append {separator : Char} (before rest : Text) (h : separator ∉ rest) :
    splitLast? separator (before ++ separator :: rest) = some (before, rest) := by
  have hrest : ∀ x ∈ rest.reverse, (x != separator) = true := by
    intro x hx
    have hne : x ≠ separator := fun heq => h (heq ▸ mem_reverse.1 hx)
    simpa using hne
  have hreverse : (before ++ separator :: rest).reverse = rest.reverse ++ separator ::
      before.reverse := by simp
  rw [splitLast?, hreverse, dropWhile_append_of_pos hrest, takeWhile_append_of_pos hrest,
    dropWhile_cons_of_neg (by simp), takeWhile_cons_of_neg (by simp)]
  simp

theorem isDigit_of_mem_ofNat (h : x ∈ Text.ofNat n) : isDigit x = true := by
  have hdigit : x.isDigit = true := Nat.isDigit_of_mem_toDigits (by decide) (by decide) h
  rw [Char.isDigit, Bool.and_eq_true, decide_eq_true_iff, decide_eq_true_iff] at hdigit
  rw [isDigit, Bool.and_eq_true, decide_eq_true_iff, decide_eq_true_iff]
  exact hdigit

theorem digitZero?_of_isDigit (h : isDigit x = true) : digitZero? x = some '0'.toNat := by
  have hascii : x.toNat < 0x80 := by
    simp only [isDigit, Bool.and_eq_true, decide_eq_true_iff, Char.le_def, UInt32.le_iff_toNat_le]
      at h
    exact Nat.lt_of_le_of_lt h.2 (by decide)
  rw [digitZero?, if_pos hascii, if_pos h]

theorem isDecimal_of_isDigit (h : isDigit x = true) : isDecimal x = true := by
  rw [isDecimal, digitZero?_of_isDigit h]
  rfl

theorem toNat_ofNat_text (n : Nat) : Text.toNat (Text.ofNat n) = n := by
  have hvalue : ∀ m, ∀ x ∈ Text.ofNat n, 10 * m + digitValue x =
      10 * m + (x.toNat - '0'.toNat) := by
    intro m x hx
    rw [digitValue, digitZero?_of_isDigit (isDigit_of_mem_ofNat hx)]
    rfl
  rw [Text.toNat, List.foldl_ext _ _ _ hvalue]
  exact Nat.ofDigitChars_toDigits (b := 10) (by decide) (by decide)

theorem arrayParts?_ofNat (helement : isInner element = true) (n : Nat) :
    arrayParts? ('[' :: (element ++ ';' :: (Text.ofNat n ++ [']']))) = some (element, n) := by
  have hbody : beforeClosing? ']' (element ++ ';' :: (Text.ofNat n ++ [']'])) =
      some (element ++ ';' :: Text.ofNat n) := by
    have hreverse : (element ++ ';' :: (Text.ofNat n ++ [']'])).reverse =
        ']' :: (element ++ ';' :: Text.ofNat n).reverse := by simp
    simp [beforeClosing?, hreverse]
  have hsplit : splitLast? ';' (element ++ ';' :: Text.ofNat n) = some (element, Text.ofNat n) :=
    splitLast?_append _ _ fun h => absurd (isDigit_of_mem_ofNat h) (by decide)
  have hdigits : (Text.ofNat n).all isDecimal = true :=
    all_eq_true.2 fun x hx => isDecimal_of_isDigit (isDigit_of_mem_ofNat hx)
  have hvalue : Text.toNat (Text.ofNat n) = n := toNat_ofNat_text n
  have hne : (Text.ofNat n).isEmpty = false := by
    rw [isEmpty_eq_false_iff]
    exact Nat.toDigits_ne_nil
  simp only [arrayParts?, hbody, hsplit, Option.bind_eq_bind, Option.bind_some, helement, hne,
    hdigits, hvalue, Bool.not_false, Bool.and_self, if_true]

/-- The type of an array with a decimal length is read as an array. -/
theorem ofCompact_array (helement : isInner element = true) (n : Nat) :
    ofCompact ('[' :: (element ++ ';' :: (Text.ofNat n ++ [']']))) =
      .array ('[' :: (element ++ ';' :: (Text.ofNat n ++ [']']))) (ofCompact element) n := by
  have hprimitive :=
    lookupName?_bracket primitiveSizes (element ++ ';' :: (Text.ofNat n ++ [']'])) (by decide)
  have hstring : (Text.lower ('[' :: (element ++ ';' :: (Text.ofNat n ++ [']']))) ==
      "string".toList) = false := by
    have hhead : toLower '[' = '[' := by decide
    simp [Text.lower, hhead]
  rw [ofCompact, hprimitive]
  simp only [hstring, Bool.false_eq_true, if_false]
  split
  · rename_i e l hparts
    rw [arrayParts?_ofNat helement] at hparts
    obtain ⟨rfl, rfl⟩ := Prod.mk.inj (Option.some.inj hparts)
    rfl
  · rename_i hparts
    rw [arrayParts?_ofNat helement] at hparts
    cases hparts

theorem mem_of_beforeClosing {close : Char} {body : Text} (h : beforeClosing? close t = some body)
    (hx : x ∈ body) : x ∈ t := by
  rw [← mem_reverse]
  unfold beforeClosing? at h
  split at h
  · rename_i heq
    simp only [Option.ite_none_right_eq_some, Option.some.injEq] at h
    rw [heq]
    rw [← h.2, mem_reverse] at hx
    simp [hx]
  · rename_i heq
    simp only [Option.ite_none_right_eq_some, Option.some.injEq] at h
    rw [heq]
    rw [← h.2, mem_reverse] at hx
    simp [hx]
  · cases h

theorem genericParts?_inner {wrapper inner : Text} (h : genericParts? t = some (wrapper, inner)) :
    isInner inner = true ∧ ∀ x ∈ inner, x ∈ t := by
  unfold genericParts? at h
  split at h
  · rename_i c rest hrest
    simp only [Option.bind_eq_bind, Option.bind_eq_some_iff, Option.ite_none_right_eq_some,
      Bool.and_eq_true, Option.some.injEq, Prod.mk.injEq] at h
    obtain ⟨body, hbody, ⟨hinner, -⟩, -, rfl⟩ := h
    refine ⟨hinner, fun x hx => ?_⟩
    have hmem : x ∈ t.dropWhile (· != '<') := by
      rw [hrest]
      exact mem_cons_of_mem _ (mem_of_beforeClosing hbody hx)
    exact (dropWhile_suffix _).subset hmem
  · cases h

/-- The element of a sequence is read from a part of the sequence's own text. -/
theorem exists_inner_of_sequence {name : Text} {element : FieldType}
    (h : ofCompact t = .sequence name element) :
    ∃ inner, element = ofCompact inner ∧ isInner inner = true ∧ ∀ x ∈ inner, x ∈ t := by
  rw [ofCompact] at h
  split at h
  · cases h
  · split at h
    · cases h
    · split at h
      · cases h
      · split at h
        · rename_i wrapper inner hparts
          obtain ⟨hinner, hmem⟩ := genericParts?_inner hparts
          split at h
          · cases h
          · split at h
            · obtain ⟨-, rfl⟩ := FieldType.sequence.inj h
              exact ⟨inner, rfl, hinner, hmem⟩
            · cases h
        · cases h

theorem size_u8 : (ofCompact "u8").size none = 1 := by
  rw [ofCompact]
  rfl

/-- The name of the elements of a sequence is a type of their size. -/
theorem size_elementName (h : (parse ty).elementSize? = some elementSize) :
    isInner (TargetField.elementName ty) = true ∧ ' ' ∉ TargetField.elementName ty ∧
      (ofCompact (TargetField.elementName ty)).size none = elementSize := by
  unfold TargetField.elementName
  cases hty : parse ty with
  | sequence name element =>
    obtain ⟨inner, rfl, hinner, hmem⟩ := exists_inner_of_sequence hty
    rw [hty, elementSize?, Option.some.injEq] at h
    simp only [name_ofCompact]
    refine ⟨hinner, fun hblank => ?_, h⟩
    have hfilter := mem_filter.1 (hmem _ hblank)
    exact absurd hfilter.2 (by decide)
  | string name =>
    rw [hty, elementSize?, Option.some.injEq] at h
    exact ⟨(by decide : isInner "u8" = true), (by decide : ' ' ∉ "u8".toList), size_u8.trans h⟩
  | _ =>
    rw [hty] at h
    cases h

theorem size_parse_array (h : (parse ty).elementSize? = some elementSize) (n : Nat) :
    (parse (Text.concat ["[", TargetField.elementName ty, "; ", Text.ofNat n, "]"])).size none =
    n * elementSize := by
  obtain ⟨hinner, hblank, hsize⟩ := size_elementName h
  have helement : (TargetField.elementName ty).filter (· != ' ') = TargetField.elementName ty :=
    filter_eq_self.2 fun x hx => by
      simpa using fun heq : x = ' ' => hblank (heq ▸ hx)
  have hdigits : (Text.ofNat n).filter (· != ' ') = Text.ofNat n :=
    filter_eq_self.2 fun x hx => by
      have hdigit := isDigit_of_mem_ofNat hx
      rw [bne_iff_ne]
      rintro rfl
      exact absurd hdigit (by decide)
  have hcompact : (Text.concat ["[", TargetField.elementName ty, "; ", Text.ofNat n, "]"]).filter
      (· != ' ') =
      '[' :: (TargetField.elementName ty ++ ';' :: (Text.ofNat n ++ [']'])) := by
    simp only [Text.concat, flatten_cons, flatten_nil, filter_append, helement, hdigits]
    rfl
  rw [parse, hcompact, ofCompact_array hinner, size, hsize]

/-! ## Counters and options -/

/-- The type of a counter has the size of the counter unless it is that of the native width. -/
theorem size_parse_counterType (n : Nat) :
    (parse (counterType n)).size none = counterSize n ↔ n ≤ 0xffff := by
  have hu8 : (parse "u8").size none = 1 := by rw [parse, ofCompact]; rfl
  have hu16 : (parse "u16").size none = 2 := by rw [parse, ofCompact]; rfl
  have husize : (parse "usize").size none = 32 := by rw [parse, ofCompact]; rfl
  unfold counterType counterSize
  split
  · rw [hu8]
    omega
  · split
    · rw [hu16]
      omega
    · rw [husize]
      omega

/-- The type under any options. -/
def core : FieldType → FieldType
  | option _ inner => inner.core
  | ty => ty

/-- The bound of a type has no effect on its size, or as good as none: there is no sequence under
the options, or the bound is its default capacity, or its elements have no size and the counter is
as wide as without the bound. -/
inductive Unbounded (bound : Option Bound) (ty : FieldType) : Prop where
  | fixed (h : ty.core.elementSize? = none)
  | default {capacity default : Bound} (hcapacity : ty.core.capacity? bound = some capacity)
      (hdefault : ty.core.capacity? none = some default) (h : capacity.toNat = default.toNat)
  | empty {capacity default : Bound} (hcapacity : ty.core.capacity? bound = some capacity)
      (hdefault : ty.core.capacity? none = some default) (helement : ty.core.elementSize? = some 0)
      (h : counterSize capacity.toNat = counterSize default.toNat)

theorem size_core_eq_iff (ty : FieldType) (bound : Option Bound) :
    ty.size bound = ty.size none ↔ ty.core.size bound = ty.core.size none := by
  induction ty with
  | option name inner ih =>
    rw [size, size, core, ← ih]
    omega
  | _ => rfl

theorem size_eq_of_fixed {ty : FieldType} (h : ty.core.elementSize? = none) (bound : Option Bound) :
    ty.size bound = ty.size none := by
  induction ty with
  | option name inner ih => rw [size, size, ih h]
  | string name => cases h
  | sequence name element => cases h
  | _ => rfl

theorem counterSize_mono (h : m ≤ n) : counterSize m ≤ counterSize n := by
  unfold counterSize
  split <;> split <;> (try split) <;> (try split) <;> omega

theorem sequenceSize_lt (h : m < n) (helement : 0 < elementSize) :
    m * elementSize + counterSize m < n * elementSize + counterSize n :=
  Nat.add_lt_add_of_lt_of_le (Nat.mul_lt_mul_of_pos_right h helement)
    (counterSize_mono (Nat.le_of_lt h))

theorem size_eq_iff (ty : FieldType) (bound : Option Bound) :
    ty.size bound = ty.size none ↔ ty.Unbounded bound := by
  constructor
  · intro h
    rw [size_core_eq_iff] at h
    cases helement : ty.core.elementSize? with
    | none => exact .fixed helement
    | some elementSize =>
      obtain ⟨capacity, hcapacity⟩ := Option.isSome_iff_exists.1
        ((elementSize?_isSome ty.core bound).symm.trans (by rw [helement]; rfl))
      obtain ⟨default, hdefault⟩ := Option.isSome_iff_exists.1
        ((elementSize?_isSome ty.core none).symm.trans (by rw [helement]; rfl))
      rw [size_eq_of_capacity hcapacity helement, size_eq_of_capacity hdefault helement] at h
      rcases Nat.eq_zero_or_pos elementSize with rfl | hpos
      · exact .empty hcapacity hdefault helement (by omega)
      · rcases Nat.lt_trichotomy capacity.toNat default.toNat with hlt | heq | hgt
        · exact absurd h (Nat.ne_of_lt (sequenceSize_lt hlt hpos))
        · exact .default hcapacity hdefault heq
        · exact absurd h (Nat.ne_of_gt (sequenceSize_lt hgt hpos))
  · intro h
    cases h with
    | fixed h => exact size_eq_of_fixed h bound
    | default hcapacity hdefault h =>
      obtain ⟨elementSize, helement⟩ := Option.isSome_iff_exists.1
        ((elementSize?_isSome ty.core bound).trans (by rw [hcapacity]; rfl))
      rw [size_core_eq_iff, size_eq_of_capacity hcapacity helement,
        size_eq_of_capacity hdefault helement, h]
    | empty hcapacity hdefault helement h =>
      rw [size_core_eq_iff, size_eq_of_capacity hcapacity helement,
        size_eq_of_capacity hdefault helement, h, Nat.mul_zero, Nat.mul_zero]

end FieldType

/-! ## Fields that have the size of their type -/

/-- The field has the size of its own type. -/
def TargetField.Sized (f : TargetField) : Prop := (FieldType.parse f.ty).size none = f.size

/-- The type of what the field becomes tells its size: a sequence has a counter of at most two
bytes, and the bound of any other field has no effect. -/
inductive StateField.Settled (f : StateField) : Prop where
  | sequence {capacity : Bound} (hcapacity : (FieldType.parse f.ty).capacity? f.bound =
      some capacity)
      (h : capacity.toNat ≤ 0xffff)
  | plain (hplain : (FieldType.parse f.ty).capacity? f.bound = none)
      (h : (FieldType.parse f.ty).Unbounded f.bound)

/-- The bound of the field, if it has one, is a number. -/
def StateField.Counted (f : StateField) : Prop := ∀ b, f.bound ≠ some (.flag b)

theorem StateField.Counted.exists_count (h : f.Counted) {capacity : Bound}
    (hcapacity : (FieldType.parse f.ty).capacity? f.bound = some capacity) :
    ∃ n, capacity = .count n := by
  cases hbound : f.bound with
  | none =>
    rw [hbound] at hcapacity
    cases hty : FieldType.parse f.ty with
    | string name =>
      rw [hty] at hcapacity
      exact ⟨_, (Option.some.inj hcapacity).symm⟩
    | sequence name element =>
      rw [hty] at hcapacity
      exact ⟨_, (Option.some.inj hcapacity).symm⟩
    | _ =>
      rw [hty] at hcapacity
      cases hcapacity
  | some bound =>
    cases bound with
    | flag b => exact absurd hbound (h b)
    | count n =>
      rw [hbound] at hcapacity
      refine ⟨n, ?_⟩
      cases hty : FieldType.parse f.ty <;> rw [hty] at hcapacity <;> cases hcapacity <;> rfl

/-- The target fields of a source field have the sizes of their types exactly if the field is
settled. -/
theorem sized_ofPlaced_iff (hcounted : f.Counted) (offset : Nat) :
    (∀ g ∈ TargetField.ofPlaced (PlacedField.ofField offset f), g.Sized) ↔ f.Settled := by
  have hshape := (FieldType.parse f.ty).elementSize?_isSome f.bound
  cases hcapacity : (FieldType.parse f.ty).capacity? f.bound with
  | none =>
    have hfields : TargetField.ofPlaced (PlacedField.ofField offset f) =
        [⟨f.name, f.ty, (FieldType.parse f.ty).size f.bound, offset, none⟩] := by
      simp only [PlacedField.ofField, hcapacity, TargetField.ofPlaced]
    rw [hfields, forall_mem_singleton, TargetField.Sized, eq_comm, FieldType.size_eq_iff]
    constructor
    · exact fun h => .plain hcapacity h
    · rintro (⟨hsome, -⟩ | ⟨-, h⟩)
      · rw [hcapacity] at hsome
        cases hsome
      · exact h
  | some capacity =>
    rw [hcapacity] at hshape
    obtain ⟨elementSize, helement⟩ := Option.isSome_iff_exists.1 hshape
    obtain ⟨n, rfl⟩ := hcounted.exists_count hcapacity
    have hbacking := PlacedField.backingSize_ofField hcapacity helement offset
    have hty : (PlacedField.ofField offset f).ty = f.ty := by
      simp only [PlacedField.ofField, hcapacity]
    have hcounter : (PlacedField.ofField offset f).counterSize = FieldType.counterSize n := by
      simp only [PlacedField.ofField, hcapacity, Bound.toNat]
    have harray := FieldType.size_parse_array helement n
    unfold TargetField.ofPlaced
    rw [PlacedField.capacity_ofField, hcapacity]
    simp only [forall_mem_cons, not_mem_nil, false_imp_iff, implies_true, and_true,
      TargetField.Sized, hty, hbacking, hcounter, Bound.text, Bound.toNat, harray, true_and,
      FieldType.size_parse_counterType]
    constructor
    · exact fun h => .sequence hcapacity h
    · rintro (⟨hsome, h⟩ | ⟨hnone, -⟩)
      · rw [hcapacity] at hsome
        obtain rfl := Option.some.inj hsome
        exact h
      · rw [hcapacity] at hnone
        cases hnone

theorem sized_placeFields_iff (offset : Nat) {fields : List StateField}
    (hcounted : ∀ f ∈ fields, f.Counted) :
    (∀ g ∈ (RecordLayout.placeFields offset fields).flatMap TargetField.ofPlaced, g.Sized) ↔
      ∀ f ∈ fields, f.Settled := by
  induction fields generalizing offset with
  | nil => simp [RecordLayout.placeFields]
  | cons f fields ih =>
    rw [forall_mem_cons] at hcounted
    rw [RecordLayout.placeFields, flatMap_cons, forall_mem_append, forall_mem_cons,
      sized_ofPlaced_iff hcounted.1, ih _ hcounted.2]

/-! ## Laying out again -/

namespace TargetRecord

/-- The source record with the names and types of the fields, and without bounds. -/
def asSource (t : TargetRecord) : StateRecord :=
  ⟨t.name, t.fields.map fun f => ⟨f.name, f.ty, none⟩, false⟩

/-- Laying out the names and types of the fields gives every field its size and place, and the
record its size. -/
structure Reproduced (t : TargetRecord) : Prop where
  fields : (RecordLayout.ofRecord t.asSource).fields.map (fun f => (f.name, f.size, f.offset)) =
    t.fields.map fun f => (f.name, f.size, f.offset)
  size : (RecordLayout.ofRecord t.asSource).size = t.size

end TargetRecord

theorem PlacedField.name_size_ofField (offset : Nat) (f : StateField) :
    (ofField offset f).name = f.name ∧ (ofField offset f).size =
    (FieldType.parse f.ty).size f.bound := by
  simp only [ofField]
  split <;> exact ⟨rfl, rfl⟩

/-- Fields that tile are placed where they are exactly if they have the sizes of their types. -/
theorem placeFields_eq_iff {start stop : Nat} {fields : List TargetField}
    (h : Tiles start fields stop) :
    (RecordLayout.placeFields start (fields.map fun f => ⟨f.name, f.ty, none⟩)).map
      (fun f => (f.name, f.size, f.offset)) = fields.map (fun f => (f.name, f.size, f.offset)) ↔
      ∀ f ∈ fields, f.Sized := by
  induction fields generalizing start with
  | nil => simp [RecordLayout.placeFields]
  | cons f fields ih =>
    obtain ⟨hname, hsize⟩ := PlacedField.name_size_ofField start ⟨f.name, f.ty, none⟩
    simp only [map_cons, RecordLayout.placeFields, cons.injEq, Prod.mk.injEq, hname, hsize,
      PlacedField.offset_ofField, h.1, and_true, true_and, forall_mem_cons]
    constructor
    · rintro ⟨hf, hrest⟩
      rw [hf] at hrest
      exact ⟨hf, (ih h.2).1 hrest⟩
    · rintro ⟨hf, hrest⟩
      have hf' : (FieldType.parse f.ty).size none = f.size := hf
      rw [hf']
      exact ⟨rfl, (ih h.2).2 hrest⟩

namespace TargetRecord

theorem reproduced_iff_sized {t : TargetRecord} (h : Tiles headerSize t.fields t.size) :
    t.Reproduced ↔ ∀ f ∈ t.fields, f.Sized := by
  constructor
  · exact fun hreproduced => (placeFields_eq_iff h).1 hreproduced.fields
  · intro hsized
    have hfields := (placeFields_eq_iff h).2 hsized
    refine ⟨hfields, ?_⟩
    have hsizes := congrArg (fun l => (l.map fun e : Text × Nat × Nat => e.2.1).sum) hfields
    simp only [map_map, Function.comp_def] at hsizes
    rw [h.stop_eq, ← hsizes, List.sum, foldr_map]
    rfl

/-- **When a target record is laid out again as it is.** For every record whose bounds are numbers:
laying out the names and types of its target fields gives each of them its size and place, and the
record its size, exactly if each has the size of its own type; and this is so exactly if every
source field is settled. -/
theorem reproduced_iff (r : StateRecord) (hcounted : ∀ f ∈ r.fields, f.Counted) :
    ((ofLayout (.ofRecord r)).Reproduced ↔ ∀ f ∈ (ofLayout (.ofRecord r)).fields, f.Sized) ∧
      ((ofLayout (.ofRecord r)).Reproduced ↔ ∀ f ∈ r.fields, f.Settled) := by
  have hsized := reproduced_iff_sized (t := ofLayout (.ofRecord r))
    (tiles_placeFields headerSize r.fields)
  exact ⟨hsized, hsized.trans (sized_placeFields_iff headerSize hcounted)⟩

/-- A record with a sequence, a key, and two options, one of them around a sequence with its default
capacity. -/
def settledRecord : StateRecord where
  name := "Pool".toList
  fields :=
    [⟨"items".toList, "Vec<u64>".toList, some (.count 300)⟩,
      ⟨"owner".toList, "Pubkey".toList, none⟩,
     ⟨"note".toList, "Option<String>".toList, none⟩, ⟨"tags".toList, "Option<Vec<u64>>".toList,
       some (.count 100)⟩]
  hasInitSpace := false

theorem settledRecord_reproduced :
    (∀ f ∈ settledRecord.fields, f.Counted) ∧ (∀ f ∈ settledRecord.fields, f.Settled) ∧
      (ofLayout (.ofRecord settledRecord)).Reproduced := by
  have hcounted : ∀ f ∈ settledRecord.fields, f.Counted := by
    simp [settledRecord, StateField.Counted]
  have hsettled : ∀ f ∈ settledRecord.fields, f.Settled := by
    simp only [settledRecord, List.forall_mem_cons, List.not_mem_nil, false_imp_iff, implies_true,
      and_true]
    refine ⟨@StateField.Settled.sequence _ (.count 300) ?_ ?_, .plain ?_ (.fixed ?_),
      .plain ?_ (@FieldType.Unbounded.default _ _ (.count 32) (.count 32) ?_ ?_ rfl),
      .plain ?_ (@FieldType.Unbounded.default _ _ (.count 100) (.count 100) ?_ ?_ rfl)⟩ <;>
        decide +kernel
  exact ⟨hcounted, hsettled, (reproduced_iff settledRecord hcounted).2.2 hsettled⟩

/-- **A target record that is laid out otherwise.** The counter of a long sequence has eight bytes,
and its type is read as one of 32 bytes. The bound of a sequence under an option is lost, and with
it the size of the field. -/
theorem not_reproduced_of_long_or_optional :
    ¬ (ofLayout (.ofRecord ⟨"Pool".toList,
      [⟨"items".toList, "Vec<u8>".toList, some (.count 65536)⟩], false⟩)).Reproduced ∧
    ¬ (ofLayout (.ofRecord
        ⟨"Pool".toList, [⟨"items".toList, "Option<Vec<u64>>".toList, some (.count 4)⟩],
          false⟩)).Reproduced :=
  ⟨fun h => absurd h.size (by decide +kernel), fun h => absurd h.size (by decide +kernel)⟩

end TargetRecord

end AnchorLowering
