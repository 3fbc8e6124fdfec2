import AnchorLowering.Proofs.Buffer

/-!
# Bounded sequences are bounded lists

A bounded sequence keeps its elements in the slots of a buffer. Read through `live`, the list of
the slots in use, every operation is the operation of the same name on a list with a greatest
length, over any run of operations.

Main result: `run_refines_list`.

The proof is a simulation with the invariant `Sound`. Each operation is a few writes to slots below
the capacity followed by a write to the counter. Writes to slots keep the counter, writes to the
counter keep the slots, and neither touches a byte outside the sequence. Moving elements down in
`remove` is the one loop; `readSlot_shiftDown` says where every slot ends up.
-/

namespace AnchorLowering.BoundedSequence

open List

open Buffer (SameOutside)

variable {n : Nat} {op : Op} {α : Type}

variable {s : BoundedSequence} {b : Buffer} {i : Nat}

/-! ## The list in a buffer -/

/-- The number in the counter. -/
def count (s : BoundedSequence) (b : Buffer) : Nat :=
  Buffer.toNat (b.slice s.counterOffset s.stop)

/-- The elements in use: the first slots, as many as the counter says. -/
def live (s : BoundedSequence) (b : Buffer) : List Buffer :=
  (List.range (s.count b)).map fun i => s.readSlot i b

/-- The buffer has room for the sequence, and no more elements are in use than it may have. -/
structure Sound (s : BoundedSequence) (b : Buffer) : Prop where
  fits : s.stop ≤ b.length
  counted : s.count b ≤ s.capacity.toNat

@[simp] theorem length_live (s : BoundedSequence) (b : Buffer) : (s.live b).length = s.count b := by
  simp [live]

theorem getElem?_live (s : BoundedSequence) (b : Buffer) (i : Nat) :
    (s.live b)[i]? = if i < s.count b then some (s.readSlot i b) else none := by
  by_cases h : i < s.count b
  · rw [live, getElem?_map, getElem?_range h, if_pos h, Option.map_some]
  · rw [getElem?_eq_none (by rw [length_live]; omega), if_neg h]

/-! ## Slots and the counter -/

theorem counterOffset_le_stop (s : BoundedSequence) : s.counterOffset ≤ s.stop :=
  Nat.le_add_right _ _

theorem slotStart_add_le {j : Nat} (h : i < j) : s.slotStart i + s.elementSize ≤ s.slotStart j := by
  have hmul : (i + 1) * s.elementSize ≤ j * s.elementSize := Nat.mul_le_mul_right _ h
  rw [Nat.add_mul, Nat.one_mul] at hmul
  simp only [slotStart]
  omega

/-- A slot below the capacity ends before the counter. -/
theorem slotStop_le (hi : i < s.capacity.toNat) :
    s.slotStart i + s.elementSize ≤ s.counterOffset := slotStart_add_le hi

theorem offset_le_slotStart (s : BoundedSequence) (i : Nat) : s.offset ≤ s.slotStart i :=
  Nat.le_add_right _ _

theorem length_readSlot (hi : s.slotStart i + s.elementSize ≤ b.length) :
    (s.readSlot i b).length = s.elementSize := by
  rw [readSlot, Buffer.length_slice hi, Nat.add_sub_cancel_left]

/-- The counter is wide enough for every number up to the capacity. -/
theorem lt_pow_counterWidth (hn : n ≤ s.capacity.toNat)
    (hcap : s.capacity.toNat < 2 ^ 64) : n < 256 ^ s.counterWidth := by
  unfold counterWidth FieldType.counterSize
  split
  · omega
  · split <;> omega

/-! ### One slot -/

/-- Writing a slot changes nothing outside any span that holds it. -/
theorem sameOutside_writeSlot {bound : Nat} (hbound : bound ≤ b.length)
    (hi : s.slotStart i + s.elementSize ≤ bound)
    {item : Buffer} (hitem : item.length = s.elementSize) :
    SameOutside s.offset bound b (s.writeSlot i item b) := by
  have hw : SameOutside (s.slotStart i) (s.slotStart i + s.elementSize) b (s.writeSlot i item b) :=
    SameOutside.splice (by omega) (by omega) (by omega)
  exact hw.mono (s.offset_le_slotStart i) hi

section Writes

variable (hfits : s.stop ≤ b.length)
include hfits

theorem counterOffset_le_length : s.counterOffset ≤ b.length :=
  Nat.le_trans s.counterOffset_le_stop hfits

section WriteSlot

variable {i : Nat} (hi : i < s.capacity.toNat) {item : Buffer}
  (hitem : item.length = s.elementSize)
include hi hitem

theorem readSlot_writeSlot (j : Nat) :
    s.readSlot j (s.writeSlot i item b) = if j = i then item else s.readSlot j b := by
  have h₁ := slotStop_le hi
  have h₂ := s.counterOffset_le_stop
  by_cases hj : j = i
  · subst hj
    rw [if_pos rfl]
    exact Buffer.slice_splice_self (by omega) (by omega) (by omega)
  · rw [if_neg hj]
    refine Buffer.slice_splice_of_disjoint (by omega) (by omega) (by omega) ?_
    rcases Nat.lt_or_gt_of_ne hj with hlt | hgt
    · exact Or.inl (slotStart_add_le hlt)
    · exact Or.inr (slotStart_add_le hgt)

end WriteSlot

/-! ### Moving slots down -/

omit hfits in
theorem sameOutside_shiftDown {bound : Nat} (hbound : bound ≤ b.length)
    (hn : s.slotStart (i + n) + s.elementSize ≤ bound) :
    SameOutside s.offset bound b (s.shiftDown i n b) := by
  induction n generalizing i b with
  | zero => exact SameOutside.refl _ _ b
  | succ n ih =>
    have hnext : s.slotStart i + s.elementSize ≤ s.slotStart (i + 1) := slotStart_add_le (by omega)
    have hlast : s.slotStart (i + 1) ≤ s.slotStart (i + (n + 1)) :=
      Nat.add_le_add_left (Nat.mul_le_mul_right _ (by omega)) _
    have hlen : (s.readSlot (i + 1) b).length = s.elementSize := length_readSlot (by omega)
    have hw := sameOutside_writeSlot (s := s) (i := i) hbound (by omega) hlen
    exact hw.trans (ih (by rw [hw.length_eq]; exact hbound) (by rwa [Nat.add_right_comm i 1 n]))

theorem readSlot_shiftDown (hn : i + n < s.capacity.toNat) (j : Nat) :
    s.readSlot j (s.shiftDown i n b) =
      if i ≤ j ∧ j < i + n then s.readSlot (j + 1) b else s.readSlot j b := by
  induction n generalizing i b with
  | zero => rw [shiftDown, if_neg (by omega)]
  | succ n ih =>
    have hslot : ∀ j < s.capacity.toNat, s.slotStart j + s.elementSize ≤ b.length := fun j hj =>
      Nat.le_trans (slotStop_le hj) (counterOffset_le_length hfits)
    have hlen := length_readSlot (hslot (i + 1) (by omega))
    have hw := sameOutside_writeSlot (Nat.le_refl _) (hslot i (by omega)) hlen
    rw [shiftDown, ih (by rw [hw.length_eq]; exact hfits) (by omega),
      readSlot_writeSlot hfits (by omega) hlen, readSlot_writeSlot hfits (by omega) hlen]
    -- Slot `i` took the element after it and is left alone from then on.
    by_cases hj : j = i
    · subst hj
      rw [if_neg (by omega), if_pos rfl, if_pos (by omega)]
    · by_cases hin : i ≤ j ∧ j < i + (n + 1)
      · rw [if_pos hin, if_pos (by omega), if_neg (by omega)]
      · rw [if_neg hin, if_neg (by omega), if_neg hj]

/-! ### The counter -/

omit hfits in
/-- The buffer with the counter set. -/
def setCount (s : BoundedSequence) (n : Nat) (b : Buffer) : Buffer :=
  b.splice s.counterOffset s.stop (Buffer.ofNat s.counterWidth n)

theorem readCount_eq : s.readCount b = .ok (s.count b) := by
  rw [readCount, if_neg (by omega)]
  rfl

theorem withCount_eq (f : Nat → Outcome α) : s.withCount b f = f (s.count b) := by
  rw [withCount, readCount_eq hfits]

theorem finish_eq (hn : n < 256 ^ s.counterWidth) (result : α) :
    s.finish n b result = (.ok result, s.setCount n b) := by
  rw [finish, writeCount, Buffer.limit_eq, if_neg (by omega)]
  rfl

theorem sameOutside_setCount (n : Nat) : SameOutside s.counterOffset s.stop b (s.setCount n b) :=
  SameOutside.splice s.counterOffset_le_stop hfits
    (by rw [Buffer.length_ofNat, stop, Nat.add_sub_cancel_left])

theorem count_setCount (hn : n ≤ s.capacity.toNat) (hcap : s.capacity.toNat < 2 ^ 64) :
    s.count (s.setCount n b) = n := by
  rw [count, setCount, Buffer.slice_splice_self s.counterOffset_le_stop hfits
    (by rw [Buffer.length_ofNat, stop, Nat.add_sub_cancel_left])]
  exact Buffer.toNat_ofNat (lt_pow_counterWidth hn hcap)

/-- Setting the counter puts the first slots in use. -/
theorem live_setCount (hn : n ≤ s.capacity.toNat) (hcap : s.capacity.toNat < 2 ^ 64) :
    s.live (s.setCount n b) = (List.range n).map fun i => s.readSlot i b := by
  rw [live, count_setCount hfits hn hcap]
  apply map_congr_left
  intro i hi
  exact (sameOutside_setCount hfits n).slice_eq
    (Or.inl (slotStop_le (Nat.lt_of_lt_of_le (mem_range.1 hi) hn)))

end Writes

/-! ## Operations on the sequence and on the list -/

/-- An operation on a bounded sequence. -/
inductive Op where
  | append (item : Buffer)
  | clear
  | get (index : Int)
  | remove (index : Int)
  | isEmpty
  | iter
  | len
  deriving DecidableEq

/-- What an operation answers. -/
inductive Answer where
  | done
  | element (item : Buffer)
  | elementIfAny (item : Option Buffer)
  | truth (value : Bool)
  | elements (items : List Buffer)
  | number (n : Nat)
  deriving DecidableEq

/-- The outcome with its result as an answer. -/
def Outcome.as {α : Type} (o : Outcome α) (f : α → Answer) : Outcome Answer := (o.1.map f, o.2)

/-- Carries out an operation on the sequence in a buffer. -/
def Op.exec (s : BoundedSequence) (op : Op) (b : Buffer) : Outcome Answer :=
  match op with
  | append item => (s.append item b).as fun _ => .done
  | clear => (s.clear b).as fun _ => .done
  | get index => (s.get index b).as .elementIfAny
  | remove index => (s.remove index b).as .element
  | isEmpty => (s.isEmpty b).as .truth
  | iter => (s.toList b).as .elements
  | len => (s.withCount b fun n => (.ok n, b)).as .number

section Exec

variable (hfits : s.stop ≤ b.length)
include hfits

theorem exec_append (hcap : s.capacity.toNat < 2 ^ 64) {item : Buffer}
    (hitem : item.length = s.elementSize) :
    Op.exec s (.append item) b =
      if s.capacity.toNat ≤ s.count b then (.error (.full s.capacity), b)
      else (.ok .done, s.setCount (s.count b + 1) (s.writeSlot (s.count b) item b)) := by
  rw [Op.exec, append, if_neg (not_not_intro hitem), withCount_eq hfits]
  by_cases hfull : s.capacity.toNat ≤ s.count b
  · rw [if_pos hfull, if_pos hfull]
    rfl
  · have hw := sameOutside_writeSlot (counterOffset_le_length hfits)
      (slotStop_le (Nat.lt_of_not_le hfull)) hitem
    rw [if_neg hfull, if_neg hfull, finish_eq (by rw [hw.length_eq]; exact hfits)
      (lt_pow_counterWidth (by omega) hcap)]
    rfl

theorem exec_clear (hcap : s.capacity.toNat < 2 ^ 64) :
    Op.exec s .clear b = (.ok .done, s.setCount 0 b) := by
  rw [Op.exec, clear, finish_eq hfits (lt_pow_counterWidth (Nat.zero_le _) hcap)]
  rfl

theorem exec_get (index : Int) : Op.exec s (.get index) b =
    (.ok (.elementIfAny (if 0 ≤ index ∧
      index < s.count b then some (s.readSlot index.toNat b) else none)), b) := by
  rw [Op.exec, get]
  by_cases hneg : index < 0
  · rw [if_pos hneg, if_neg (by omega)]
    rfl
  · rw [if_neg hneg, withCount_eq hfits]
    simp only [show 0 ≤ index by omega, true_and]
    rfl

theorem count_lt : s.count b < 256 ^ s.counterWidth := by
  have hlt := Buffer.toNat_lt (b.slice s.counterOffset s.stop)
  rwa [Buffer.length_slice hfits, stop, Nat.add_sub_cancel_left] at hlt

theorem exec_remove (hi : i < s.count b)
    (hroom : s.stop ≤ (s.shiftDown i (s.count b - 1 - i) b).length) :
    Op.exec s (.remove i) b =
      (.ok (.element (s.readSlot i b)),
        s.setCount (s.count b - 1) (s.shiftDown i (s.count b - 1 - i) b)) := by
  have hlt := count_lt hfits
  rw [Op.exec, remove, withCount_eq hfits, if_neg (by omega)]
  simp only [Int.toNat_natCast]
  rw [finish_eq hroom (by omega)]
  rfl

theorem exec_remove_of_out {index : Int} (h : index < 0 ∨ (s.count b : Int) ≤ index) :
    Op.exec s (.remove index) b = (.error (.indexOutOfRange index (s.count b)), b) := by
  rw [Op.exec, remove, withCount_eq hfits, if_pos h]
  rfl

theorem exec_isEmpty : Op.exec s .isEmpty b = (.ok (.truth (s.count b == 0)), b) := by
  rw [Op.exec, isEmpty, withCount_eq hfits]
  rfl

theorem exec_iter : Op.exec s .iter b = (.ok (.elements (s.live b)), b) := by
  rw [Op.exec, toList, withCount_eq hfits]
  rfl

theorem exec_len : Op.exec s .len b = (.ok (.number (s.count b)), b) := by
  rw [Op.exec, withCount_eq hfits]
  rfl

end Exec

/-- The item at an index, which may be negative and then has none. -/
def itemAt? (items : List Buffer) (index : Int) : Option Buffer :=
  if index < 0 then none else items[index.toNat]?

/-- Carries out an operation on a list of at most as many items, each of the same size. -/
def Op.onList (s : BoundedSequence) (op : Op) (items : List Buffer) :
    Except Fault Answer × List Buffer :=
  match op with
  | append item =>
    if item.length ≠ s.elementSize then
      (.error (.wrongElementSize s.elementSize item.length), items)
    else if items.length = s.capacity.toNat then (.error (.full s.capacity), items)
    else (.ok .done, items ++ [item])
  | clear => (.ok .done, [])
  | get index => (.ok (.elementIfAny (itemAt? items index)), items)
  | remove index =>
    match itemAt? items index with
    | some item => (.ok (.element item), items.eraseIdx index.toNat)
    | none => (.error (.indexOutOfRange index items.length), items)
  | isEmpty => (.ok (.truth items.isEmpty), items)
  | iter => (.ok (.elements items), items)
  | len => (.ok (.number items.length), items)

/-- The buffer after a run of operations. -/
def run (s : BoundedSequence) (ops : List Op) (b : Buffer) : Buffer :=
  ops.foldl (fun b op => (op.exec s b).2) b

/-- The list after a run of operations. -/
def runOnList (s : BoundedSequence) (ops : List Op) (items : List Buffer) : List Buffer :=
  ops.foldl (fun items op => (op.onList s items).2) items

/-! ## One operation -/

/-- On this buffer the operation does to the slots in use what it does to the list. -/
structure Refines (s : BoundedSequence) (op : Op) (b : Buffer) : Prop where
  answer : (op.exec s b).1 = (op.onList s (s.live b)).1
  live : s.live (op.exec s b).2 = (op.onList s (s.live b)).2
  sound : Sound s (op.exec s b).2
  sameOutside : SameOutside s.offset s.stop b (op.exec s b).2
  refused : ∀ e, (op.exec s b).1 = .error e → (op.exec s b).2 = b

/-- An operation that keeps both the buffer and the list only has to answer alike. -/
theorem Refines.of_unchanged (h : Sound s b) (hb : (op.exec s b).2 = b)
    (hl : (op.onList s (s.live b)).2 = s.live b)
    (ha : (op.exec s b).1 = (op.onList s (s.live b)).1) : Refines s op b where
  answer := ha
  live := by rw [hb, hl]
  sound := by rw [hb]; exact h
  sameOutside := by rw [hb]; exact SameOutside.refl _ _ b
  refused := fun _ _ => hb

/-- An operation that writes to slots and then sets the counter. -/
theorem Refines.of_setCount (h : Sound s b) (hcap : s.capacity.toNat < 2 ^ 64)
    (hn : n ≤ s.capacity.toNat)
    {b₁ : Buffer} {a : Answer} (hb₁ : SameOutside s.offset s.counterOffset b b₁)
    (hexec : op.exec s b = (.ok a, s.setCount n b₁))
    (hlist : op.onList s (s.live b) = (.ok a, (List.range n).map fun i => s.readSlot i b₁)) :
    Refines s op b := by
  have hfits : s.stop ≤ b₁.length := by rw [hb₁.length_eq]; exact h.fits
  have hset := sameOutside_setCount hfits n
  refine ⟨?_, ?_, ⟨?_, ?_⟩, ?_, ?_⟩
  · rw [hexec, hlist]
  · rw [hexec, hlist, live_setCount hfits hn hcap]
  · rw [hexec, hset.length_eq]
    exact hfits
  · rw [hexec, count_setCount hfits hn hcap]
    exact hn
  · rw [hexec]
    exact (hb₁.mono (Nat.le_refl _) s.counterOffset_le_stop).trans
      (hset.mono (Nat.le_add_right _ _) (Nat.le_refl _))
  · rw [hexec]
    exact fun e he => nomatch he

section Operations

variable (h : Sound s b)
include h

omit h in
theorem itemAt?_live (index : Int) : itemAt? (s.live b) index =
      if 0 ≤ index ∧ index < s.count b then some (s.readSlot index.toNat b) else none := by
  unfold itemAt?
  by_cases hneg : index < 0
  · rw [if_pos hneg, if_neg (by omega)]
  · rw [if_neg hneg, getElem?_live]
    by_cases hlt : index < s.count b
    · rw [if_pos (by omega), if_pos (by omega)]
    · rw [if_neg (by omega), if_neg (by omega)]

theorem refines_append (hcap : s.capacity.toNat < 2 ^ 64) (item : Buffer) :
    Refines s (.append item) b := by
  by_cases hitem : item.length = s.elementSize
  · have hexec := exec_append h.fits hcap hitem
    by_cases hfull : s.capacity.toNat ≤ s.count b
    · have heq : s.count b = s.capacity.toNat := Nat.le_antisymm h.counted hfull
      rw [if_pos hfull] at hexec
      refine .of_unchanged h ?_ ?_ ?_ <;> simp [hexec, Op.onList, hitem, heq]
    · have hlt : s.count b < s.capacity.toNat := Nat.lt_of_not_le hfull
      have hw := sameOutside_writeSlot (counterOffset_le_length h.fits) (slotStop_le hlt) hitem
      have hlist : (List.range (s.count b + 1)).map
          (fun i => s.readSlot i (s.writeSlot (s.count b) item b)) = s.live b ++ [item] := by
        rw [range_succ, map_append, map_singleton, readSlot_writeSlot h.fits hlt hitem,
          if_pos rfl, live]
        congr 1
        apply map_congr_left
        intro i hi
        rw [readSlot_writeSlot h.fits hlt hitem, if_neg (Nat.ne_of_lt (mem_range.1 hi))]
      rw [if_neg hfull] at hexec
      refine .of_setCount h hcap hlt hw hexec ?_
      rw [hlist, Op.onList, if_neg (not_not_intro hitem), if_neg (by rw [length_live]; omega)]
  · refine .of_unchanged h ?_ ?_ ?_ <;>
      simp [Op.exec, Op.onList, append, Outcome.as, hitem, Except.map]

theorem refines_clear (hcap : s.capacity.toNat < 2 ^ 64) : Refines s .clear b :=
  .of_setCount h hcap (Nat.zero_le _) (SameOutside.refl _ _ b) (exec_clear h.fits hcap) rfl

theorem refines_get (index : Int) : Refines s (.get index) b := by
  refine .of_unchanged h ?_ rfl ?_ <;> rw [exec_get h.fits]
  rw [Op.onList, itemAt?_live]

/-- Moving the slots after the removed one down erases it from the list. -/
theorem map_readSlot_shiftDown (hi : i < s.count b) : (List.range (s.count b - 1)).map
        (fun j => s.readSlot j (s.shiftDown i (s.count b - 1 - i) b)) = (s.live b).eraseIdx i := by
  have hcounted := h.counted
  apply ext_getElem?
  intro j
  rw [getElem?_eraseIdx, getElem?_live, getElem?_live, getElem?_map]
  by_cases hj : j < s.count b - 1
  · rw [getElem?_range hj, Option.map_some, readSlot_shiftDown h.fits (by omega)]
    by_cases hji : j < i
    · rw [if_pos hji, if_neg (by omega), if_pos (by omega)]
    · rw [if_neg hji, if_pos (by omega), if_pos (by omega)]
  · rw [getElem?_eq_none (by rw [length_range]; omega), Option.map_none]
    by_cases hji : j < i
    · omega
    · rw [if_neg hji, if_neg (by omega)]

theorem refines_remove (hcap : s.capacity.toNat < 2 ^ 64) (index : Int) :
    Refines s (.remove index) b := by
  have hitem := itemAt?_live (s := s) (b := b) index
  by_cases hout : index < 0 ∨ (s.count b : Int) ≤ index
  · rw [if_neg (by omega)] at hitem
    refine .of_unchanged h ?_ ?_ ?_ <;> simp [exec_remove_of_out h.fits hout, Op.onList, hitem]
  · rw [if_pos (by omega)] at hitem
    obtain ⟨i, rfl⟩ := Int.eq_ofNat_of_zero_le (show 0 ≤ index by omega)
    have hi : i < s.count b := by omega
    have hcounted := h.counted
    have hshift := sameOutside_shiftDown (i := i) (n := s.count b - 1 - i)
      (counterOffset_le_length h.fits) (slotStop_le (s := s) (by omega))
    refine .of_setCount h hcap (by omega) hshift
      (exec_remove h.fits hi (by rw [hshift.length_eq]; exact h.fits)) ?_
    rw [map_readSlot_shiftDown h hi]
    simp only [Op.onList, hitem, Int.toNat_natCast]

theorem refines_isEmpty : Refines s .isEmpty b := by
  have hlen : (s.count b == 0) = (s.live b).isEmpty := by
    rw [← length_live, Bool.eq_iff_iff, isEmpty_iff_length_eq_zero, beq_iff_eq]
  refine .of_unchanged h ?_ rfl ?_ <;> rw [exec_isEmpty h.fits]
  rw [hlen, Op.onList]

theorem refines_iter : Refines s .iter b := by
  refine .of_unchanged h ?_ rfl ?_ <;> rw [exec_iter h.fits]
  rfl

theorem refines_len : Refines s .len b := by
  refine .of_unchanged h ?_ rfl ?_ <;> rw [exec_len h.fits]
  rw [Op.onList, length_live]

/-- Every operation does to the slots in use what it does to the list. -/
theorem refines (hcap : s.capacity.toNat < 2 ^ 64) (op : Op) : Refines s op b := by
  cases op with
  | append item => exact refines_append h hcap item
  | clear => exact refines_clear h hcap
  | get index => exact refines_get h index
  | remove index => exact refines_remove h hcap index
  | isEmpty => exact refines_isEmpty h
  | iter => exact refines_iter h
  | len => exact refines_len h

end Operations

/-! ## Runs -/

/-- A run keeps the sequence sound, tracks the list, and stays inside the sequence. -/
theorem run_invariant (h : Sound s b) (hcap : s.capacity.toNat < 2 ^ 64) (ops : List Op) :
    Sound s (s.run ops b) ∧ s.live (s.run ops b) = s.runOnList ops (s.live b) ∧
      SameOutside s.offset s.stop b (s.run ops b) := by
  induction ops generalizing b with
  | nil => exact ⟨h, rfl, SameOutside.refl _ _ b⟩
  | cons op ops ih =>
    have hop := refines h hcap op
    obtain ⟨hsound, hlive, hsame⟩ := ih hop.sound
    refine ⟨hsound, ?_, hop.sameOutside.trans hsame⟩
    rw [hop.live] at hlive
    exact hlive

/-- A sequence that was opened has room in its buffer and lies where it was asked for. -/
theorem openAt_eq_ok_iff {offset : Nat} {capacity : Bound} {elementSize : Int} :
    openAt b offset capacity elementSize = .ok s ↔
      0 < elementSize ∧ s = ⟨offset, capacity, elementSize.toNat⟩ ∧ s.stop ≤ b.length := by
  unfold openAt
  by_cases hpos : elementSize ≤ 0
  · rw [if_pos hpos]
    exact ⟨fun h => (nomatch h), fun h => by omega⟩
  · rw [if_neg hpos]
    by_cases hroom : b.length < (⟨offset, capacity, elementSize.toNat⟩ : BoundedSequence).stop
    · simp only [if_pos hroom]
      refine ⟨fun h => (nomatch h), ?_⟩
      rintro ⟨-, rfl, hle⟩
      omega
    · simp only [if_neg hroom, Except.ok.injEq]
      constructor
      · rintro rfl
        exact ⟨by omega, rfl, by omega⟩
      · rintro ⟨-, rfl, -⟩
        rfl

/-- **Bounded sequences refine bounded lists.** After any run of operations on a sequence that was
opened in a buffer with a counter within the capacity, the slots in use are the list that the same
run makes, the counter is its length and within the capacity, only bytes of the sequence have
changed, and any further operation answers as on the list, refuses as on the list, and leaves the
buffer alone when it refuses. -/
theorem run_refines_list {offset : Nat} {capacity : Bound} {elementSize : Int}
    (hopen : openAt b offset capacity elementSize = .ok s) (hcap : capacity.toNat < 2 ^ 64)
    (hcount : s.count b ≤ capacity.toNat) (ops : List Op) :
    s.live (s.run ops b) = s.runOnList ops (s.live b) ∧
    s.readCount (s.run ops b) = .ok (s.runOnList ops (s.live b)).length ∧
    (s.runOnList ops (s.live b)).length ≤ capacity.toNat ∧
    (s.run ops b).length = b.length ∧
    (∀ i, i < offset ∨ s.counterOffset + s.counterWidth ≤ i → (s.run ops b)[i]? = b[i]?) ∧
    ∀ op : Op,
      (op.exec s (s.run ops b)).1 = (op.onList s (s.runOnList ops (s.live b))).1 ∧
      s.live (op.exec s (s.run ops b)).2 = (op.onList s (s.runOnList ops (s.live b))).2 ∧
      ∀ e, (op.exec s (s.run ops b)).1 = .error e → (op.exec s (s.run ops b)).2 = s.run ops b := by
  obtain ⟨-, rfl, hfits⟩ := openAt_eq_ok_iff.1 hopen
  obtain ⟨hsound, hlive, hsame⟩ := run_invariant ⟨hfits, hcount⟩ hcap ops
  refine ⟨hlive, ?_, ?_, hsame.length_eq, hsame.getElem?_eq, fun op => ?_⟩
  · rw [readCount_eq hsound.fits, ← hlive, length_live]
  · rw [← hlive, length_live]
    exact hsound.counted
  · have hop := refines hsound hcap op
    rw [← hlive]
    exact ⟨hop.answer, hop.live, hop.refused⟩

/-- Two elements of two bytes after a header byte: the counter says one is in use, and the last byte
lies outside. The second element is appended, the first removed, and the list is the second. -/
theorem run_refines_list_pair :
    openAt [9, 1, 2, 7, 7, 1, 5] 1 (.count 2) 2 = .ok ⟨1, .count 2, 2⟩ ∧
    count ⟨1, .count 2, 2⟩ [9, 1, 2, 7, 7, 1, 5] ≤ 2 ∧
    live ⟨1, .count 2, 2⟩ (run ⟨1, .count 2, 2⟩ [.append [3, 4], .remove 0] [9, 1, 2, 7, 7, 1, 5]) =
      [[3, 4]] := by
  have hopen : openAt [9, 1, 2, 7, 7, 1, 5] 1 (.count 2) 2 = .ok ⟨1, .count 2, 2⟩ := rfl
  have hcount : count ⟨1, .count 2, 2⟩ [9, 1, 2, 7, 7, 1, 5] ≤ 2 := by decide
  have hrun := run_refines_list hopen (by decide) hcount [.append [3, 4], .remove 0]
  exact ⟨hopen, hcount, hrun.1.trans (by decide)⟩

end AnchorLowering.BoundedSequence
