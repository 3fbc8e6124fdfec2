import AnchorLowering.Proofs.SequenceRefinement

/-!
# Operations stay in their field

The counter of a sequence is part of the data, so it may say anything. An operation is *contained*
on a buffer if it keeps the length and every byte outside the field, answers and writes as it would
if there were nothing but the field, returns elements of the right size only, and changes nothing
when it refuses.

Main result: `contained_iff`.

Nothing but appending compares the counter with the capacity, so a counter beyond it makes the other
operations leave the field (`remove_leaves_field`).
-/

namespace AnchorLowering.BoundedSequence

open List

open Buffer (SameOutside)

variable {s : BoundedSequence} {b pre f post f' : Buffer} {i n k m : Nat} {op : Op}
  {r : Except Fault Answer}

/-- The elements in an answer. -/
def Answer.items : Answer → List Buffer
  | element item => [item]
  | elementIfAny item => item.toList
  | elements items => items
  | _ => []

/-- The sequence in a buffer that is nothing but its field. -/
def alone (s : BoundedSequence) : BoundedSequence := { s with offset := 0 }

/-- The operation stays within the field of the sequence, in what it writes, what it reads and what
it returns. -/
structure Contained (s : BoundedSequence) (op : Op) (b : Buffer) : Prop where
  writes : SameOutside s.offset s.stop b (op.exec s b).2
  reads : (op.exec s b).1 = (op.exec s.alone (b.slice s.offset s.stop)).1 ∧
    (op.exec s b).2.slice s.offset s.stop = (op.exec s.alone (b.slice s.offset s.stop)).2
  sized : ∀ answer, (op.exec s b).1 = .ok answer → ∀ item ∈ answer.items,
    item.length = s.elementSize
  refused : ∀ fault, (op.exec s b).1 = .error fault → (op.exec s b).2 = b

/-! ## The field in its buffer -/

theorem slotStart_succ (s : BoundedSequence) (i : Nat) :
    s.slotStart (i + 1) = s.slotStart i + s.elementSize := by
  rw [slotStart, slotStart, Nat.add_mul, Nat.one_mul, Nat.add_assoc]

theorem slotStart_mono {j : Nat} (h : i ≤ j) : s.slotStart i ≤ s.slotStart j :=
  Nat.add_le_add_left (Nat.mul_le_mul_right _ h) _

/-- A slice that lies in the field is one of the field. -/
theorem slice_between (h : m ≤ f.length) :
    Buffer.slice (pre ++ (f ++ post)) (pre.length + k) (pre.length + m) = f.slice k m := by
  rw [Buffer.slice, Buffer.slice, take_length_add_append, drop_length_add_append,
    take_append_of_le_length h]

/-- A splice that lies in the field is one of the field. -/
theorem splice_between (h : k ≤ m) (hm : m ≤ f.length) (bytes : Buffer) :
    Buffer.splice (pre ++ (f ++ post)) (pre.length + k) (pre.length + m) bytes =
    pre ++ (f.splice k m bytes ++ post) := by
  rw [Buffer.splice, Buffer.splice, take_length_add_append, drop_length_add_append,
    take_append_of_le_length (Nat.le_trans h hm), drop_append_of_le_length hm]
  simp only [append_assoc]

section

variable (hpre : pre.length = s.offset) (hf : f.length = s.alone.stop)
include hpre

theorem start_eq (k : Nat) : s.slotStart k = pre.length + s.alone.slotStart k := by
  rw [slotStart, slotStart, hpre]
  exact congrArg _ (Nat.zero_add _).symm

theorem stop_eq :
    s.counterOffset = pre.length + s.alone.counterOffset ∧ s.stop = pre.length + s.alone.stop := by
  have hcounter : s.counterOffset = pre.length + s.alone.counterOffset := start_eq hpre _
  exact ⟨hcounter, by rw [stop, hcounter, Nat.add_assoc]; rfl⟩

theorem readSlot_between (h : s.alone.slotStart (i + 1) ≤ f.length) :
    s.readSlot i (pre ++ (f ++ post)) = s.alone.readSlot i f := by
  rw [slotStart_succ] at h
  rw [readSlot, start_eq hpre, Nat.add_assoc]
  exact slice_between h

theorem writeSlot_between (h : s.alone.slotStart (i + 1) ≤ f.length) (item : Buffer) :
    s.writeSlot i item (pre ++ (f ++ post)) = pre ++ (s.alone.writeSlot i item f ++ post) := by
  rw [slotStart_succ] at h
  rw [writeSlot, start_eq hpre, Nat.add_assoc]
  exact splice_between (Nat.le_add_right _ _) h item

/-- Moving elements down stays in the field, by induction on their number. -/
theorem shiftDown_between (h : s.alone.slotStart (i + n + 1) ≤ f.length) :
    s.shiftDown i n (pre ++ (f ++ post)) = pre ++ (s.alone.shiftDown i n f ++ post) := by
  induction n generalizing i f with
  | zero => rfl
  | succ n ih =>
    have hnext : s.alone.slotStart (i + 1 + 1) ≤ f.length :=
      Nat.le_trans (slotStart_mono (by omega)) h
    have hlast := slotStart_succ s.alone (i + 1)
    have hslot := slotStart_succ s.alone i
    have hlen : (s.alone.readSlot (i + 1) f).length = s.alone.elementSize :=
      length_readSlot (by omega)
    have hw := (sameOutside_writeSlot (s := s.alone) (i := i) (Nat.le_refl f.length)
      (by omega) hlen).length_eq
    rw [shiftDown, readSlot_between hpre hnext, writeSlot_between hpre (by omega)]
    refine ih ?_
    rwa [hw, Nat.add_right_comm i 1 n]

include hf

theorem count_between : s.count (pre ++ (f ++ post)) = s.alone.count f := by
  rw [count, (stop_eq hpre).1, (stop_eq hpre).2, slice_between (Nat.le_of_eq hf.symm)]
  rfl

theorem setCount_between :
    s.setCount n (pre ++ (f ++ post)) = pre ++ (s.alone.setCount n f ++ post) := by
  rw [setCount, (stop_eq hpre).1, (stop_eq hpre).2]
  exact splice_between s.alone.counterOffset_le_stop (Nat.le_of_eq hf.symm) _

theorem slice_field : Buffer.slice (pre ++ (f ++ post)) s.offset s.stop = f := by
  rw [(stop_eq hpre).2, ← hpre, ← hf]
  exact (slice_between (k := 0) (Nat.le_refl _)).trans (by simp [Buffer.slice])

/-- An operation that does to the buffer what it does to the field. -/
theorem Contained.of_between (hexec : op.exec s.alone f = (r, f'))
    (hbetween : op.exec s (pre ++ (f ++ post)) = (r, pre ++ (f' ++ post)))
    (hlen : f'.length = f.length)
    (hsized : ∀ answer, r = .ok answer → ∀ item ∈ answer.items, item.length = s.elementSize)
    (hrefused : ∀ fault, r = .error fault → f' = f) : Contained s op (pre ++ (f ++ post)) := by
  have hsplice : pre ++ (f' ++ post) = Buffer.splice (pre ++ (f ++ post)) s.offset s.stop f' := by
    rw [(stop_eq hpre).2, ← hpre, ← hf]
    exact ((splice_between (k := 0) (Nat.zero_le _) (Nat.le_refl _) f').trans
      (by simp [Buffer.splice])).symm
  refine ⟨?_, ?_, by rwa [hbetween], fun fault h => ?_⟩
  · have hstop := (stop_eq hpre).2
    rw [hbetween, hsplice]
    exact .splice (by omega) (by simp; omega) (by omega)
  · rw [hbetween, slice_field hpre hf, hexec]
    exact ⟨rfl, slice_field hpre (hlen.trans hf)⟩
  · rw [hbetween] at h ⊢
    rw [hrefused fault h]

variable (post) in
theorem stop_le_length : s.alone.stop ≤ f.length ∧ s.stop ≤ (pre ++ (f ++ post)).length := by
  have hstop := (stop_eq hpre).2
  simp only [length_append]
  omega

/-! ## One operation -/

/-- An operation that changes nothing and answers by the field, without an element of the wrong
size. -/
theorem Contained.of_read (hexec : op.exec s.alone f = (r, f))
    (hbetween : op.exec s (pre ++ (f ++ post)) = (r, pre ++ (f ++ post)))
    (hsized : ∀ answer, r = .ok answer → ∀ item ∈ answer.items, item.length = s.elementSize) :
    Contained s op (pre ++ (f ++ post)) :=
  .of_between hpre hf hexec hbetween rfl hsized fun _ _ => rfl

theorem contained_append (hcap : s.capacity.toNat < 2 ^ 64) (item : Buffer) :
    Contained s (.append item) (pre ++ (f ++ post)) := by
  obtain ⟨hfits, hfits'⟩ := stop_le_length post hpre hf
  by_cases hitem : item.length = s.elementSize
  · have hexec : Op.exec s.alone (.append item) f = if s.capacity.toNat ≤
        s.alone.count f then _ else _ :=
      exec_append hfits hcap hitem
    have hexec' := exec_append hfits' hcap hitem
    rw [count_between hpre hf] at hexec'
    by_cases hfull : s.capacity.toNat ≤ s.alone.count f
    · rw [if_pos hfull] at hexec hexec'
      exact .of_read hpre hf hexec hexec' fun _ h => by cases h
    · have hslot := slotStop_le (s := s.alone) (Nat.lt_of_not_le hfull)
      have hstop := s.alone.counterOffset_le_stop
      have hw := (sameOutside_writeSlot (counterOffset_le_length hfits) hslot hitem).length_eq
      rw [if_neg hfull] at hexec hexec'
      rw [writeSlot_between hpre (by rw [slotStart_succ]; omega),
        setCount_between hpre (hw.trans hf)] at hexec'
      exact .of_between hpre hf hexec hexec'
        ((sameOutside_setCount (by rwa [hw]) _).length_eq.trans hw)
        (by rintro _ ⟨⟩ _ ⟨⟩) fun _ h => by cases h
  · have hexec : ∀ (s' : BoundedSequence) (b : Buffer), s'.elementSize = s.elementSize →
        Op.exec s' (.append item) b = (.error (.wrongElementSize s.elementSize item.length),
          b) := by
      intro s' b hsize
      rw [Op.exec, append, if_pos (by rwa [hsize]), hsize]
      rfl
    exact .of_read hpre hf (hexec _ _ rfl) (hexec _ _ rfl) fun _ h => by cases h

theorem contained_clear (hcap : s.capacity.toNat < 2 ^ 64) :
    Contained s .clear (pre ++ (f ++ post)) := by
  obtain ⟨hfits, hfits'⟩ := stop_le_length post hpre hf
  exact .of_between hpre hf (exec_clear hfits hcap)
    (by rw [exec_clear hfits' hcap, setCount_between hpre hf])
    (sameOutside_setCount hfits 0).length_eq (by rintro _ ⟨⟩ _ ⟨⟩) fun _ h => by cases h

theorem contained_isEmpty : Contained s .isEmpty (pre ++ (f ++ post)) := by
  obtain ⟨hfits, hfits'⟩ := stop_le_length post hpre hf
  exact .of_read hpre hf (exec_isEmpty hfits) (by rw [exec_isEmpty hfits', count_between hpre hf])
    (by rintro _ ⟨⟩ _ ⟨⟩)

omit hpre in
/-- An element of the field has the right size exactly if its slot ends there. -/
theorem length_readSlot_iff (hpos : 0 < s.elementSize) :
    (s.alone.readSlot i f).length = s.elementSize ↔ s.alone.slotStart (i + 1) ≤ s.alone.stop := by
  have : s.alone.elementSize = s.elementSize := rfl
  rw [readSlot, Buffer.slice, length_drop, length_take, slotStart_succ]
  omega

theorem Contained.item_length {answer : Answer} {item : Buffer}
    (h : Contained s op (pre ++ (f ++ post)))
    (hexec : op.exec s.alone f = (.ok answer, f')) (hitem : item ∈ answer.items) :
    item.length = s.elementSize := by
  have hanswer := h.reads.1
  rw [slice_field hpre hf, hexec] at hanswer
  exact h.sized _ hanswer _ hitem

theorem contained_get_iff (hpos : 0 < s.elementSize) (index : Int) :
    Contained s (.get index) (pre ++ (f ++ post)) ↔
    (0 ≤ index → index < s.alone.count f → s.alone.slotStart (index.toNat + 1) ≤ s.alone.stop) := by
  obtain ⟨hfits, hfits'⟩ := stop_le_length post hpre hf
  have hexec := exec_get hfits index
  have hexec' := exec_get hfits' index
  rw [count_between hpre hf] at hexec'
  by_cases huse : 0 ≤ index ∧ index < s.alone.count f
  · rw [if_pos huse] at hexec hexec'
    rw [← length_readSlot_iff hf hpos]
    refine ⟨fun h _ _ => h.item_length hpre hf hexec (mem_singleton.2 rfl), fun hlen => ?_⟩
    · have hlen := hlen huse.1 huse.2
      rw [readSlot_between hpre (Nat.le_trans ((length_readSlot_iff hf hpos).1 hlen) hfits)]
        at hexec'
      refine .of_read hpre hf hexec hexec' ?_
      rintro _ ⟨⟩ item hitem
      rwa [mem_singleton.1 hitem]
  · rw [if_neg huse] at hexec hexec'
    exact ⟨fun _ h₁ h₂ => absurd ⟨h₁, h₂⟩ huse, fun _ => .of_read hpre hf hexec hexec'
      (by rintro _ ⟨⟩ _ ⟨⟩)⟩

omit hpre hf in
/-- All of the first slots are within the field if the last of them is. -/
theorem slotStart_le_stop (h : ∀ i, i + 1 = n → s.slotStart (i + 1) ≤ s.stop) :
    s.slotStart n ≤ s.stop := by
  cases n with
  | zero => exact Nat.le_trans (slotStart_mono (Nat.zero_le _)) s.counterOffset_le_stop
  | succ i => exact h i rfl

theorem contained_iter_iff (hpos : 0 < s.elementSize) :
    Contained s .iter (pre ++ (f ++ post)) ↔ s.alone.slotStart (s.alone.count f) ≤
    s.alone.stop := by
  obtain ⟨hfits, hfits'⟩ := stop_le_length post hpre hf
  have hexec := exec_iter hfits
  constructor
  · intro h
    refine slotStart_le_stop fun i hi => (length_readSlot_iff hf hpos).1
      (h.item_length hpre hf hexec ?_)
    exact mem_map_of_mem (mem_range.2 (by omega))
  · intro hslots
    have hslot : ∀ i ∈ range (s.alone.count f), s.alone.slotStart (i + 1) ≤ s.alone.stop :=
      fun i hi =>
      Nat.le_trans (slotStart_mono (mem_range.1 hi)) hslots
    have hlive : s.live (pre ++ (f ++ post)) = s.alone.live f := by
      rw [live, count_between hpre hf]
      exact map_congr_left fun i hi => readSlot_between hpre (Nat.le_trans (hslot i hi) hfits)
    refine .of_read hpre hf hexec (by rw [exec_iter hfits', hlive]) ?_
    rintro _ ⟨⟩ item hitem
    obtain ⟨i, hi, rfl⟩ := mem_map.1 hitem
    exact (length_readSlot_iff hf hpos).2 (hslot i hi)

/-- Removing is contained as long as the counted elements fit into the field. -/
theorem contained_remove (hpos : 0 < s.elementSize)
    (hslots : s.alone.slotStart (s.alone.count f) ≤ s.alone.stop)
    (index : Int) : Contained s (.remove index) (pre ++ (f ++ post)) := by
  obtain ⟨hfits, hfits'⟩ := stop_le_length post hpre hf
  have hcount : s.count (pre ++ (f ++ post)) = s.alone.count f := count_between hpre hf
  by_cases hout : index < 0 ∨ (s.alone.count f : Int) ≤ index
  · exact .of_read hpre hf (exec_remove_of_out hfits hout)
      (by rw [exec_remove_of_out hfits' (by rwa [hcount]), hcount]) fun _ h => by cases h
  · obtain ⟨i, rfl⟩ := Int.eq_ofNat_of_zero_le (show 0 ≤ index by omega)
    have hi : i < s.alone.count f := by omega
    have hlast : i + (s.alone.count f - 1 - i) + 1 = s.alone.count f := by omega
    have hslot : s.alone.slotStart (i + 1) ≤ s.alone.stop := Nat.le_trans (slotStart_mono hi) hslots
    have hshift := (sameOutside_shiftDown (s := s.alone) (i := i)
      (n := s.alone.count f - 1 - i) hfits
      (by rwa [← slotStart_succ, hlast])).length_eq
    have hbetween : s.shiftDown i (s.alone.count f - 1 - i) (pre ++ (f ++ post)) = _ :=
      shiftDown_between hpre (by rw [hlast]; exact Nat.le_trans hslots hfits)
    have hexec' := exec_remove hfits' (i := i) (by omega) (by
      rw [hcount, hbetween]
      exact (stop_le_length post hpre (hshift.trans hf)).2)
    rw [hcount, hbetween, setCount_between hpre (hshift.trans hf),
      readSlot_between hpre (Nat.le_trans hslot hfits)] at hexec'
    refine .of_between hpre hf (exec_remove hfits hi (by rwa [hshift])) hexec'
      ((sameOutside_setCount (by rwa [hshift]) _).length_eq.trans hshift) ?_ fun _ h => by cases h
    rintro _ ⟨⟩ item hitem
    rw [mem_singleton.1 hitem]
    exact (length_readSlot_iff hf hpos).2 hslot

theorem contained_remove_iff (hpos : 0 < s.elementSize) :
    (∀ index, Contained s (.remove index) (pre ++ (f ++ post))) ↔
    s.alone.slotStart (s.alone.count f) ≤ s.alone.stop := by
  obtain ⟨hfits, -⟩ := stop_le_length post hpre hf
  refine ⟨fun h => slotStart_le_stop fun i hi => (length_readSlot_iff hf hpos).1 ?_,
    contained_remove hpre hf hpos⟩
  have hexec := exec_remove hfits (i := i) (by omega)
    (by rwa [show s.alone.count f - 1 - i = 0 by omega])
  exact (h i).item_length hpre hf hexec (mem_singleton.2 rfl)

end

/-- **Sequence operations stay inside their field as far as the counter lets them.** On any buffer
in which a sequence opens, and whatever its counter says: appending, clearing and asking for
emptiness are contained, reading an element is contained exactly if it is not in use or its slot
ends within the field, and iterating is contained, and so is every removal, exactly if the slots
that the counter claims end within the field, as they do up to the capacity. -/
theorem contained_iff {offset : Nat} {capacity : Bound} {elementSize : Int}
    (hopen : openAt b offset capacity elementSize = .ok s) (hsize : b.length < 2 ^ 63) :
    (∀ item, Contained s (.append item) b) ∧ Contained s .clear b ∧ Contained s .isEmpty b ∧
    (∀ index, Contained s (.get index) b ↔
      (0 ≤ index → index < s.count b → s.slotStart (index.toNat + 1) ≤ s.stop)) ∧
    (Contained s .iter b ↔ s.slotStart (s.count b) ≤ s.stop) ∧
    ((∀ index, Contained s (.remove index) b) ↔ s.slotStart (s.count b) ≤ s.stop) ∧
    (s.count b ≤ capacity.toNat → s.slotStart (s.count b) ≤ s.stop) := by
  obtain ⟨hpositive, hs, hfits⟩ := openAt_eq_ok_iff.1 hopen
  have hpos : 0 < s.elementSize := by rw [hs]; show 0 < elementSize.toNat; omega
  have hcapacity : s.capacity = capacity := by rw [hs]
  have hcap : s.capacity.toNat < 2 ^ 64 := by
    have hmul : s.capacity.toNat ≤ s.capacity.toNat * s.elementSize :=
      Nat.le_mul_of_pos_right _ hpos
    have hslots : s.offset + s.capacity.toNat * s.elementSize ≤ s.stop := s.counterOffset_le_stop
    omega
  -- the buffer is cut at both ends of the field
  obtain ⟨pre, f, post, rfl, hpre, hf⟩ : ∃ pre f post : Buffer, b = pre ++ (f ++ post) ∧
      pre.length = s.offset ∧
      f.length = s.alone.stop := by
    have hstop : s.stop = s.offset + s.alone.stop := by
      simp [stop, counterOffset, alone, counterWidth, Nat.add_assoc]
    refine ⟨b.take s.offset, (b.drop s.offset).take s.alone.stop,
      (b.drop s.offset).drop s.alone.stop, ?_, ?_, ?_⟩
    · rw [take_append_drop, take_append_drop]
    · rw [length_take]; omega
    · rw [length_take, length_drop]; omega
  rw [count_between hpre hf, (stop_eq hpre).2]
  simp only [start_eq hpre, Nat.add_le_add_iff_left]
  refine ⟨contained_append hpre hf hcap, contained_clear hpre hf hcap, contained_isEmpty hpre hf,
    contained_get_iff hpre hf hpos, contained_iter_iff hpre hf hpos,
    contained_remove_iff hpre hf hpos, fun hcount => ?_⟩
  rw [← hcapacity] at hcount
  exact Nat.le_trans (slotStart_mono hcount) s.alone.counterOffset_le_stop

/-- The counter says three where one element of two bytes has room: its slots reach beyond the
field, so an iteration leaves it, while appending and reading the first element do not. -/
theorem contained_iff_overcounted :
    openAt [7, 7, 3, 5] 0 (.count 1) 2 = .ok ⟨0, .count 1, 2⟩ ∧
    Contained ⟨0, .count 1, 2⟩ (.append [8, 8]) [7, 7, 3, 5] ∧
    Contained ⟨0, .count 1, 2⟩ (.get 0) [7, 7, 3, 5] ∧
    ¬ Contained ⟨0, .count 1, 2⟩ .iter [7, 7, 3, 5] := by
  have hopen : openAt [7, 7, 3, 5] 0 (.count 1) 2 = .ok ⟨0, .count 1, 2⟩ := rfl
  obtain ⟨happend, -, -, hget, hiter, -⟩ := contained_iff hopen (by decide)
  exact ⟨hopen, happend _, (hget 0).2 (by decide), fun h => absurd (hiter.1 h) (by decide)⟩

/-- Removing the first of two elements where one has room: the second is cut at the end of the
buffer, which gets shorter, and the counter is out of reach, so the removal is refused after the
buffer has changed. Reading the second element returns one that is too short. -/
theorem remove_leaves_field :
    openAt [7, 7, 2] 0 (.count 1) 2 = .ok ⟨0, .count 1, 2⟩ ∧
    Op.exec ⟨0, .count 1, 2⟩ (.remove 0) [7, 7, 2] = (.error .counterUnreachable, [2, 2]) ∧
    Op.exec ⟨0, .count 1, 2⟩ (.get 1) [7, 7, 2] = (.ok (.elementIfAny (some [2])), [7, 7, 2]) :=
  ⟨rfl, rfl, rfl⟩

end AnchorLowering.BoundedSequence
