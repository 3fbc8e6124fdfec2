import AnchorLowering.Layout.BoundedSequence
import Mathlib.Algebra.Group.Nat.Defs

/-!
# Bytes in a buffer

A write replaces the bytes of a span by as many others. Reading the span back gives what was
written, reading a span that does not meet it gives what was there before, and the buffer keeps its
length. All three come down to one fact, `getElem?_splice`, on a single byte after a write.
-/

namespace AnchorLowering.Buffer

open List

variable {start' stop' : Nat} {b : Buffer}

/-! ## Little-endian numbers -/

/-- A count of `width` bytes is below `256 ^ width`. -/
theorem limit_eq (width : Nat) : limit width = 256 ^ width := by
  rw [limit, Nat.one_shiftLeft, Nat.pow_mul]

@[simp] theorem length_ofNat (width n : Nat) : (ofNat width n).length = width := by
  induction width generalizing n with
  | zero => rfl
  | succ width ih => simp only [ofNat, length_cons, ih]

/-- Writing a number in enough bytes and reading it back gives the number. -/
theorem toNat_ofNat {width n : Nat} (h : n < 256 ^ width) : toNat (ofNat width n) = n := by
  induction width generalizing n with
  | zero =>
    rw [Nat.pow_zero] at h
    simp only [ofNat, toNat]
    omega
  | succ width ih =>
    have hrest : n / 256 < 256 ^ width := by
      rw [Nat.pow_succ] at h
      omega
    have hbyte : (UInt8.ofNat n).toNat = n % 256 := by simp
    simp only [ofNat, toNat, ih hrest, hbyte]
    omega

theorem toNat_lt (b : Buffer) : toNat b < 256 ^ b.length := by
  induction b with
  | nil => exact Nat.one_pos
  | cons x b ih =>
    have hx := x.toNat_lt
    rw [toNat, length_cons, Nat.pow_succ]
    omega

/-! ## Reading spans -/

theorem getElem?_slice (b : Buffer) (start stop k : Nat) :
    (b.slice start stop)[k]? = if start + k < stop then b[start + k]? else none := by
  rw [slice, getElem?_drop, getElem?_take]

theorem length_slice {start stop : Nat} (h : stop ≤ b.length) :
    (b.slice start stop).length = stop - start := by
  rw [slice, length_drop, length_take]
  omega

/-- Two buffers that agree on a span have the same bytes there. -/
theorem slice_congr {b' : Buffer} {start stop : Nat}
    (h : ∀ i, start ≤ i → i < stop → b'[i]? = b[i]?) :
    b'.slice start stop = b.slice start stop := by
  apply ext_getElem?
  intro k
  rw [getElem?_slice, getElem?_slice]
  by_cases hk : start + k < stop
  · rw [if_pos hk, if_pos hk, h _ (Nat.le_add_right _ _) hk]
  · rw [if_neg hk, if_neg hk]

/-! ## Writing spans -/

section Splice

variable {b bytes : Buffer} {start stop : Nat}

/-- Bytes that are as long as the stretch they replace keep the length. -/
theorem length_splice (hle : start ≤ stop) (hstop : stop ≤ b.length)
    (hlen : bytes.length = stop - start) : (b.splice start stop bytes).length = b.length := by
  simp only [splice, length_append, length_take, length_drop, hlen]
  omega

/-- A byte after a write: one of those written inside the span, the old one outside. -/
theorem getElem?_splice (hle : start ≤ stop) (hstop : stop ≤ b.length)
    (hlen : bytes.length = stop - start) (k : Nat) :
    (b.splice start stop bytes)[k]? =
      if start ≤ k ∧ k < stop then bytes[k - start]? else b[k]? := by
  have htake : (b.take start).length = start := by
    rw [length_take]
    omega
  rw [splice, append_assoc]
  by_cases hbefore : k < start
  · rw [getElem?_append_left (by omega), getElem?_take, if_pos hbefore, if_neg (by omega)]
  · rw [getElem?_append_right (by omega), htake]
    by_cases hinside : k < stop
    · rw [getElem?_append_left (by omega), if_pos (by omega)]
    · rw [getElem?_append_right (by omega), getElem?_drop, if_neg (by omega)]
      congr 1
      omega

/-- A splice keeps every byte outside the stretch. -/
theorem getElem?_splice_outside (hle : start ≤ stop) (hstop : stop ≤ b.length)
    (hlen : bytes.length = stop - start) {k : Nat} (hk : k < start ∨ stop ≤ k) :
    (b.splice start stop bytes)[k]? = b[k]? := by
  rw [getElem?_splice hle hstop hlen, if_neg (by omega)]

theorem slice_splice_self (hle : start ≤ stop) (hstop : stop ≤ b.length)
    (hlen : bytes.length = stop - start) :
    (b.splice start stop bytes).slice start stop = bytes := by
  apply ext_getElem?
  intro k
  rw [getElem?_slice]
  by_cases hk : start + k < stop
  · rw [if_pos hk, getElem?_splice hle hstop hlen, if_pos (by omega), Nat.add_sub_cancel_left]
  · rw [if_neg hk, getElem?_eq_none (by omega)]

/-- A splice keeps every slice that lies before or after it. -/
theorem slice_splice_of_disjoint (hle : start ≤ stop) (hstop : stop ≤ b.length)
    (hlen : bytes.length = stop - start) (h : stop' ≤ start ∨ stop ≤ start') :
    (b.splice start stop bytes).slice start' stop' = b.slice start' stop' :=
  slice_congr fun _ _ _ => getElem?_splice_outside hle hstop hlen (by omega)

end Splice

/-! ## Buffers that differ in one span -/

/-- The buffers have one length and agree on every byte outside the span. -/
structure SameOutside (start stop : Nat) (b b' : Buffer) : Prop where
  length_eq : b'.length = b.length
  getElem?_eq : ∀ i, i < start ∨ stop ≤ i → b'[i]? = b[i]?

namespace SameOutside

variable {b b' b'' : Buffer} {start stop : Nat}

theorem refl (start stop : Nat) (b : Buffer) : SameOutside start stop b b :=
  ⟨rfl, fun _ _ => rfl⟩

theorem trans (h : SameOutside start stop b b') (h' : SameOutside start stop b' b'') :
    SameOutside start stop b b'' :=
  ⟨h'.length_eq.trans h.length_eq, fun i hi => (h'.getElem?_eq i hi).trans (h.getElem?_eq i hi)⟩

/-- A change inside a stretch is a change inside a longer one. -/
theorem mono (h : SameOutside start stop b b') (hstart : start' ≤ start)
    (hstop : stop ≤ stop') : SameOutside start' stop' b b' :=
  ⟨h.length_eq, fun i hi => h.getElem?_eq i (by omega)⟩

theorem splice {bytes : Buffer} (hle : start ≤ stop) (hstop : stop ≤ b.length)
    (hlen : bytes.length = stop - start) :
    SameOutside start stop b (b.splice start stop bytes) :=
  ⟨length_splice hle hstop hlen, fun _ hi => getElem?_splice_outside hle hstop hlen hi⟩

/-- A span that does not meet the one that changed reads the same. -/
theorem slice_eq (h : SameOutside start stop b b')
    (hdisj : stop' ≤ start ∨ stop ≤ start') : b'.slice start' stop' = b.slice start' stop' :=
  slice_congr fun i _ _ => h.getElem?_eq i (by omega)

end SameOutside

end AnchorLowering.Buffer
