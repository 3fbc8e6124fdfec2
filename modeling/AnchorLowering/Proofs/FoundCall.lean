import AnchorLowering.Proofs.BracketPartner
import AnchorLowering.Proofs.NestedSequence

/-!
# Calls that are found

Main result: `findCalls_sound`.
-/

namespace AnchorLowering.Source

open List Pattern Lowering

variable {takeSuffix : Bool} {call : Call} {separator : Char} {t : Text}

variable {α : Type} {a c : Marked}

/-! ## Heads -/

inductive IsCallHead : {α : Type} → Pattern α → Prop where
  | assertion : IsCallHead assertionHead
  | macroCall {name : String} (h : name ∈ ["err", "error", "msg", "emit"]) :
      IsCallHead (macroHead name)
  | callContext : IsCallHead callContextHead
  | target {t : CallTarget} (h : t ∈ callTargets) : IsCallHead t.head
  | heap {head : Pattern Unit} (h : head ∈ heapCallHeads) : IsCallHead head
  | log : IsCallHead logHead

theorem IsCallHead.takesHead {head : Pattern α} (h : IsCallHead head) : TakesHead head := by
  cases h with
  | assertion => exact takesHead_assertionHead
  | macroCall h =>
    have hall : ∀ name ∈ ["err", "error", "msg", "emit"], ∀ x ∈ name.toList,
        isHeadChar x = true := by decide
    exact takesHead_macroHead (hall _ h)
  | callContext => exact takesHead_callContextHead
  | target h => exact CallTarget.takesHead_head h
  | heap h => exact takesHead_heapCallHeads _ h
  | log =>
    exact Takes.wordBoundary.bind fun _ => (Takes.oneOf (by decide)).bind fun _ =>
      takesHead_blanks.bind fun _ =>
      takesHead_lit (by decide)

/-! ## Order -/

theorem claimsSpans_callClaim (t : Text) (head : Pattern α) (takeSuffix : Bool) :
    ClaimsSpans (callClaim t head takeSuffix) id Call.start Call.stop := by
  rintro before after _ call n h rfl
  obtain ⟨r, -, heq⟩ := Option.map_eq_some_iff.1 h
  obtain ⟨hcall, hn⟩ := Prod.mk.inj heq
  rw [hcall, Option.elim_some] at hn
  split at hcall
  · obtain ⟨hstart, hstop⟩ := lt_stop_of_callWithHead? hcall
    have hposition : Cursor.position ⟨before, after⟩ = before.length := rfl
    omega
  · cases hcall

theorem pairwise_findCallsWith (takeSuffix : Bool) (head : Pattern α) (t : Text) :
    (findCallsWith takeSuffix head t).Pairwise fun call call' => call.stop ≤ call'.start :=
  (pairwise_scan (claimsSpans_callClaim t head takeSuffix) 0 [] t).2

/-! ## Marks after the call -/

/-- Reading a mark after blanks: whether it is there, what is taken, and what is left. -/
inductive MarkRead (mark : Char) : Bool → Text → Text → Prop where
  | taken {g w : Text} (hg : ∀ x ∈ g, isBlank x = true) : MarkRead mark true (g ++ [mark]) w
  | absent {w : Text} (h : (w.dropWhile isBlank).head? ≠ some mark) : MarkRead mark false [] w

theorem exists_markRead (t : Text) (mark : Char) (index : Nat) : ∃ s w, t.drop index = s ++ w ∧
    MarkRead mark (afterMark? t mark index).isSome s w ∧ (afterMark? t mark index).getD index =
    index + s.length := by
  cases h : afterMark? t mark index with
  | some j =>
    obtain ⟨g, w, hdrop, hg, rfl⟩ := exists_afterMark h
    refine ⟨g ++ [mark], w, by rw [hdrop, append_assoc]; rfl, .taken hg, ?_⟩
    rw [Option.getD_some, length_append, length_singleton, Nat.add_assoc]
  | none =>
    refine ⟨[], t.drop index, rfl, .absent fun hmark => ?_, rfl⟩
    rw [afterMark?, getElem?_skipBlanks, hmark, if_pos (beq_self_eq_true _)] at h
    cases h

/-- What a call takes after its closing bracket is what it says it has. -/
def SuffixRead (takeSuffix hasTry hasSemicolon : Bool) (s w : Text) : Prop :=
  if takeSuffix then ∃ s₁ s₂, s = s₁ ++ s₂ ∧ MarkRead '?' hasTry s₁ (s₂ ++ w) ∧
    MarkRead ';' hasSemicolon s₂ w
  else s = [] ∧ hasTry = false ∧ hasSemicolon = false

theorem exists_suffixRead {hasTry hasSemicolon : Bool} {index stop : Nat}
    (h : (hasTry, hasSemicolon, stop) = if takeSuffix then readSuffix t index else (false, false,
      index)) :
    ∃ s w, t.drop index = s ++ w ∧ SuffixRead takeSuffix hasTry hasSemicolon s w ∧
    stop = index + s.length := by
  cases takeSuffix with
  | false =>
    obtain ⟨rfl, hrest⟩ := Prod.mk.inj h
    obtain ⟨rfl, rfl⟩ := Prod.mk.inj hrest
    exact ⟨[], _, rfl, ⟨rfl, rfl, rfl⟩, rfl⟩
  | true =>
    obtain ⟨rfl, hrest⟩ := Prod.mk.inj h
    obtain ⟨rfl, rfl⟩ := Prod.mk.inj hrest
    obtain ⟨s₁, w₁, hdrop, hread, hstop⟩ := exists_markRead t '?' index
    obtain ⟨s₂, w, hdrop', hread', hstop'⟩ := exists_markRead t ';' (index + s₁.length)
    obtain rfl : w₁ = s₂ ++ w := by rw [← hdrop', ← drop_drop, hdrop, drop_left]
    rw [hstop]
    refine ⟨s₁ ++ s₂, w, by rw [hdrop, append_assoc], ⟨s₁, s₂, rfl, hread, hread'⟩, ?_⟩
    rw [hstop', length_append, Nat.add_assoc]

/-! ## Commas -/

/-- The places of the separators between parts, the first part at `place`. -/
def cutPlaces : Nat → List Text → List Nat
  | place, part :: next :: parts =>
    (place + part.length) :: cutPlaces (place + part.length + 1) (next :: parts)
  | _, _ => []

theorem cutPlaces_consToFirst (c : Char) (parts : List Text) (place : Nat) :
    cutPlaces place (consToFirst c parts) = cutPlaces (place + 1) parts := by
  cases parts with
  | nil => rfl
  | cons part parts =>
    cases parts with
    | nil => rfl
    | cons next parts =>
      rw [consToFirst, cutPlaces, cutPlaces, length_cons, Nat.add_right_comm place 1,
        Nat.add_assoc place part.length 1]

theorem join_consToFirst (separator : Text) (c : Char) (parts : List Text) :
    Text.join separator (consToFirst c parts) = c :: Text.join separator parts := by
  cases parts with
  | nil => rfl
  | cons part parts =>
    cases parts with
    | nil => rfl
    | cons next parts => simp [consToFirst, Text.join, intercalate]

theorem exists_partsAtDepth (separator : Char) (depth : Int) (ms : Marked) :
    ∃ part parts, partsAtDepth separator depth ms = part :: parts := by
  have hfirst : ∀ c (parts : List Text), ∃ part parts', consToFirst c parts = part :: parts' := by
    rintro c (_ | ⟨part, parts⟩)
    · exact ⟨_, _, rfl⟩
    · exact ⟨_, _, rfl⟩
  cases ms with
  | nil => exact ⟨[], [], rfl⟩
  | cons m ms =>
    obtain ⟨c, code⟩ := m
    rw [partsAtDepth]
    split
    · exact hfirst _ _
    · split
      · exact hfirst _ _
      · split
        · exact ⟨_, _, rfl⟩
        · exact hfirst _ _

theorem join_partsAtDepth (separator : Char) (depth : Int) (ms : Marked) :
    Text.join [separator] (partsAtDepth separator depth ms) = ms.map (·.1) := by
  induction ms generalizing depth with
  | nil => rfl
  | cons m ms ih =>
    obtain ⟨c, code⟩ := m
    rw [partsAtDepth, map_cons]
    split
    · rw [join_consToFirst, ih]
    · split
      · rw [join_consToFirst, ih]
      · split
        · rename_i hcut
          simp only [Bool.and_eq_true, beq_iff_eq] at hcut
          obtain ⟨part, parts, hparts⟩ := exists_partsAtDepth separator depth ms
          have hnext := ih depth
          rw [hparts] at hnext ⊢
          rw [← hnext, hcut.1.2]
          simp [Text.join, intercalate]
        · rw [join_consToFirst, ih]

def CutAt (separator : Char) (depth : Int) (ms : Marked) (i : Nat) : Prop :=
  ms[i]? = some (separator, true) ∧ depth + balance (ms.take i) = 0

instance (separator : Char) (depth : Int) (ms : Marked) (i : Nat) :
    Decidable (CutAt separator depth ms i) :=
  inferInstanceAs (Decidable (_ ∧ _))

theorem exists_cutAt_cons {depth depth' : Int} {m : Char × Bool} {ms : Marked} {place k : Nat}
    (hdepth : ∀ r, depth + balance (m :: r) = depth' + balance r)
    (hfirst : ¬ CutAt separator depth (m :: ms) 0) :
    (∃ i, k = place + 1 + i ∧ CutAt separator depth' ms i) ↔ ∃ i, k = place + i ∧
    CutAt separator depth (m :: ms) i := by
  have hsucc : ∀ i, CutAt separator depth (m :: ms) (i + 1) ↔ CutAt separator depth' ms i := by
    intro i
    rw [CutAt, CutAt, getElem?_cons_succ, take_succ_cons, hdepth]
  constructor
  · rintro ⟨i, rfl, hcut⟩
    exact ⟨i + 1, by omega, (hsucc i).2 hcut⟩
  · rintro ⟨i, rfl, hcut⟩
    cases i with
    | zero => exact absurd hcut hfirst
    | succ i => exact ⟨i, by omega, (hsucc i).1 hcut⟩

/-- **A text parts at the separators in code at depth zero, and nowhere else.** -/
theorem mem_cutPlaces (hopener : isOpener separator = false) (hcloser : isCloser separator = false)
    (depth : Int) (ms : Marked) (place k : Nat) :
    k ∈ cutPlaces place (partsAtDepth separator depth ms) ↔ ∃ i, k = place + i ∧
    CutAt separator depth ms i := by
  induction ms generalizing depth place with
  | nil =>
    refine iff_of_false not_mem_nil ?_
    rintro ⟨i, -, hi, -⟩
    simp at hi
  | cons m ms ih =>
    obtain ⟨c, code⟩ := m
    rw [partsAtDepth]
    split
    · rename_i hopen
      obtain ⟨rfl, hc⟩ := Bool.and_eq_true_iff.1 hopen
      rw [cutPlaces_consToFirst, ih]
      refine exists_cutAt_cons (fun r => by rw [balance_opener hc]; omega) ?_
      rintro ⟨hfirst, -⟩
      obtain ⟨rfl, -⟩ := Prod.mk.inj (Option.some.inj hfirst)
      rw [hopener] at hc
      cases hc
    · rename_i hopen
      split
      · rename_i hclose
        obtain ⟨rfl, hc⟩ := Bool.and_eq_true_iff.1 hclose
        rw [cutPlaces_consToFirst, ih]
        refine exists_cutAt_cons (fun r => by rw [balance_closer hc]; omega) ?_
        rintro ⟨hfirst, -⟩
        obtain ⟨rfl, -⟩ := Prod.mk.inj (Option.some.inj hfirst)
        rw [hcloser] at hc
        cases hc
      · rename_i hclose
        have hdepth : ∀ r, depth + balance ((c, code) :: r) = depth + balance r := by
          intro r
          cases code with
          | false => rw [balance_sealed]
          | true => rw [balance_other (by simpa using hopen) (by simpa using hclose)]
        split
        · -- this separator is a cut itself
          rename_i hcut
          simp only [Bool.and_eq_true, beq_iff_eq] at hcut
          obtain ⟨⟨rfl, rfl⟩, rfl⟩ := hcut
          obtain ⟨part, parts, hparts⟩ := exists_partsAtDepth c 0 ms
          have hrest := ih 0 (place + 1)
          rw [hparts] at hrest ⊢
          rw [cutPlaces, length_nil, mem_cons, Nat.add_zero, hrest]
          constructor
          · rintro (rfl | ⟨i, rfl, hi, hzero⟩)
            · exact ⟨0, rfl, rfl, rfl⟩
            · exact ⟨i + 1, by omega, by rwa [getElem?_cons_succ], by rwa [take_succ_cons, hdepth]⟩
          · rintro ⟨i, rfl, hi, hzero⟩
            cases i with
            | zero => exact .inl rfl
            | succ i =>
              rw [getElem?_cons_succ] at hi
              rw [take_succ_cons, hdepth] at hzero
              exact .inr ⟨i, by omega, hi, hzero⟩
        · rename_i hcut
          rw [cutPlaces_consToFirst, ih]
          refine exists_cutAt_cons hdepth ?_
          rintro ⟨hfirst, hzero⟩
          obtain ⟨rfl, rfl⟩ := Prod.mk.inj (Option.some.inj hfirst)
          rw [take_zero, balance_nil, Int.add_zero] at hzero
          exact hcut (by simp [hzero])

/-! ## Where a call stands -/

/-- What a text says of a call: `u` comes before it, `g` between its head and its opener `x`, the
closer `y` after its argument text, then the marks `s`, and `w` after all of it. -/
structure Call.StandsIn (t : Text) (head : Pattern α) (takeSuffix : Bool) (call : Call)
    (u g s w : Text) (x y : Char) :
    Prop where
  text : t = u ++ (call.head ++ (g ++ x :: (call.argsText ++ y :: (s ++ w))))
  start : call.start = u.length
  stop : call.stop + w.length = t.length
  code : inCode t call.start = true
  head : (head.firstAt ((Cursor.start t).advance call.start)).map (·.2) = some call.head.length
  gap : ∀ z ∈ g, isBlank z = true
  opener : isOpener x = true ∧ inCode t (u ++ (call.head ++ g)).length = true
  partner : matchingClose t (u ++ (call.head ++ g)).length =
    some (u ++ (call.head ++ (g ++ x :: call.argsText))).length
  suffix : SuffixRead takeSuffix call.hasTry call.hasSemicolon s w

/-- The argument text between the places `first` and `close` is read as in the whole text, and the
arguments are its trimmed parts, cut at the commas that are in code there and outside brackets. -/
structure Call.ArgumentsIn (t : Text) (call : Call) (first close : Nat) (parts : List Text) :
    Prop where
  marks : marked call.argsText = ((marked t).take close).drop first
  text : call.argsText = Text.join ",".toList parts
  args : call.args = dropEmptyLast (parts.map Text.trim)
  cuts : ∀ k, k ∈ cutPlaces first parts ↔ first ≤ k ∧ k < close ∧ t[k]? = some ',' ∧
    inCode t k = true ∧
    balance (((marked t).take k).drop first) = 0

theorem exists_between {u r : Text} {x : Char} {U V : Marked} {close : Nat} (ht : t = u ++ x :: r)
    (hopener : isOpener x = true) (hmarked : marked t = U ++ (x, true) :: V)
    (hlen : U.length = u.length) (hclose : matchingClose t u.length = some close) :
    ∃ v y w, r = v ++ y :: w ∧ close = u.length + 1 + v.length ∧
      marked t = marked u ++ (x, true) :: (marked v ++ (y, true) :: marked w) := by
  have hword : ∀ {z : Char}, isBracket z = true → isWord z = false :=
    fun h => not_isWord_of_isBracket h
  obtain ⟨u', r', ht', hu', hr'⟩ :=
    marked_of_append hmarked (hword (by rw [isBracket, hopener]; rfl))
  rw [ht] at ht'
  obtain ⟨rfl, htail⟩ := List.append_inj ht' (by rw [← hlen, ← hu', length_marked])
  obtain ⟨-, rfl⟩ := cons.inj htail
  have hi : (marked t)[u.length]? = some (x, true) := by
    rw [hmarked, ← hlen, getElem?_append_right (Nat.le_refl _), Nat.sub_self]
    rfl
  -- the partner is the first closer at which the search stops
  obtain ⟨⟨hafter, ⟨y, hy, hcloser⟩, hcode, -⟩, -⟩ :=
    (matchingClose_eq_some_iff hopener hi close).1 hclose
  have hmark := getElem?_marked_eq_some_iff.2 ⟨hy, hcode⟩
  obtain ⟨k, rfl⟩ : ∃ k, close = u.length + 1 + k := ⟨close - u.length - 1, by omega⟩
  have hoffset : (marked r)[k]? = some (y, true) := by
    rw [hmarked, getElem?_append_right (by omega), hlen, show u.length + 1 + k - u.length =
      k + 1 by omega,
      getElem?_cons_succ] at hmark
    rwa [hr']
  obtain ⟨hlt, hget⟩ := List.getElem?_eq_some_iff.1 hoffset
  have hsplit : marked r = (marked r).take k ++ (y, true) :: (marked r).drop (k + 1) := by
    rw [← hget, ← drop_eq_getElem_cons hlt, take_append_drop]
  obtain ⟨v, w, rfl, hv, hw⟩ :=
    marked_of_append hsplit (hword (by rw [isBracket, hcloser, Bool.or_true]))
  refine ⟨v, y, w, rfl, ?_, by rw [hmarked, ← hu', ← hr', hsplit, hv, hw]⟩
  rw [← length_marked v, hv, length_take_of_le hlt.le]

theorem exists_cutAt_middle {b : Marked} (h : marked t = a ++ (b ++ c)) (separator : Char)
    (k : Nat) :
    (∃ i, k = a.length + i ∧ CutAt separator 0 b i) ↔ a.length ≤ k ∧ k < a.length + b.length ∧
    t[k]? = some separator ∧
      inCode t k = true ∧ balance (((marked t).take k).drop a.length) = 0 := by
  have hmark : ∀ i < b.length, (marked t)[a.length + i]? = b[i]? := by
    intro i hi
    rw [h, getElem?_append_right (by omega), Nat.add_sub_cancel_left, getElem?_append_left hi]
  have htake : ∀ i ≤ b.length, ((marked t).take (a.length + i)).drop a.length = b.take i := by
    intro i hi
    rw [h, drop_take, drop_left, Nat.add_sub_cancel_left, take_append_of_le_length hi]
  constructor
  · rintro ⟨i, rfl, hi, hzero⟩
    have hlt : i < b.length := (List.getElem?_eq_some_iff.1 hi).1
    obtain ⟨hchar, hcode⟩ := getElem?_marked_eq_some_iff.1 ((hmark i hlt).trans hi)
    rw [Int.zero_add] at hzero
    exact ⟨by omega, by omega, hchar, hcode, by rw [htake i hlt.le, hzero]⟩
  · rintro ⟨hle, hlt, hchar, hcode, hzero⟩
    obtain ⟨i, rfl⟩ := Nat.exists_eq_add_of_le hle
    have hi : i < b.length := by omega
    rw [htake i hi.le] at hzero
    refine ⟨i, rfl, ?_, by rw [hzero]; rfl⟩
    rw [← hmark i hi]
    exact getElem?_marked_eq_some_iff.2 ⟨hchar, hcode⟩

/-- **The arguments part at the commas of the text.** -/
theorem argumentsIn (h : marked t = a ++ (marked call.argsText ++ c)) :
    call.ArgumentsIn t a.length (a.length + call.argsText.length)
      (partsAtDepth ',' 0 (marked call.argsText)) where
  marks := by
    rw [h]
    exact (drop_take_middle a _ c rfl (by rw [length_marked])).symm
  text := by
    refine Eq.symm ?_
    rw [← map_fst_marked call.argsText]
    exact (join_partsAtDepth ',' 0 _).trans (by rw [map_fst_marked])
  args := rfl
  cuts := fun k => by
    rw [mem_cutPlaces (by decide) (by decide), exists_cutAt_middle h, length_marked]

/-- **What is found is a call.** -/
theorem exists_standsIn {head : Pattern α} (hhead : TakesHead head)
    (hcall : call ∈ findCallsWith takeSuffix head t) :
    ∃ u g s w x y, call.StandsIn t head takeSuffix u g s w x y ∧
      ∃ parts, call.ArgumentsIn t ((u ++ (call.head ++ g)).length + 1)
        (u ++ (call.head ++ (g ++ x :: call.argsText))).length parts := by
  obtain ⟨u, g, r, x, close, h⟩ := exists_opensAt hhead hcall
  obtain ⟨U, V, hmarked, hlenU⟩ := h.exists_marked
  have ht : t = (u ++ (call.head ++ g)) ++ x :: r := by
    rw [h.text]
    simp
  obtain ⟨v, y, r, rfl, rfl, hcut⟩ := exists_between ht h.opener
    (U := U ++ (call.head ++ g).map fun z => (z, true)) (V := V) (by rw [hmarked]; simp)
    (by simp [hlenU]) h.partner
  have hlen : (u ++ (call.head ++ g)).length + 1 = (u ++ (call.head ++ g) ++ [x]).length := by
    simp only [length_append, length_singleton]
  obtain rfl : call.argsText = v := by
    rw [h.args, Text.slice, hlen, show t = (u ++ (call.head ++ g) ++ [x]) ++
      (v ++ y :: r) by rw [ht]; simp]
    exact drop_take_middle _ _ _ rfl rfl
  have hclose : (u ++ (call.head ++ g)).length + 1 + call.argsText.length =
      (u ++ (call.head ++ (g ++ x :: call.argsText))).length := by
    simp only [length_append, length_cons]
    omega
  obtain ⟨s, w, hdrop, hsuffix, hstop⟩ := exists_suffixRead h.suffix
  obtain rfl : r = s ++ w := by
    rw [← hdrop, show t = (u ++ (call.head ++ g) ++ [x] ++ call.argsText ++ [y]) ++
      r by rw [ht]; simp,
      drop_left' (by simp only [length_append, length_singleton])]
  refine ⟨u, g, s, w, x, y, ?_, ?_⟩
  · have hopener : (marked t)[(u ++ (call.head ++ g)).length]? = some (x, true) := by
      rw [hcut, ← length_marked, getElem?_append_right (Nat.le_refl _), Nat.sub_self]
      rfl
    have hadvance : (Cursor.start t).advance call.start =
        ⟨u.reverse, call.head ++ (g ++ x :: (call.argsText ++ y :: (s ++ w)))⟩ := by
      rw [Cursor.start, Cursor.advance_eq, h.start, h.text, take_left, drop_left, append_nil]
    exact { text := h.text, start := h.start, gap := h.gap, suffix := hsuffix
            code := by rw [h.start]; exact h.code
            head := by rw [hadvance]; exact h.head
            opener := ⟨h.opener, (getElem?_marked_eq_some_iff.1 hopener).2⟩
            partner := by rw [h.partner, hclose]
            stop := by
              rw [hstop, ht]
              simp only [length_append, length_cons]
              omega }
  · have hmiddle : marked t = (marked (u ++ (call.head ++ g)) ++ [(x, true)]) ++
        (marked call.argsText ++ (y, true) :: marked (s ++ w)) := by
      rw [hcut, append_cons]
    have harguments := argumentsIn hmiddle
    rw [length_append, length_marked, length_singleton, hclose] at harguments
    exact ⟨_, harguments⟩

/-! ## No call is passed over -/

/-- At the place the head matches in code and is followed by an argument list. -/
def StartsCall (t : Text) (head : Pattern α) (takeSuffix : Bool) (i : Nat) : Prop :=
  ∃ v n, i < t.length ∧ inCode t i = true ∧ head.firstAt ((Cursor.start t).advance i) =
  some (v, n) ∧
    (callWithHead? t takeSuffix i (i + n)).isSome = true

/-- At the place the head matches up to `stop`, but in a sealed region or without an argument
list. -/
def IdleHead (t : Text) (head : Pattern α) (takeSuffix : Bool) (i stop : Nat) : Prop :=
  (head.firstAt ((Cursor.start t).advance i)).map (i + ·.2) = some stop ∧
    (inCode t i = true → callWithHead? t takeSuffix i stop = none)

/-- **Where a call starts, a call is found, or an earlier call or idle head reaches beyond the
place.** -/
theorem covered_of_startsCall {head : Pattern α} {i : Nat} (h : StartsCall t head takeSuffix i) :
    (∃ call ∈ findCallsWith takeSuffix head t, call.start ≤ i ∧ i < call.stop) ∨
      ∃ j stop, j < i ∧ i < stop ∧ IdleHead t head takeSuffix j stop := by
  obtain ⟨v, n, hi, hcode, hfirst, hsome⟩ := h
  obtain ⟨call, hcall⟩ := Option.isSome_iff_exists.1 hsome
  have hstop := (lt_stop_of_callWithHead? hcall).2
  rw [Cursor.start, Cursor.advance_eq] at hfirst
  have hlen : ((t.take i).reverse ++ []).length = i := by
    rw [append_nil, length_reverse, length_take_of_le hi.le]
  obtain ⟨k, hk⟩ : ∃ k, call.stop - i = k + 1 := ⟨call.stop - i - 1, by omega⟩
  have hclaim : callClaim t head takeSuffix ⟨(t.take i).reverse ++ [], t.drop i⟩ =
      some (some call, k + 1) := by
    simp only [callClaim, hfirst, Option.map_some, Cursor.position, hlen]
    rw [show (codeMask t).getD i true = true from hcode, if_pos rfl, hcall, Option.elim_some, hk]
  have hne : t.drop i ≠ [] := ne_nil_of_length_pos (by rw [length_drop]; omega)
  rcases exists_claimed_covering hne (t.take i) 0 [] hclaim with hlt | ⟨u, u', found, m, w, hsplit,
    hfound, hlt, hmem⟩
  · cases hlt
  have ht : t = u ++ (u' ++ t.drop i) := by
    rw [← append_assoc, ← hsplit, take_append_drop]
  have hplace : u.length + u'.length = i := by
    rw [← length_append, ← hsplit, length_take_of_le hi.le]
  rw [take_append_drop] at hmem
  cases found with
  | some call' =>
    obtain ⟨hstart, hstop⟩ := claimsSpans_callClaim t head takeSuffix hfound rfl
    rw [append_nil, length_reverse] at hstart hstop
    exact .inl ⟨call', mem_filterMap.2 ⟨_, hmem, rfl⟩, by omega, by omega⟩
  | none =>
    obtain ⟨r, hr, heq⟩ := Option.map_eq_some_iff.1 hfound
    obtain ⟨hnone, hwidth⟩ := Prod.mk.inj heq
    rw [hnone, Option.elim_none] at hwidth
    have hadvance : (Cursor.start t).advance u.length = ⟨u.reverse ++ [], u' ++ t.drop i⟩ := by
      rw [Cursor.start, Cursor.advance_eq]
      conv => lhs; rw [ht]
      rw [take_left, drop_left]
    refine .inr ⟨u.length, u.length + (m + 1), ?_,
      by omega, by rw [hadvance, hr, Option.map_some, hwidth], fun hcode' => ?_⟩
    · -- at the place itself there is a call
      have hpos : u' ≠ [] := by
        rintro rfl
        rw [append_nil] at hsplit
        rw [← hsplit, nil_append, hclaim] at hfound
        cases hfound
      have := length_pos_iff.2 hpos
      omega
    · simp only [Cursor.position, append_nil, length_reverse, hwidth] at hnone
      rwa [show (codeMask t).getD u.length true = true from hcode', if_pos rfl] at hnone

/-! ## The search for calls -/

/-- **The search for calls.** For every head that is searched for, the calls found in a text follow
one another without overlap. Each has characters, stands in the text as its parts say, and its
arguments are those of the text. Where a call starts that is not found, another one or an idle head
reaches beyond the place. -/
theorem findCalls_sound {head : Pattern α} (hhead : IsCallHead head) (takeSuffix : Bool)
    (t : Text) :
    ((findCallsWith takeSuffix head t).Pairwise fun call call' => call.stop ≤ call'.start) ∧
      (∀ call ∈ findCallsWith takeSuffix head t, call.start < call.stop ∧
        ∃ u g s w x y, call.StandsIn t head takeSuffix u g s w x y ∧
          ∃ parts, call.ArgumentsIn t ((u ++ (call.head ++ g)).length + 1)
            (u ++ (call.head ++ (g ++ x :: call.argsText))).length parts) ∧
      ∀ i, StartsCall t head takeSuffix i →
        (∃ call ∈ findCallsWith takeSuffix head t, call.start ≤ i ∧ i < call.stop) ∨
          ∃ j stop, j < i ∧ i < stop ∧ IdleHead t head takeSuffix j stop := by
  refine ⟨pairwise_findCallsWith takeSuffix head t,
    fun call hcall => ⟨?_, exists_standsIn hhead.takesHead hcall⟩, fun i => covered_of_startsCall⟩
  obtain ⟨u, v, r, -, -, -, hwith⟩ := exists_head_of_mem_findCallsWith hcall
  have hbounds := lt_stop_of_callWithHead? hwith
  omega

/-- A message with a comma in its literal, one in brackets and a call among its arguments, a comment
with a message in it, and another message. -/
def messages : Text := "msg! [\"a, b\", f(x, y), msg!(c)] ? ; // msg!(d)\nmsg!(e)".toList

def firstMessage : Call where
  start := 0
  stop := 35
  head := "msg!".toList
  argsText := "\"a, b\", f(x, y), msg!(c)".toList
  hasTry := true
  hasSemicolon := true

/-- The first message has three arguments and both marks, the next one comes after it, and the one
among its arguments is passed over because the first one reaches beyond it. -/
theorem findCalls_sound_messages :
    (findCallsWith true (macroHead "msg") messages).map (fun call => (call.start, call.stop)) =
    [(0, 35), (47, 54)] ∧
      ((findCallsWith true (macroHead "msg") messages).Pairwise fun call call' => call.stop ≤
        call'.start) ∧
      (firstMessage ∈ findCallsWith true (macroHead "msg") messages ∧ firstMessage.start <
        firstMessage.stop ∧
        ∃ u g s w x y, firstMessage.StandsIn messages (macroHead "msg") true u g s w x y) ∧
      firstMessage.args.map String.ofList = ["\"a, b\"", "f(x, y)", "msg!(c)"] ∧
      (StartsCall messages (macroHead "msg") true 23 ∧
        ((∃ call ∈ findCallsWith true (macroHead "msg") messages, call.start ≤ 23 ∧
          23 < call.stop) ∨
          ∃ j stop, j < 23 ∧ 23 < stop ∧ IdleHead messages (macroHead "msg") true j stop)) := by
  have hhead : IsCallHead (macroHead "msg") := .macroCall (by decide)
  obtain ⟨hpair, hcalls, hcovered⟩ := findCalls_sound hhead true messages
  have hfirst : firstMessage ∈ findCallsWith true (macroHead "msg") messages := by decide +kernel
  have hinner : StartsCall messages (macroHead "msg") true 23 :=
    ⟨(), 4, by decide +kernel, by decide +kernel, by decide +kernel, by decide +kernel⟩
  obtain ⟨hlt, u, g, s, w, x, y, hstands, -⟩ := hcalls _ hfirst
  exact ⟨by decide +kernel, hpair, ⟨hfirst, hlt, u, g, s, w, x, y, hstands⟩, by decide +kernel,
    hinner, hcovered 23 hinner⟩

end AnchorLowering.Source
