import AnchorLowering.Proofs.CommentIndependence
import AnchorLowering.Proofs.FoundCall

/-!
# Offsets of operations

The operations of a body are found once and then lowered from right to left, in a text that changes
with each step. Their places stay right.

**Theorem (`operations_keep_offsets`).** When an operation's turn comes, the text up to the end of
its match is still that of the body and read as there, and after blanks comes the opening bracket,
in code. The step changes nothing before the operation. It replaces the operation, up to the partner
of the bracket and the marks after it, by what the operation becomes with the argument text as it is
then.
-/

namespace AnchorLowering.Lowering

open List Pattern Source

variable {s : Scope} {m : Match (SequencePlace × SequenceOp)} {body cur : Text} {limit : Nat}

theorem isName_of_resolve? (hlocals : s.locals = [] ∨ ∃ t, s.locals = localSequences t)
    (place : SequencePlace)
    (f : SequenceField) (hwell : place.WellNamed) (h : s.resolve? place = some f) :
    IsName f.name := by
  rw [Scope.resolve?] at h
  split at h
  · obtain hnil | ⟨t, ht⟩ := hlocals
    · rw [hnil] at h
      cases h
    · obtain ⟨l, l', hsplit, -⟩ := lookup_eq_some_iff.1 (ht ▸ h)
      exact (isName_of_mem_localSequences (e := (place.name, f)) (by rw [hsplit]; simp)).2.1
  · obtain ⟨owner, -, hf⟩ := Option.bind_eq_some_iff.1 h
    have hname := find?_some hf
    simp only [Bool.and_eq_true, beq_iff_eq] at hname
    exact hname.2 ▸ ⟨hwell.name_ne_nil, hwell.name⟩

theorem SameUpTo.sameMarks (h : SameUpTo limit body cur) : SameMarks limit body cur := by
  obtain ⟨P, S, N, hbody, hcur, hlen⟩ := h
  rw [← length_markedPieces] at hlen
  rw [SameMarks, marked_eq, marked_eq, hbody, hcur, markedPieces_append, markedPieces_append,
    take_append_of_le_length hlen, take_append_of_le_length hlen]

/-- An operation whose opening bracket is at `i` is lowered: up to the partner of the bracket,
`inner` further on, and the marks `taken` after it, it is replaced by what it becomes with the
arguments `inner`. -/
structure LoweredAt (s : Scope) (m : Match (SequencePlace × SequenceOp)) (cur : Text) (i : Nat)
    (f : SequenceField)
    (inner : Text) (closer : Char) (taken rest : Text) : Prop where
  resolved : s.resolve? m.value.1 = some f
  partner : matchingClose cur i = some (i + 1 + inner.length)
  text : cur = cur.take (i + 1) ++ (inner ++ closer :: (taken ++ rest))
  marks : ∀ x ∈ taken, isBlank x = true ∨ x = '?' ∨ x = ';'
  stop : m.value.2.stop cur m.start (i + 1 + inner.length + 1) = i + 1 + inner.length + 1 +
    taken.length
  accepted : m.value.2.accepts (Text.trim inner) = true
  result : lowerOperation s m cur = cur.take m.start ++
    (m.value.2.render m.value.1.receiver f (Text.trim inner) ++ rest)

theorem loweredAt_or_eq {i : Nat} {u r : Text} (hskip : skipBlanks cur m.stop = i)
    (hi : i = u.length) (hcur : cur = u ++ '(' :: r)
    (hpartner : ∀ close ∈ matchingClose cur i, ∃ inner closer w, r = inner ++ closer :: w ∧
      close = i + 1 + inner.length) :
    (∃ f inner closer taken rest, LoweredAt s m cur i f inner closer taken rest) ∨
      lowerOperation s m cur = cur ∧ (s.resolve? m.value.1 = none ∨ ∀ close ∈ matchingClose cur i,
        m.value.2.accepts (Text.trim (cur.slice (i + 1) close)) = false) := by
  rw [lowerOperation_eq_edit, operationEdit?, hskip]
  cases hf : s.resolve? m.value.1 with
  | none => exact .inr ⟨rfl, .inl rfl⟩
  | some f =>
    cases hclose : matchingClose cur i with
    | none => exact .inr ⟨rfl, .inr (by simp)⟩
    | some close =>
      obtain ⟨inner, closer, w, rfl, rfl⟩ := hpartner close hclose
      obtain ⟨taken, rest, hdrop, hstop, hmarks⟩ :=
        m.value.2.exists_stop cur m.start (i + 1 + inner.length + 1)
      have hcur' : cur = (u ++ ['(']) ++ (inner ++ closer :: w) := by rw [hcur, append_assoc]; rfl
      have hlen : (u ++ ['(']).length = i + 1 := by rw [length_append, ← hi]; rfl
      have hslice : cur.slice (i + 1) (i + 1 + inner.length) = inner := by
        rw [Text.slice, hcur', drop_take_middle _ _ _ hlen.symm (by rw [hlen])]
      by_cases haccepts : m.value.2.accepts (Text.trim inner) = true
      · have hw : w = taken ++ rest := by
          have hafter : cur = ((u ++ ['(']) ++ (inner ++ [closer])) ++ w := by rw [hcur']; simp
          rw [← hdrop, hafter, drop_left' (by rw [length_append, hlen, length_append]; rfl)]
        refine .inl ⟨f, inner, closer, taken, rest, hf, hclose, ?_, hmarks, hstop, haccepts, ?_⟩
        · rw [← hw]
          conv_lhs => rw [hcur']
          rw [hcur', take_left' hlen]
        · rw [lowerOperation_eq_edit, operationEdit?, hskip, hf, hclose]
          simp [hslice, haccepts, Text.splice, hstop, ← drop_drop, hdrop]
      · refine .inr ⟨?_, .inr ?_⟩
        · simp [hslice, haccepts]
        · simpa [hslice] using haccepts

/-- **Lowering from right to left keeps the places of the operations.** -/
theorem operations_keep_offsets (hlocals : s.locals = [] ∨ ∃ t, s.locals = localSequences t)
    {earlier later : List (Match (SequencePlace × SequenceOp))}
    (h : Source.findAll sequenceCall body = earlier ++ m :: later) :
    let cur := later.foldr (lowerOperation s) body
    let i := skipBlanks cur m.stop
    SameMarks m.stop body cur ∧ (marked cur)[i]? = some ('(', true) ∧
    SameMarks m.start body (lowerOperation s m cur) ∧
      ((∃ f inner closer taken rest, LoweredAt s m cur i f inner closer taken rest) ∨
        lowerOperation s m cur = cur ∧ (s.resolve? m.value.1 = none ∨ ∀ close ∈ matchingClose cur i,
          m.value.2.accepts (Text.trim (cur.slice (i + 1) close)) = false)) := by
  intro cur i
  have hs := isName_of_resolve? hlocals
  have hms : (m :: later) <:+ Source.findAll sequenceCall body := ⟨earlier, h.symm⟩
  have hsame : SameUpTo (firstStart later body) body cur :=
    sameUpTo_foldr hs ((suffix_cons m later).trans hms)
  obtain ⟨⟨call⟩, hstep⟩ := exists_callPieces_foldr hs hms hsame
  have hskip : i = (spell call.before ++ (call.head ++ call.gap)).length := by
    rw [show i = _ from call.skipBlanks_eq rfl, append_assoc]
  have hmarked : marked cur = (markedPieces call.before ++ (call.head ++ call.gap).map fun x =>
      (x, true)) ++
      ('(', true) :: markedPieces call.after := by
    rw [call.marked_eq rfl, markedPieces_chars, append_assoc]
  have hlen : (markedPieces call.before ++ (call.head ++ call.gap).map fun x => (x, true)).length =
      (spell call.before ++ (call.head ++ call.gap)).length := by simp
  have hcur : cur = (spell call.before ++ (call.head ++ call.gap)) ++ '(' :: spell call.after := by
    simpa using call.text_eq rfl
  refine ⟨hsame.sameMarks.mono ?_, ?_, hstep.sameMarks, ?_⟩
  · obtain ⟨first⟩ := exists_callPieces (hms.subset mem_cons_self)
    have hlimit := bracket_le_firstStart hms first
    rw [spell_append, length_append, first.start_eq, spell_chars, length_append, length_append]
      at hlimit
    have := first.stop_eq
    omega
  · rw [hmarked, hskip, ← hlen, getElem?_append_right (Nat.le_refl _), Nat.sub_self]
    rfl
  · refine loweredAt_or_eq rfl hskip hcur fun close hclose => ?_
    obtain ⟨inner, y, w, hr, hlast, -⟩ :=
      exists_between hcur (by decide) hmarked hlen (hskip ▸ hclose)
    exact ⟨inner, y, w, hr, hskip ▸ hlast⟩

/-- An operation in the arguments of another one. -/
def pushLength : Text := "pool.items.push (pool.items.len())?;".toList

def innerLength : Match (SequencePlace × SequenceOp) :=
  ⟨17, 31, ⟨"pool.".toList, "items".toList⟩, .len⟩

theorem operations_keep_offsets_nested :
    SameMarks 15 pushLength (lowerOperation ⟨poolContext, [], []⟩ innerLength pushLength) ∧
      ∃ f inner closer taken rest,
      LoweredAt ⟨poolContext, [], []⟩ ⟨0, 15, ⟨"pool.".toList, "items".toList⟩, .push⟩
        (lowerOperation ⟨poolContext, [], []⟩ innerLength pushLength) 16 f inner closer taken
          rest := by
  have hfound : Source.findAll sequenceCall pushLength =
      [] ++ ⟨0, 15, ⟨"pool.".toList, "items".toList⟩, .push⟩ :: [innerLength] := by decide +kernel
  obtain ⟨hsame, -, -, hlowered | ⟨hkept, -⟩⟩ :=
    operations_keep_offsets (s := ⟨poolContext, [], []⟩) (.inl rfl) hfound
  · have hskip : skipBlanks (lowerOperation ⟨poolContext, [], []⟩ innerLength pushLength) 15 =
        16 := by decide +kernel
    exact ⟨hsame, hskip ▸ hlowered⟩
  · exact absurd hkept (by decide +kernel)

end AnchorLowering.Lowering
