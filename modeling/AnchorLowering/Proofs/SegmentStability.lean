import AnchorLowering.Proofs.NestedCall
import AnchorLowering.Source.RegionIndex

/-!
# Segments of a text

Main result: `segments_faithful`.

Stability is what allows a step to take a segment out of a text and to read it anew. A segment is
cut at the start or the end of a sealed region. What comes after it is of no account, since only a
quote that is there can close a literal. What comes before it counts only if a name ends there and
the segment starts with a letter, which might mark a literal. No region ends like a name but a line
comment, and after that the line ends.
-/

namespace AnchorLowering.Source

open List Pattern

variable {t u : Text} {i : Nat} {s : Segment} {ps : List (Piece Unit)} {spans : List (Nat × Nat)}

/-! ## Regions lie in the text -/

/-- Where the sealed region stops that starts at a place. -/
def sealedStopAt? (t : Text) (i : Nat) : Option Nat :=
  (sealedLength? ((Cursor.start t).advance i)).map (i + ·)

theorem bounds_of_sealedStopAt? {stop : Nat} (h : sealedStopAt? t i = some stop) :
    i < stop ∧ stop ≤ t.length := by
  obtain ⟨n, hn, rfl⟩ := Option.map_eq_some_iff.1 h
  rw [Cursor.start, Cursor.advance_eq] at hn
  have hsealed := sealedLength?_eq_some_iff.1 hn
  have hpos := hsealed.pos
  have hle := hsealed.le
  rw [length_drop] at hle
  omega

/-! ## Segments on their own -/

theorem lexes_of_not_word {before rest : Text} {x : Char} (hx : isWord x = false)
    (h : Lexes before (chars (x :: u)) rest) : Lexes [] (chars (x :: u)) rest := by
  obtain ⟨hfirst, hrest⟩ := h
  refine ⟨fun n hn => hfirst n (hn.of_before ?_), ?_⟩
  · rintro (hhead | hhead) <;> obtain rfl := Option.some.inj hhead <;> exact absurd hx (by decide)
  · refine hrest.transfer rfl id (fun _ s hlast => ?_) fun _ => .inl rfl
    obtain ⟨c, -, hc⟩ := mem_map.1 (mem_of_getLast? hlast)
    cases hc

theorem endsSealed_of_isChain {A B : List Segment}
    (h : (A ++ ⟨true, u⟩ :: B).IsChain fun s s' => s.isCode = true → s'.isCode = false) :
    EndsSealed (A.flatMap Segment.pieces) := by
  rcases eq_nil_or_concat' A with rfl | ⟨A, ⟨code, v⟩, rfl⟩
  · exact fun p hp => nomatch hp
  · have hcode : code = false := by
      rw [append_assoc, singleton_append] at h
      have := (isChain_cons_cons.1 (isChain_append.1 h).2.1).1
      cases code with
      | false => rfl
      | true => exact absurd (this rfl) Bool.noConfusion
    subst hcode
    intro p hp
    have hpieces : Segment.pieces ⟨false, v⟩ = [.claimed () v] := rfl
    rw [flatMap_append, flatMap_singleton, hpieces, List.getLast?_concat] at hp
    exact ⟨(), v, (Option.some.inj hp).symm⟩

theorem lexes_segment (h : s ∈ segments t) : Lexes [] s.pieces [] := by
  obtain ⟨A, B, hsplit⟩ := append_of_mem h
  have hlexes := lexes_pieces t
  rw [← flatMap_segments, hsplit, flatMap_append, flatMap_cons] at hlexes
  have hs := (lexes_append.1 (lexes_append.1 hlexes).2).1
  obtain ⟨code, u⟩ := s
  cases code with
  | false =>
    obtain ⟨⟨hne, hsealed⟩, -⟩ := hs
    rw [spell_nil, nil_append] at hsealed
    have halone : SealedAt ((spell (A.flatMap Segment.pieces)).reverse ++ [])
        (u ++ []) u.length := by
      by_cases hrest : spell (B.flatMap Segment.pieces) ++ [] = []
      · rwa [hrest] at hsealed
      · exact (hsealed.closed hrest).2 [] fun _ => .inl rfl
    exact ⟨⟨hne, halone.of_before fun _ => rfl⟩, trivial⟩
  | true =>
    have hchars : Segment.pieces ⟨true, u⟩ = chars u := rfl
    obtain ⟨x, u, rfl⟩ := exists_cons_of_ne_nil (text_ne_nil_of_mem_segments h rfl)
    cases hx : isWord x with
    | false => exact lexes_alone (lexes_of_not_word hx hs) rfl
    | true =>
      have hchain := isChain_segments t
      rw [hsplit] at hchain
      rw [hchars, ← append_assoc] at hlexes
      have hfresh := no_name_before_code hlexes (endsSealed_of_isChain hchain) hx
      refine lexes_alone hs ?_
      rw [append_nil, head?_reverse, hfresh]
      rfl

theorem segment_text_ne_nil (h : s ∈ segments t) : s.text ≠ [] := by
  cases hcode : s.isCode with
  | true => exact text_ne_nil_of_mem_segments h hcode
  | false =>
    have hlexes := lexes_segment h
    rw [Segment.pieces, if_neg (by simp [hcode])] at hlexes
    exact hlexes.1.1

/-- **A segment that is read on its own is one segment.** -/
theorem segments_text (h : s ∈ segments t) : segments s.text = [s] := by
  have hpieces : Text.pieces sealedClaim s.text = [s].flatMap Segment.pieces := by
    refine pieces_eq_iff.2 ⟨?_, ?_⟩
    · rw [spell_flatMap_pieces, flatMap_singleton]
    · rw [flatMap_singleton]
      exact lexes_segment h
  rw [segments, hpieces]
  refine foldr_consPiece_flatMap (.singleton s) fun s' hs' _ => ?_
  rw [mem_singleton.1 hs']
  exact segment_text_ne_nil h

/-! ## The segment at a place -/

/-- The place lies in the segment, if the segments `earlier` come before it. -/
def Segment.Covers (earlier : List Segment) (s : Segment) (i : Nat) : Prop :=
  (earlier.flatMap Segment.text).length ≤ i ∧ i < (earlier.flatMap Segment.text).length +
  s.text.length

def InCodeStretch (t : Text) (i : Nat) : Prop :=
  ∃ earlier s later, segments t = earlier ++ s :: later ∧ s.isCode = true ∧ s.Covers earlier i

theorem getElem?_marks_iff {ss : List Segment} : (ss.flatMap Segment.marks)[i]?.any (·.2) = true ↔
      ∃ earlier s later, ss = earlier ++ s :: later ∧ s.isCode = true ∧ s.Covers earlier i := by
  induction ss generalizing i with
  | nil => simp
  | cons s ss ih =>
    have hlen : s.marks.length = s.text.length := length_map _
    rw [flatMap_cons]
    by_cases hlt : i < s.text.length
    · -- the place lies in the first segment, and in no other one
      have hmark : (s.marks ++ ss.flatMap Segment.marks)[i]?.any (·.2) = s.isCode := by
        rw [getElem?_append_left (by omega), Segment.marks, getElem?_map, getElem?_eq_getElem hlt]
        rfl
      rw [hmark]
      constructor
      · exact fun hcode => ⟨[], s, ss, rfl, hcode, Nat.zero_le i, by simpa using hlt⟩
      · rintro ⟨earlier, s', later, hsplit, hcode, hcovers⟩
        cases earlier with
        | nil =>
          rw [(cons.inj hsplit).1]
          exact hcode
        | cons a earlier =>
          have hle := hcovers.1
          rw [← (cons.inj hsplit).1, flatMap_cons, length_append] at hle
          omega
    · rw [getElem?_append_right (by omega), hlen, ih]
      constructor
      · rintro ⟨earlier, s', later, rfl, hcode, hle, hcovers⟩
        refine ⟨s :: earlier, s', later, rfl, hcode, ?_, ?_⟩
        · rw [flatMap_cons, length_append]
          omega
        · rw [flatMap_cons, length_append]
          omega
      · rintro ⟨earlier, s', later, hsplit, hcode, hle, hcovers⟩
        cases earlier with
        | nil =>
          rw [← (cons.inj hsplit).1, flatMap_nil, length_nil, Nat.zero_add] at hcovers
          exact absurd hcovers hlt
        | cons a earlier =>
          obtain ⟨rfl, htail⟩ := cons.inj hsplit
          rw [flatMap_cons, length_append] at hle hcovers
          exact ⟨earlier, s', later, htail, hcode, by omega, by omega⟩

theorem inCode_iff (hi : i < t.length) : inCode t i = true ↔ InCodeStretch t i := by
  rw [← getElem?_marked t hi, marked_eq_segments, getElem?_marks_iff]
  rfl

/-! ## The index -/

/-- Regions in order: each has characters, and none starts before the ones to its left have
stopped. -/
structure InOrder (spans : List (Nat × Nat)) : Prop where
  room : ∀ s ∈ spans, s.1 < s.2
  apart : spans.Pairwise fun s s' => s.2 ≤ s'.1

theorem le_of_mem_regionSpans {place : Nat} {s : Nat × Nat} (h : s ∈ regionSpans place ps) :
    place ≤ s.1 := by
  induction ps generalizing place with
  | nil => cases h
  | cons p ps ih =>
    cases p with
    | char c => exact (Nat.le_succ place).trans (ih h)
    | claimed e t =>
      rcases mem_cons.1 h with rfl | h
      · exact Nat.le_refl place
      · exact (Nat.le_add_right place t.length).trans (ih h)

theorem inOrder_regionSpans {before rest : Text} (h : Lexes before ps rest) (place : Nat) :
    InOrder (regionSpans place ps) := by
  induction ps generalizing before place with
  | nil => exact ⟨fun _ hs => absurd hs not_mem_nil, .nil⟩
  | cons p ps ih =>
    cases p with
    | char c => exact ih h.2 (place + 1)
    | claimed e t =>
      obtain ⟨hroom, hapart⟩ := ih h.2 (place + t.length)
      have hpos := length_pos_of_ne_nil h.1.1
      refine ⟨forall_mem_cons.2 ⟨?_, hroom⟩, pairwise_cons.2 ⟨fun s hs => le_of_mem_regionSpans hs,
        hapart⟩⟩
      show place < place + t.length
      omega

theorem getD_marks_eq_false_iff (ps : List (Piece Unit)) (place i : Nat) :
    (marks ps).getD i true = false ↔ ∃ s ∈ regionSpans place ps, s.1 ≤ place + i ∧
    place + i < s.2 := by
  induction ps generalizing place i with
  | nil => simp [marks, regionSpans]
  | cons p ps ih =>
    cases p with
    | char c =>
      rw [marks_char, regionSpans]
      cases i with
      | zero =>
        refine iff_of_false (by simp) ?_
        rintro ⟨s, hs, hle, -⟩
        have := le_of_mem_regionSpans hs
        omega
      | succ i =>
        rw [getD_cons_succ, ih (place + 1), Nat.add_right_comm place 1 i, Nat.add_assoc]
    | claimed e t =>
      rw [marks_claimed, regionSpans]
      by_cases hlt : i < t.length
      · refine iff_of_true ?_ ⟨_, mem_cons_self, Nat.le_add_right place i,
          Nat.add_lt_add_left hlt place⟩
        rw [getD_append _ _ _ _ (by simpa using hlt)]
        simp [hlt]
      · rw [getD_append_right _ _ _ _ (by simpa using hlt), length_replicate, ih (place + t.length)]
        have hsum : place + t.length + (i - t.length) = place + i := by omega
        rw [hsum]
        constructor
        · rintro ⟨s, hs, hholds⟩
          exact ⟨s, mem_cons_of_mem _ hs, hholds⟩
        · rintro ⟨s, hs, hle, hstop⟩
          rcases mem_cons.1 hs with rfl | hs
          · omega
          · exact ⟨s, hs, hle, hstop⟩

theorem bisectRight_spec {entries : Array Nat} (index : Nat) {low high : Nat}
    (hsorted : ∀ i j, i < j → j < entries.size → entries.getD i 0 ≤ entries.getD j 0)
    (hle : low ≤ high) (hsize : high ≤ entries.size) (hlow : ∀ i < low, entries.getD i 0 ≤ index)
    (hhigh : ∀ i, high ≤ i → i < entries.size → index < entries.getD i 0) :
    (∀ i < bisectRight entries index low high, entries.getD i 0 ≤ index) ∧
      (∀ i, bisectRight entries index low high ≤ i → i < entries.size → index < entries.getD i 0) ∧
      bisectRight entries index low high ≤ entries.size := by
  fun_induction bisectRight entries index low high with
  | case1 low high hlt middle hgreater ih =>
    have hmiddle : low ≤ middle ∧ middle < high := by
      show low ≤ (low + high) / 2 ∧ (low + high) / 2 < high
      omega
    refine ih hmiddle.1 (by omega) hlow fun i hi hbound => ?_
    rcases Nat.eq_or_lt_of_le hi with rfl | hi
    · exact hgreater
    · exact hgreater.trans_le (hsorted middle i hi hbound)
  | case2 low high hlt middle hgreater ih =>
    have hmiddle : low ≤ middle ∧ middle < high := by
      show low ≤ (low + high) / 2 ∧ (low + high) / 2 < high
      omega
    refine ih hmiddle.2 hsize (fun i hi => ?_) hhigh
    rcases Nat.eq_or_lt_of_le (Nat.le_of_lt_succ hi) with rfl | hi
    · exact Nat.le_of_not_lt hgreater
    · exact (hsorted i middle hi (by omega)).trans (Nat.le_of_not_lt hgreater)
  | case3 low high hlt =>
    obtain rfl : low = high := by omega
    exact ⟨hlow, hhigh, hsize⟩

theorem getD_toArray_map {f : Nat × Nat → Nat} (hi : i < spans.length) :
    (spans.map f).toArray.getD i 0 = f (spans.get ⟨i, hi⟩) := by
  simp [hi]

/-- **The index says code exactly where no region lies.** -/
theorem RegionIndex.inCode_eq_false_iff (h : InOrder spans) (i : Nat) :
    RegionIndex.inCode ⟨(spans.map (·.1)).toArray, (spans.map (·.2)).toArray⟩ i = false ↔
      ∃ s ∈ spans, s.1 ≤ i ∧ i < s.2 := by
  have hapart : ∀ {j k : Nat} (hj : j < spans.length) (hk : k < spans.length), j < k →
      (spans.get ⟨j, hj⟩).2 ≤ (spans.get ⟨k, hk⟩).1 :=
    fun hj hk hjk => pairwise_iff_get.1 h.apart _ _ hjk
  have hroom : ∀ {j : Nat} (hj : j < spans.length), (spans.get ⟨j, hj⟩).1 <
      (spans.get ⟨j, hj⟩).2 := fun hj =>
    h.room _ (get_mem spans _)
  have hlen : (spans.map (·.1)).toArray.size = spans.length := by simp
  have hsorted : ∀ j k, j < k → k < (spans.map (·.1)).toArray.size →
      (spans.map (·.1)).toArray.getD j 0 ≤ (spans.map (·.1)).toArray.getD k 0 := by
    intro j k hjk hk
    rw [hlen] at hk
    rw [getD_toArray_map (hjk.trans hk), getD_toArray_map hk]
    exact (hroom _).le.trans (hapart _ hk hjk)
  obtain ⟨hbefore, hafter, hsize⟩ := bisectRight_spec i hsorted (Nat.zero_le _) (Nat.le_refl _)
    (fun _ hj => absurd hj (Nat.not_lt_zero _)) fun _ hj hk => absurd hk (Nat.not_lt.2 hj)
  -- only the last region that starts at or before the place can hold it
  have hlast : ∀ j (hj : j < spans.length), (spans.get ⟨j, hj⟩).1 ≤ i → i < (spans.get ⟨j, hj⟩).2 →
      bisectRight (spans.map (·.1)).toArray i 0 (spans.map (·.1)).toArray.size = j + 1 := by
    intro j hj hstart hstop
    refine Nat.le_antisymm (Nat.le_of_not_lt fun hlt => ?_)
      (Nat.succ_le_of_lt (Nat.lt_of_not_le fun hle => ?_))
    · have hnext := hbefore (j + 1) hlt
      have hj' : j + 1 < spans.length := by omega
      rw [getD_toArray_map hj'] at hnext
      have := hapart hj hj' (Nat.lt_succ_self j)
      omega
    · have := hafter j hle (by omega)
      rw [getD_toArray_map hj] at this
      omega
  rw [inCode, Option.isNone_eq_false_iff, Option.isSome_iff_exists, sealedStop?]
  dsimp only
  constructor
  · rintro ⟨stop, hstop⟩
    split at hstop
    · cases hstop
    · rename_i k hk
      obtain ⟨hlt, -⟩ := Option.ite_none_right_eq_some.1 hstop
      have hbound : k < spans.length := by omega
      rw [getD_toArray_map hbound] at hlt
      have hstart := hbefore k (by omega)
      rw [getD_toArray_map hbound] at hstart
      exact ⟨_, get_mem spans ⟨k, hbound⟩, hstart, hlt⟩
  · rintro ⟨s, hs, hstart, hstop⟩
    obtain ⟨⟨j, hj⟩, rfl⟩ := get_of_mem hs
    refine ⟨(spans.get ⟨j, hj⟩).2, ?_⟩
    rw [hlast j hj hstart hstop]
    dsimp only
    rw [getD_toArray_map hj, if_pos hstop]

/-- **Looking a place up in the index is reading the mask.** -/
theorem RegionIndex.inCode_ofText (t : Text) (i : Nat) :
    (RegionIndex.ofText t).inCode i = Source.inCode t i := by
  have horder : InOrder (regionSpans 0 (Text.pieces sealedClaim t)) :=
    inOrder_regionSpans (lexes_pieces t) 0
  have hindex := RegionIndex.inCode_eq_false_iff horder i
  have hmask := getD_marks_eq_false_iff (Text.pieces sealedClaim t) 0 i
  rw [Nat.zero_add] at hmask
  have hfalse : (RegionIndex.ofText t).inCode i = false ↔ Source.inCode t i = false :=
    hindex.trans hmask.symm
  cases hcode : Source.inCode t i with
  | false => exact hfalse.2 hcode
  | true =>
    rw [hcode] at hfalse
    simpa using hfalse

/-! ## The whole cut -/

/-- **The segments of a text are faithful to it.** Every sealed region has a character and stops
within the text. The segments are not empty, spell the text, and code never follows code. The index
of regions, the mask and the segments say the same of every place. And each segment, read on its
own, is that one segment. -/
theorem segments_faithful (t : Text) :
    (∀ i stop, sealedStopAt? t i = some stop → i < stop ∧ stop ≤ t.length) ∧
      (∀ s ∈ segments t, s.text ≠ []) ∧ (segments t).flatMap Segment.text = t ∧
      (segments t).IsChain (fun s s' => ¬ (s.isCode = true ∧ s'.isCode = true)) ∧
      (∀ i < t.length, ((RegionIndex.ofText t).inCode i = true ↔ InCodeStretch t i) ∧
        inCode t i = (RegionIndex.ofText t).inCode i) ∧
      ∀ s ∈ segments t, segments s.text = [s] := by
  refine ⟨fun i stop => bounds_of_sealedStopAt?, fun s => segment_text_ne_nil,
    flatMap_text_segments t, ?_, ?_, fun s => segments_text⟩
  · refine (isChain_segments t).imp fun s s' hnext hcode => ?_
    rw [hnext hcode.1] at hcode
    cases hcode.2
  · intro i hi
    rw [RegionIndex.inCode_ofText]
    exact ⟨inCode_iff hi, rfl⟩

/-- A lifetime, a comment that holds quotes, a string with an escape, a character, a line comment
that holds a quote, and a raw string that is not closed. -/
def mixedText : Text := "&'a/*'\"*/\"\\\"/*\"x b'\"'//'\nr#\"x\"".toList

/-- The regions of `mixedText` are found, a place of its code is told apart from a place of its
string, and the line comment and the code after the string stay what they are when they are cut
out. -/
theorem segments_faithful_mixed :
    (sealedStopAt? mixedText 3 = some 9 ∧ 3 < 9 ∧ 9 ≤ mixedText.length) ∧
      (segments mixedText).map (fun s => (s.isCode, String.ofList s.text)) =
        [(true, "&'a"), (false, "/*'\"*/"), (false, "\"\\\"/*\""), (true, "x "), (false, "b'\"'"),
          (false, "//'"), (true, "\n"), (false, "r#\"x\"")] ∧
      (segments mixedText).flatMap Segment.text = mixedText ∧
      InCodeStretch mixedText 16 ∧ ¬ InCodeStretch mixedText 12 ∧
      segments "//'".toList = [⟨false, "//'".toList⟩] ∧ segments "x ".toList =
      [⟨true, "x ".toList⟩] := by
  obtain ⟨hstop, -, hspell, -, hplace, hstable⟩ := segments_faithful mixedText
  obtain ⟨hcode, hmask⟩ := hplace 16 (by decide)
  obtain ⟨hcode', hmask'⟩ := hplace 12 (by decide)
  refine ⟨⟨by decide, hstop 3 9 (by decide)⟩, by decide, hspell, hcode.1 ?_, fun h => ?_,
    hstable ⟨false, "//'".toList⟩ (by decide), hstable ⟨true, "x ".toList⟩ (by decide)⟩
  · rw [← hmask]
    decide
  · have := hcode'.2 h
    rw [← hmask'] at this
    exact absurd this (by decide)

end AnchorLowering.Source
