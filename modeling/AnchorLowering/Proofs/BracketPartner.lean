import AnchorLowering.Proofs.WovenText
import Mathlib.Order.Bounds.Defs
import Mathlib.Order.Nat

/-!
# Partners of brackets

The search for the bracket that closes another one counts depth and does not look at kinds.

Main result: `bracket_partners`.
-/

namespace AnchorLowering.Source

open List

variable {x : Char} {m : Char × Bool} {depth depth' : Int} {ms : Marked} {i k : Nat}
  {t u a b s v : Text}

/-! ## Balance -/

/-- How many more brackets open than close in the code of a marked text. -/
def balance (ms : Marked) : Int := (codeText ms).countP isOpener - (codeText ms).countP isCloser

@[simp]
theorem balance_nil : balance [] = 0 := rfl

@[simp]
theorem balance_sealed (x : Char) (ms : Marked) : balance ((x, false) :: ms) = balance ms := rfl

theorem balance_opener (hx : isOpener x = true) (ms : Marked) :
    balance ((x, true) :: ms) = balance ms + 1 := by
  have hx' : isCloser x = false := by
    cases hcloser : isCloser x with
    | false => rfl
    | true => rw [isOpener_of_isCloser hcloser] at hx; cases hx
  simp only [balance, codeText_code, countP_cons, hx, hx', if_true]
  simp only [Bool.false_eq_true, if_false]
  omega

theorem balance_closer (hx : isCloser x = true) (ms : Marked) :
    balance ((x, true) :: ms) = balance ms - 1 := by
  simp only [balance, codeText_code, countP_cons, hx, isOpener_of_isCloser hx, if_true]
  simp only [Bool.false_eq_true, if_false]
  omega

theorem balance_other (hopener : isOpener x = false) (hcloser : isCloser x = false) (ms : Marked) :
    balance ((x, true) :: ms) = balance ms := by
  simp [balance, hopener, hcloser]

/-! ## The search -/

/-- At the offset a closer in code brings the depth to zero. -/
def ClosesAfter (depth : Int) (ms : Marked) (k : Nat) : Prop :=
  (∃ y, ms[k]? = some (y, true) ∧ isCloser y = true) ∧ depth + balance (ms.take (k + 1)) = 0

/-- No closer at an earlier offset brings the depth to zero. -/
def ClosesFirst (depth : Int) (ms : Marked) (k : Nat) : Prop :=
  ClosesAfter depth ms k ∧ ∀ k' < k, ¬ ClosesAfter depth ms k'

theorem not_closesAfter_nil (depth : Int) (k : Nat) : ¬ ClosesAfter depth [] k := by
  rintro ⟨⟨y, hy, -⟩, -⟩
  simp at hy

theorem closesAfter_succ (hdepth : ∀ r, depth + balance (m :: r) = depth' + balance r) :
    ClosesAfter depth (m :: ms) (k + 1) ↔ ClosesAfter depth' ms k := by
  rw [ClosesAfter, ClosesAfter, getElem?_cons_succ, take_succ_cons, hdepth]

theorem closesFirst_succ (hdepth : ∀ r, depth + balance (m :: r) = depth' + balance r)
    (hfirst : ¬ ClosesAfter depth (m :: ms) 0) :
    ClosesFirst depth (m :: ms) (k + 1) ↔ ClosesFirst depth' ms k := by
  refine and_congr (closesAfter_succ hdepth) ⟨fun h k' hk => ?_, fun h k' hk => ?_⟩
  · exact fun hcloses => h (k' + 1) (by omega) ((closesAfter_succ hdepth).2 hcloses)
  · cases k' with
    | zero => exact hfirst
    | succ k' =>
      rw [closesAfter_succ hdepth]
      exact h k' (by omega)

theorem map_eq_some_iff_closesFirst {found : Option Nat}
    (ih : ∀ k, found = some k ↔ ClosesFirst depth' ms k)
    (hdepth : ∀ r, depth + balance (m :: r) = depth' + balance r)
    (hfirst : ¬ ClosesAfter depth (m :: ms) 0) (k : Nat) :
    found.map (· + 1) = some k ↔ ClosesFirst depth (m :: ms) k := by
  cases k with
  | zero => exact iff_of_false (by simp) fun h => hfirst h.1
  | succ k => rw [closesFirst_succ hdepth hfirst, ← ih k, Option.map_eq_some_iff]; simp

/-- **The search stops at the first closer that brings the depth to zero.** -/
theorem partnerOffset_eq_some_iff (depth : Nat) (ms : Marked) (k : Nat) :
    partnerOffset (depth + 1) ms = some k ↔ ClosesFirst (depth + 1) ms k := by
  induction ms generalizing depth k with
  | nil => exact iff_of_false (by simp [partnerOffset]) fun h => not_closesAfter_nil _ k h.1
  | cons m ms ih =>
    obtain ⟨x, _ | _⟩ := m
    · -- a sealed character neither counts nor closes
      simp only [partnerOffset, Bool.false_and, Bool.false_eq_true, if_false]
      refine map_eq_some_iff_closesFirst (ih depth) (fun r => by rw [balance_sealed]) ?_ k
      rintro ⟨⟨y, hy, -⟩, -⟩
      simp at hy
    · by_cases hopener : isOpener x = true
      · simp only [partnerOffset, Bool.true_and, hopener, if_true]
        refine map_eq_some_iff_closesFirst (ih (depth + 1)) (fun r => ?_) ?_ k
        · rw [balance_opener hopener]
          push_cast
          omega
        · rintro ⟨⟨y, hy, hcloser⟩, -⟩
          obtain ⟨rfl, -⟩ := Prod.mk.inj (Option.some.inj hy)
          rw [isOpener_of_isCloser hcloser] at hopener
          cases hopener
      · by_cases hcloser : isCloser x = true
        · cases depth with
          | zero =>
            -- at depth one this closer is the partner
            have hzero : ClosesAfter ((0 : Nat) + 1) ((x, true) :: ms) 0 :=
              ⟨⟨x, rfl, hcloser⟩, by rw [take_succ_cons, take_zero, balance_closer hcloser]; rfl⟩
            simp only [partnerOffset, Bool.true_and, hopener, hcloser, if_true, Bool.false_eq_true,
              if_false]
            constructor
            · intro h
              obtain rfl := Option.some.inj h
              exact ⟨hzero, fun k' hk => absurd hk (Nat.not_lt_zero k')⟩
            · intro h
              cases k with
              | zero => rfl
              | succ k => exact absurd hzero (h.2 0 (Nat.succ_pos k))
          | succ depth =>
            simp only [partnerOffset, Bool.true_and, hopener, hcloser, if_true, Bool.false_eq_true,
              if_false]
            refine map_eq_some_iff_closesFirst (ih depth) (fun r => ?_) ?_ k
            · rw [balance_closer hcloser]
              push_cast
              omega
            · rintro ⟨-, hdepth⟩
              rw [take_succ_cons, take_zero, balance_closer hcloser, balance_nil] at hdepth
              push_cast at hdepth
              omega
        · simp only [partnerOffset, Bool.true_and, hopener, hcloser, Bool.false_eq_true, if_false]
          refine map_eq_some_iff_closesFirst (ih depth) (fun r => ?_) ?_ k
          · rw [balance_other (by simpa using hopener) (by simpa using hcloser)]
          · rintro ⟨⟨y, hy, hclose⟩, -⟩
            obtain ⟨rfl, -⟩ := Prod.mk.inj (Option.some.inj hy)
            exact hcloser hclose

/-- At the place `j` a closer in code stands, and from the place `i` up to it the code is in
balance. -/
structure ClosesAt (t : Text) (i j : Nat) : Prop where
  after : i < j
  closer : ∃ y, t[j]? = some y ∧ isCloser y = true
  code : inCode t j = true
  balanced : balance (((marked t).take (j + 1)).drop i) = 0

/-- **The partner of an opener is the first closer up to which the code is in balance.** -/
theorem matchingClose_eq_some_iff (hx : isOpener x = true) (hi : (marked t)[i]? = some (x, true))
    (j : Nat) : matchingClose t i = some j ↔ IsLeast {j | ClosesAt t i j} j := by
  obtain ⟨hlt, hget⟩ := List.getElem?_eq_some_iff.1 hi
  have hdrop : (marked t).drop i = (x, true) :: (marked t).drop (i + 1) := by
    rw [drop_eq_getElem_cons hlt, hget]
  have hcloses : ∀ k, ClosesAt t i (k + 1 + i) ↔ ClosesAfter 1 ((marked t).drop (i + 1)) k := by
    intro k
    have hmark : ((marked t).drop (i + 1))[k]? = (marked t)[k + 1 + i]? := by
      rw [getElem?_drop, show i + 1 + k = k + 1 + i by omega]
    have hbalance : balance (((marked t).take (k + 1 + i + 1)).drop i) =
        1 + balance (((marked t).drop (i + 1)).take (k + 1)) := by
      rw [drop_take, hdrop, show k + 1 + i + 1 - i = (k + 1) + 1 by omega, take_succ_cons,
        balance_opener hx, Int.add_comm]
    rw [ClosesAfter, hmark, ← hbalance]
    constructor
    · rintro ⟨-, ⟨y, hy, hcloser⟩, hcode, hzero⟩
      exact ⟨⟨y, getElem?_marked_eq_some_iff.2 ⟨hy, hcode⟩, hcloser⟩, hzero⟩
    · rintro ⟨⟨y, hy, hcloser⟩, hzero⟩
      obtain ⟨hy, hcode⟩ := getElem?_marked_eq_some_iff.1 hy
      exact ⟨by omega, ⟨y, hy, hcloser⟩, hcode, hzero⟩
  have hfound : matchingClose t i = (partnerOffset 1 ((marked t).drop (i + 1))).map
      (· + 1 + i) := by
    rw [matchingClose, hdrop]
    simp [partnerOffset, hx, Function.comp_def]
  rw [hfound, Option.map_eq_some_iff]
  constructor
  · rintro ⟨k, hk, rfl⟩
    obtain ⟨hk, hleast⟩ := (partnerOffset_eq_some_iff 0 _ k).1 hk
    refine ⟨(hcloses k).2 hk, fun j hj => Nat.le_of_not_lt fun hlt => ?_⟩
    obtain ⟨k', rfl⟩ : ∃ k', j = k' + 1 + i := ⟨j - i - 1, by have := hj.after; omega⟩
    exact hleast k' (by omega) ((hcloses k').1 hj)
  · rintro ⟨hj, hleast⟩
    obtain ⟨k, rfl⟩ : ∃ k, j = k + 1 + i := ⟨j - i - 1, by have := ClosesAt.after hj; omega⟩
    refine ⟨k, (partnerOffset_eq_some_iff 0 _ k).2 ⟨(hcloses k).1 hj, fun k' hk' hcloses' => ?_⟩,
      rfl⟩
    have hle := hleast ((hcloses k').2 hcloses')
    omega

theorem matchingClose_eq_none_iff (hx : isOpener x = true)
    (hi : (marked t)[i]? = some (x, true)) : matchingClose t i = none ↔ ∀ j, ¬ ClosesAt t i j := by
  classical
  constructor
  · intro hnone j hj
    have hfound := (matchingClose_eq_some_iff hx hi _).2 (Nat.isLeast_find ⟨j, hj⟩)
    rw [hnone] at hfound
    cases hfound
  · intro hno
    rw [Option.eq_none_iff_forall_ne_some]
    exact fun j hj => hno j ((matchingClose_eq_some_iff hx hi j).1 hj).1

/-- In nested code the partner is of the opener's kind, and the code between the two is nested. -/
theorem nested_matchingClose (h : Nested t) (hx : isOpener x = true)
    (hi : (marked t)[i]? = some (x, true)) :
    ∃ j, matchingClose t i = some j ∧ t[j]? = some (closerOf x) ∧ Nested (t.slice (i + 1) j) := by
  obtain ⟨j, hj⟩ := exists_matchingClose h hx hi
  obtain ⟨u, v, w, rfl, rfl, rfl, -, hv⟩ := nested_of_matchingClose h hx hi hj
  refine ⟨_, hj, ?_, ?_⟩
  · have hlen : (u ++ x :: v).length = u.length + 1 + v.length := by
      rw [length_append, length_cons]
      omega
    rw [← cons_append, ← append_assoc, ← hlen, getElem?_append_right (Nat.le_refl _), Nat.sub_self]
    rfl
  · rw [Text.slice, append_cons, drop_take_middle (u ++ [x]) v _ (by simp) (by simp)]
    exact hv

/-! ## Blanks at the end -/

/-- A tail that is closed within a text is closed there whatever follows. So one that reaches to the
end of a text reaches to the end of each of its prefixes. -/
theorem tail_of_append {tail : Text → Nat} (hle : ∀ t, tail t ≤ t.length)
    (hclosed : ∀ {u r}, r ≠ [] → tail (u ++ r) = u.length → ∀ r', tail (u ++ r') = u.length)
    {r : Text} (h : tail (u ++ r) = (u ++ r).length) : tail u = u.length := by
  refine Nat.le_antisymm (hle u) (Nat.le_of_not_lt fun hlt => ?_)
  have hsplit : u = u.take (tail u) ++ u.drop (tail u) := (take_append_drop _ u).symm
  have hlen : (u.take (tail u)).length = tail u := length_take_of_le hlt.le
  have hrest : u.drop (tail u) ≠ [] := ne_nil_of_length_pos (by rw [length_drop]; omega)
  have hu : tail (u.take (tail u) ++ u.drop (tail u)) = (u.take (tail u)).length := by
    rw [← hsplit, hlen]
  have happend := hclosed hrest hu (u.drop (tail u) ++ r)
  rw [← append_assoc, ← hsplit, h, hlen, length_append] at happend
  omega

theorem exists_append_of_solid (h : a ++ b = s ++ v) (hb : Blank b)
    (hs : ∀ x ∈ s, isBlank x = false) : ∃ a', a = s ++ a' ∧ v = a' ++ b := by
  rcases append_eq_append_iff.1 h with ⟨c, rfl, rfl⟩ | ⟨c, rfl, rfl⟩
  · cases c with
    | nil => exact ⟨[], by simp, by simp⟩
    | cons x c =>
      have hblank := hb x (by simp)
      rw [hs x (by simp)] at hblank
      cases hblank
  · exact ⟨c, rfl, rfl⟩

theorem ByteMark.solid {before mark : Text} (h : ByteMark before mark) :
    ∀ x ∈ mark, isBlank x = false := by
  obtain rfl | ⟨rfl, -⟩ := h
  · simp
  · decide

/-- **A region that ends in blanks stays one without them.** -/
theorem SealedAt.truncate {before : Text} (hb : Blank b)
    (h : SealedAt before (a ++ b) (a ++ b).length) : SealedAt before a a.length := by
  rcases eq_nil_or_concat' b with rfl | ⟨b', z, rfl⟩
  · rwa [append_nil] at h
  generalize hb' : b' ++ [z] = b at h hb
  generalize ht : a ++ b = t at h
  generalize hn : t.length = n at h
  cases h with
  | @line rest =>
    obtain ⟨a, rfl, rfl⟩ := exists_append_of_solid (s := "//".toList) ht hb (by decide)
    have hline : (a ++ b).takeWhile (· != '\n') = a ++ b :=
      (List.takeWhile_prefix _).eq_of_length (by simp at hn; simp; omega)
    have hall : ∀ x ∈ a, (x != '\n') = true := fun x hx =>
      takeWhile_eq_self_iff.1 hline x (mem_append_left b hx)
    have hself : a.takeWhile (· != '\n') = a := takeWhile_eq_self_iff.2 hall
    exact (@SealedAt.line before a).cast rfl (by rw [hself]; simp; omega)
  | @block rest =>
    obtain ⟨a, rfl, rfl⟩ := exists_append_of_solid (s := "/*".toList) ht hb (by decide)
    have htail : blockTail a = a.length :=
      tail_of_append blockTail_le (fun hr h => (blockTail_append hr h).2) (r := b)
        (by simp at hn; simp; omega)
    exact (@SealedAt.block before a).cast rfl (by rw [htail]; simp; omega)
  | @string mark rest hmark =>
    have hsolid : ∀ x ∈ mark ++ ['"'], isBlank x = false :=
      forall_mem_append.2 ⟨hmark.solid, by decide⟩
    obtain ⟨a, rfl, rfl⟩ := exists_append_of_solid (v := rest) (by rw [ht]; simp) hb hsolid
    have htail : stringTail a = a.length :=
      tail_of_append stringTail_le (fun hr h => (stringTail_append hr h).2) (r := b)
        (by simp at hn; simp; omega)
    exact (@SealedAt.string before mark a hmark).cast (by simp) (by rw [htail]; simp; omega)
  | @char mark body rest hmark hbody =>
    -- a character literal ends with a quote
    obtain rfl : rest = [] := length_eq_zero_iff.1 (by simp at hn; omega)
    have hlast := congrArg List.getLast? ht
    rw [← hb', ← append_assoc, List.getLast?_concat, append_cons, ← append_assoc,
      List.getLast?_concat] at hlast
    have hblank := hb z (by rw [← hb']; simp)
    rw [Option.some.inj hlast] at hblank
    exact absurd hblank (by decide)
  | @raw mark rest hashes hmark hfresh =>
    have hsolid : ∀ x ∈ mark ++ 'r' :: (replicate hashes '#' ++ ['"']), isBlank x = false := by
      refine forall_mem_append.2
        ⟨by obtain rfl | rfl := hmark <;> decide, forall_mem_cons.2 ⟨by decide, ?_⟩⟩
      refine forall_mem_append.2 ⟨fun x hx => ?_, by decide⟩
      rw [eq_of_mem_replicate hx]
      decide
    obtain ⟨a, rfl, rfl⟩ := exists_append_of_solid (v := rest) (by rw [ht]; simp) hb hsolid
    have htail : rawTail hashes a = a.length :=
      tail_of_append (rawTail_le hashes) (fun hr h => (rawTail_append hr h).2) (r := b)
        (by simp at hn; simp; omega)
    exact (@SealedAt.raw before mark a hashes hmark hfresh).cast (by simp)
      (by rw [htail]; simp; omega)

theorem exists_cut {ps : List (Piece Unit)} (h : spell ps = u ++ v) :
    (∃ P Q, ps = P ++ Q ∧ spell P = u ∧ spell Q = v) ∨
      ∃ P e a b Q, ps = P ++ .claimed e (a ++ b) :: Q ∧ a ≠ [] ∧ u = spell P ++ a ∧
      v = b ++ spell Q := by
  induction ps generalizing u with
  | nil =>
    obtain ⟨rfl, rfl⟩ := append_eq_nil_iff.1 h.symm
    exact .inl ⟨[], [], rfl, rfl, rfl⟩
  | cons p ps ih =>
    rw [spell_cons] at h
    rcases append_eq_append_iff.1 h with ⟨c, rfl, hrest⟩ | ⟨c, htext, rfl⟩
    · rcases ih hrest with ⟨P, Q, rfl, rfl, rfl⟩ | ⟨P, e, a, b, Q, rfl, hne, rfl, rfl⟩
      · exact .inl ⟨p :: P, Q, rfl, rfl, rfl⟩
      · exact .inr ⟨p :: P, e, a, b, Q, rfl, hne, by simp, rfl⟩
    · by_cases hu : u = []
      · subst hu
        exact .inl ⟨[], p :: ps, rfl, rfl, by rw [spell_cons, htext]; rfl⟩
      · cases p with
        | claimed e s =>
          obtain rfl : s = u ++ c := htext
          exact .inr ⟨[], e, u, c, ps, rfl, hu, rfl, rfl⟩
        | char x =>
          obtain ⟨y, u, rfl⟩ := exists_cons_of_ne_nil hu
          obtain ⟨rfl, hnil⟩ := cons.inj htext
          obtain ⟨rfl, rfl⟩ := append_eq_nil_iff.1 hnil.symm
          exact .inl ⟨[.char x], ps, rfl, rfl, rfl⟩

/-- **Blanks at the end do not change how the text before them is read.** -/
theorem exists_marked_append_blanks (s : Text) {g : Text} (hg : Blank g) :
    ∃ ms, marked (s ++ g) = marked s ++ ms ∧ ms.map (·.1) = g := by
  have hlexes := lexes_pieces (s ++ g)
  rcases exists_cut (spell_pieces (s ++ g)) with ⟨P, Q, hps, hP, hQ⟩ | ⟨P, e, a, b, Q, hps, hne,
    hs, hgap⟩
  · rw [hps, lexes_append] at hlexes
    have hpieces : Text.pieces sealedClaim s = P := pieces_eq_iff.2 ⟨hP, lexes_alone hlexes.1 rfl⟩
    refine ⟨markedPieces Q, by rw [marked_eq, hps, markedPieces_append, marked_eq, hpieces], ?_⟩
    have hfst := map_fst_marked (s ++ g)
    rw [marked_eq, hps, markedPieces_append, ← hpieces, ← marked_eq, map_append, map_fst_marked]
      at hfst
    exact append_cancel_left hfst
  · rw [hps, lexes_append, spell_cons, Piece.text_claimed] at hlexes
    obtain ⟨hP, ⟨-, hsealed⟩, -⟩ := hlexes
    have hb : Blank b := fun x hx => hg x (by rw [hgap]; exact mem_append_left _ hx)
    have halone : SealedAt ((spell P).reverse ++ []) (a ++ b ++ []) (a ++ b).length := by
      by_cases hrest : spell Q ++ [] = []
      · rwa [hrest] at hsealed
      · exact (hsealed.closed hrest).2 [] fun _ => .inl rfl
    have hshort := SealedAt.truncate hb (halone.cast (append_nil _) rfl)
    have hpieces : Text.pieces sealedClaim s = P ++ [.claimed e a] := by
      refine pieces_eq_iff.2
        ⟨by rw [hs, spell_append]; simp, lexes_append.2 ⟨?_, ⟨hne, by simpa using hshort⟩, trivial⟩⟩
      refine hP.transfer rfl (fun hnil => ?_) (fun e' t hlast hline => ?_) fun _ => ?_
      · exact absurd (append_eq_nil_iff.1 (append_eq_nil_iff.1 (append_eq_nil_iff.1 hnil).1).1).1
          hne
      · -- the next line starts where the region does
        obtain hnil | hbreak := hP.line_end hlast hline
        · exact absurd (append_eq_nil_iff.1 (append_eq_nil_iff.1 (append_eq_nil_iff.1 hnil).1).1).1
            hne
        · obtain ⟨x, a, rfl⟩ := exists_cons_of_ne_nil hne
          exact .inr (by simpa using hbreak)
      · exact .inr ⟨a, b ++ spell Q, [], by simp, by simp, .nil⟩
    have hmarked : marked (s ++ g) =
        marked s ++ (b.map (fun x => (x, false)) ++ markedPieces Q) := by
      rw [marked_eq, hps, markedPieces_append, markedPieces_claimed, marked_eq s, hpieces,
        markedPieces_append]
      simp [markedPieces]
    refine ⟨_, hmarked, ?_⟩
    have hfst := map_fst_marked (s ++ g)
    rw [hmarked, map_append, map_fst_marked] at hfst
    exact append_cancel_left hfst

/-- **Nested code stays nested without the blanks around it.** -/
theorem Nested.trim (h : Nested t) : Nested (Text.trim t) := by
  obtain ⟨g, g', ht, hg, hg', -⟩ := Lowering.exists_trim t
  have hinner : Nested (Text.trim t ++ g') := by
    by_cases hnil : g = []
    · rw [ht, hnil] at h
      exact h
    · rw [ht, Nested, marked_opening (opening_blanks hg hnil), codeText_append, codeText_map_code]
        at h
      exact (SameBrackets.bracketed_append
        (.of_brackets_eq_nil (brackets_of_blank hg))).symm.bracketed h
  obtain ⟨ms, hmarked, hms⟩ := exists_marked_append_blanks (Text.trim t) hg'
  rw [Nested, hmarked, codeText_append] at hinner
  have hnone : brackets (codeText ms) = [] :=
    brackets_codeText (by rw [hms]; exact brackets_of_blank hg')
  exact (SameBrackets.append_bracketed (.of_brackets_eq_nil hnone)).symm.bracketed hinner

/-! ## Bodies -/

/-- The first character is a curly bracket, and the last one is its partner. -/
def Enclosed (t : Text) : Prop := t.head? = some '\x7b' ∧ matchingClose t 0 = some (t.length - 1)

instance (t : Text) : Decidable (Enclosed t) := inferInstanceAs (Decidable (_ ∧ _))

theorem unwrapBody_of_enclosed (h : Enclosed (Text.trim t)) :
    unwrapBody t = ((Text.trim t).drop 1).dropLast := by
  simp [unwrapBody, h.1, h.2]

theorem unwrapBody_of_not_enclosed (h : ¬ Enclosed (Text.trim t)) : unwrapBody t = Text.trim t := by
  simp only [unwrapBody, Bool.and_eq_true, beq_iff_eq]
  exact if_neg h

theorem getElem?_marked_brace (s : Text) : (marked ('\x7b' :: s))[0]? = some ('\x7b', true) := by
  rw [← singleton_append, marked_opening (u := ['\x7b']) ⟨cons_ne_nil _ _,
    show Plain ['\x7b'] by decide, by decide⟩]
  rfl

theorem Enclosed.exists_inner (h : Enclosed s) (hnested : Nested s) :
    ∃ w, s = '\x7b' :: (w ++ ['\x7d']) ∧ Nested w := by
  obtain ⟨s, rfl⟩ := head?_eq_some_iff.1 h.1
  obtain ⟨u, v, w, htext, hu, hclose, -, hv⟩ :=
    nested_of_matchingClose hnested (by decide) (getElem?_marked_brace s) h.2
  obtain rfl := length_eq_zero_iff.1 hu
  obtain ⟨-, rfl⟩ := cons.inj htext
  obtain rfl : w = [] := length_eq_zero_iff.1 (by simp at hclose; omega)
  exact ⟨v, rfl, hv⟩

theorem unwrapBody_of_eq {w : Text} (h : Enclosed (Text.trim t))
    (hw : Text.trim t = '\x7b' :: (w ++ ['\x7d'])) :
    unwrapBody t = w := by
  rw [unwrapBody_of_enclosed h, hw, drop_succ_cons, drop_zero, dropLast_concat]

/-- **The search for the partner of a bracket.** For each opener in code it returns the first closer
in code up to which the code is in balance, and nothing if there is none. If the code is nested, it
returns a bracket of the opener's kind with nested code between the two; and a body without its
braces is the trimmed body, or, exactly if that is enclosed by one pair of braces, the one text
between them, and nested in both cases. -/
theorem bracket_partners (t : Text) :
    (∀ i x, t[i]? = some x → isOpener x = true → inCode t i = true →
      (∀ j, matchingClose t i = some j ↔ IsLeast {j | ClosesAt t i j} j) ∧
        (matchingClose t i = none ↔ ∀ j, ¬ ClosesAt t i j) ∧
        (Nested t → ∃ j, matchingClose t i = some j ∧ t[j]? = some (closerOf x) ∧
          Nested (t.slice (i + 1) j))) ∧
      (Nested t →
        (Enclosed (Text.trim t) → ∀ w, Text.trim t = '\x7b' :: (w ++ ['\x7d']) ↔ w = unwrapBody t) ∧
          (unwrapBody t = Text.trim t ↔ ¬ Enclosed (Text.trim t)) ∧ Nested (unwrapBody t)) := by
  refine ⟨fun i x hchar hx hcode => ?_, fun hnested => ?_⟩
  · have hi := getElem?_marked_eq_some_iff.2 ⟨hchar, hcode⟩
    exact ⟨matchingClose_eq_some_iff hx hi, matchingClose_eq_none_iff hx hi,
      fun h => nested_matchingClose h hx hi⟩
  · by_cases hbraces : Enclosed (Text.trim t)
    · obtain ⟨inner, hinner, hnest⟩ := hbraces.exists_inner hnested.trim
      have hunwrap := unwrapBody_of_eq hbraces hinner
      refine ⟨fun _ w => ⟨fun hw => (unwrapBody_of_eq hbraces hw).symm, fun hw => ?_⟩, ?_,
        by rwa [hunwrap]⟩
      · rw [hw, hunwrap, hinner]
      · refine iff_of_false (fun heq => ?_) fun h => h hbraces
        have hlen := congrArg List.length (hinner.symm.trans (heq.symm.trans hunwrap))
        rw [List.length_cons, List.length_append] at hlen
        omega
    · have hunwrap := unwrapBody_of_not_enclosed hbraces
      refine ⟨fun h => absurd h hbraces, iff_of_true hunwrap hbraces, ?_⟩
      rw [hunwrap]
      exact hnested.trim

/-- A body in braces, with brackets of each kind, a literal and a comment that hold brackets, and
blanks around it. -/
def bracedBody : Text := " \x7b f(\")\", [a]); // \x7b\n g() \x7d\n".toList

/-- The brace is closed by the last one, the round bracket by the one after the literal, and the
body comes out of its braces nested. -/
theorem bracket_partners_braced :
    (matchingClose bracedBody 1 = some 26 ∧ ClosesAt bracedBody 1 26) ∧
      (∃ j, matchingClose bracedBody 4 = some j ∧ bracedBody[j]? = some ')' ∧
        Nested (bracedBody.slice 5 j)) ∧
      Nested bracedBody ∧ Enclosed (Text.trim bracedBody) ∧
      unwrapBody bracedBody = " f(\")\", [a]); // \x7b\n g() ".toList ∧
      Nested (unwrapBody bracedBody) := by
  obtain ⟨hpartner, hbody⟩ := bracket_partners bracedBody
  have hnested : Nested bracedBody := by decide
  obtain ⟨hinner, -, hunwrap⟩ := hbody hnested
  have hbrace := hpartner 1 '\x7b' (by decide) (by decide) (by decide)
  have hround := hpartner 4 '(' (by decide) (by decide) (by decide)
  refine ⟨⟨by decide, ((hbrace.1 26).1 (by decide)).1⟩, hround.2.2 hnested, hnested,
    by decide, ?_, hunwrap⟩
  exact ((hinner (by decide) _).1 (by decide)).symm

end AnchorLowering.Source
