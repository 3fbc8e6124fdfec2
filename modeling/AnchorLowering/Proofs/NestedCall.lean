import AnchorLowering.Proofs.BracketChange
import AnchorLowering.Proofs.RecognisedCall

/-!
# Calls in nested code

A text that is cut at a code character that belongs to no name is read, on either side, as it is
read there alone (`marked_cut`). So what stands between two brackets that pair, and what stands
between the commas of an argument list, may be taken out and read by itself. In nested code it is
nested again (`nested_of_matchingClose`, `nested_part`), and a call is a bracketed stretch
(`bracketed_call`).
-/

namespace AnchorLowering.Source

open List Pattern

variable {takeSuffix : Bool} {call : Call} {mark separator x : Char} {ms : Marked}
  {close i j : Nat} {t u v s r : Text}
  {α : Type} {closers : List Char}

/-! ## Cutting at a code character -/

theorem lexes_alone {before before' rest : Text} {ps : List (Piece Unit)} (h : Lexes before ps rest)
    (hfresh : before.head?.any isWord = before'.head?.any isWord) : Lexes before' ps [] :=
  h.transfer hfresh (fun _ => rfl) (fun _ _ _ _ => .inl rfl) fun _ =>
    .inr ⟨[], rest, [], rfl, rfl, .nil⟩

/-- What stands before a code character is read as it is read alone. -/
theorem pieces_before (h : (marked (u ++ x :: v))[u.length]? = some (x, true)) :
    ∃ R, Text.pieces sealedClaim (u ++ x :: v) = Text.pieces sealedClaim u ++ .char x :: R ∧
    spell R = v := by
  rw [marked_eq] at h
  obtain ⟨P, c, R, hps, hlen⟩ := exists_piece_of_code (i := u.length) (by rw [h]; rfl)
  have hspell := spell_pieces (u ++ x :: v)
  rw [hps, spell_append] at hspell
  obtain ⟨hu, hrest⟩ := List.append_inj hspell hlen
  obtain ⟨rfl, hR⟩ := cons.inj hrest
  have hlexes := lexes_pieces (u ++ c :: v)
  rw [hps, lexes_append] at hlexes
  have hP : Text.pieces sealedClaim u = P := pieces_eq_iff.2 ⟨hu, lexes_alone hlexes.1 rfl⟩
  exact ⟨R, by rw [hps, hP], hR⟩

/-- **A text falls apart at a code character that belongs to no name.** -/
theorem marked_cut (h : (marked (u ++ x :: v))[u.length]? = some (x, true))
    (hx : isWord x = false) : marked (u ++ x :: v) = marked u ++ (x, true) :: marked v := by
  obtain ⟨R, hps, hR⟩ := pieces_before h
  have hlexes := lexes_pieces (u ++ x :: v)
  rw [hps, lexes_append, Lexes] at hlexes
  have hv : Text.pieces sealedClaim v = R := by
    refine pieces_eq_iff.2 ⟨hR, lexes_alone hlexes.2.2 ?_⟩
    simp [hx]
  rw [marked_eq, hps, markedPieces_append, markedPieces_char, marked_eq u, marked_eq v, hv]

theorem not_isWord_of_isBracket (h : isBracket x = true) : isWord x = false := by
  cases hx : isWord x with
  | false => rfl
  | true => rw [isBracket_of_class (by decide) hx] at h; cases h

/-! ## Between two brackets -/

/-- The search for a partner passes a stretch and counts the closers that it leaves to await. -/
theorem partnerOffset_marked {closers' : List Char}
    (h : awaited closers (codeText ms) = some closers')
    (depth : Nat) (rest : Marked) : partnerOffset (closers.length + depth + 1) (ms ++ rest) =
      (partnerOffset (closers'.length + depth + 1) rest).map (· + ms.length) := by
  induction ms generalizing closers with
  | nil =>
    obtain rfl := Option.some.inj h
    simp
  | cons m ms ih =>
    obtain ⟨x, _ | _⟩ := m
    · have hsealed := partnerOffset_sealed (closers.length + depth + 1) [x] (ms ++ rest)
      rw [map_singleton, singleton_append] at hsealed
      rw [cons_append, hsealed, ih h]
      simp [Option.map_map, Function.comp_def, Nat.add_assoc]
    · rw [codeText_code, ← singleton_append, awaited_append] at h
      obtain ⟨closers₁, h₁, h₂⟩ := Option.bind_eq_some_iff.1 h
      have hfirst := partnerOffset_append h₁ depth (ms ++ rest)
      rw [map_singleton, singleton_append] at hfirst
      rw [cons_append, hfirst, ih h₂]
      simp [Option.map_map, Function.comp_def, Nat.add_assoc]

theorem exists_marks_of_codeText {a b : Text} {y : Char} (h : codeText ms = a ++ y :: b) :
    ∃ A B, ms = A ++ (y, true) :: B ∧ codeText A = a ∧ codeText B = b := by
  induction ms generalizing a with
  | nil => simp at h
  | cons m ms ih =>
    obtain ⟨x, _ | _⟩ := m
    · obtain ⟨A, B, rfl, hA, hB⟩ := ih (a := a) h
      exact ⟨(x, false) :: A, B, rfl, hA, hB⟩
    · rw [codeText_code] at h
      cases a with
      | nil =>
        obtain ⟨rfl, rfl⟩ := cons.inj h
        exact ⟨[], ms, rfl, rfl, rfl⟩
      | cons z a =>
        obtain ⟨rfl, htail⟩ := cons.inj h
        obtain ⟨A, B, rfl, hA, hB⟩ := ih htail
        exact ⟨(x, true) :: A, B, rfl, by rw [codeText_code, hA], hB⟩

theorem marked_of_append {A B : Marked} (h : marked t = A ++ (x, true) :: B)
    (hx : isWord x = false) :
    ∃ u v, t = u ++ x :: v ∧ marked u = A ∧ marked v = B := by
  have ht : t = A.map (·.1) ++ x :: B.map (·.1) := by
    rw [← map_fst_marked t, h, map_append, map_cons]
  have hcut := marked_cut (u := A.map (·.1)) (v := B.map (·.1)) (x := x)
    (by rw [← ht, h, length_map, getElem?_append_right (Nat.le_refl _), Nat.sub_self]; rfl) hx
  rw [← ht, h] at hcut
  obtain ⟨hA, hB⟩ := List.append_inj hcut (by rw [length_marked, length_map])
  exact ⟨_, _, ht, hA.symm, (cons.inj hB).2.symm⟩

/-- **Between two brackets of nested code the code is nested**, and the second is of the first one's
kind. -/
theorem nested_of_matchingClose (h : Nested t) (hx : isOpener x = true)
    (hi : (marked t)[i]? = some (x, true)) (hclose : matchingClose t i = some close) :
    ∃ u v w, t = u ++ x :: (v ++ closerOf x :: w) ∧ u.length = i ∧ close = i + 1 + v.length ∧
      marked t = marked u ++ (x, true) :: (marked v ++ (closerOf x, true) :: marked w) ∧
      Nested v := by
  have hword : isWord x = false := not_isWord_of_isBracket (by rw [isBracket, hx]; rfl)
  have hword' : isWord (closerOf x) = false :=
    not_isWord_of_isBracket (by rw [isBracket, isCloser_closerOf hx, Bool.or_true])
  obtain ⟨hlt, hget⟩ := List.getElem?_eq_some_iff.1 hi
  have hsplit : marked t = (marked t).take i ++ (x, true) :: (marked t).drop (i + 1) := by
    rw [← hget, ← drop_eq_getElem_cons hlt, take_append_drop]
  obtain ⟨u, r, rfl, hu, hr⟩ := marked_of_append hsplit hword
  have hlen : u.length = i := by
    rw [← length_marked, hu, length_take_of_le hlt.le]
  rw [← hu, ← hr] at hsplit
  have hcode := h
  rw [Nested, hsplit, codeText_append, codeText_code] at hcode
  obtain ⟨inner, rest, hinner, hbracketed⟩ := hcode.exists_partner hx
  obtain ⟨A, B, hmarks, rfl, -⟩ := exists_marks_of_codeText hinner
  obtain ⟨v, w, rfl, rfl, rfl⟩ := marked_of_append hmarks hword'
  refine ⟨u, v, w, rfl, hlen, ?_, by rw [hsplit, hmarks], hbracketed⟩
  have hawaited : awaited [] (codeText (marked v)) = some [] := hbracketed
  have hpartner := partnerOffset_marked hawaited 0 ((closerOf x, true) :: marked w)
  have hdrop : (marked (u ++ x :: (v ++ closerOf x :: w))).drop i = (x, true) :: marked
      (v ++ closerOf x :: w) := by
    rw [hsplit, ← hlen, ← length_marked u, drop_left]
  rw [matchingClose, hdrop, partnerOffset, hx, Bool.and_true, if_pos rfl, hmarks] at hclose
  rw [length_nil, Nat.zero_add] at hpartner
  rw [hpartner] at hclose
  simp [partnerOffset, isCloser_closerOf hx, isOpener_of_isCloser (isCloser_closerOf hx)] at hclose
  omega

/-! ## Calls -/

/-- A character that the head of a call may have. -/
def isHeadChar (x : Char) : Bool := isWord x || isBlank x || x == ':' || x == '!'

theorem isPlain_of_isHeadChar (h : isHeadChar x = true) : isPlain x = true := by
  simp only [isHeadChar, Bool.or_eq_true, beq_iff_eq] at h
  rcases h with ((h | h) | rfl) | rfl
  · exact isPlain_of_isWord h
  · exact isPlain_of_isBlank h
  · rfl
  · rfl

theorem isBracket_of_isHeadChar (h : isHeadChar x = true) : isBracket x = false :=
  isBracket_of_class (by decide) h

/-- A pattern that takes characters of a call's head only. -/
abbrev TakesHead {α : Type} (head : Pattern α) : Prop := Takes (fun x => isHeadChar x = true) head

theorem isHeadChar_of_isBlank (h : isBlank x = true) : isHeadChar x = true := by
  simp [isHeadChar, h]

theorem plain_of_head {h : Text} (hhead : ∀ y ∈ h, isHeadChar y = true) (hx : isBracket x = true) :
    Plain (h ++ [x]) where
  all := by
    intro y hy
    rcases mem_append.1 hy with hy | hy
    · exact isPlain_of_isHeadChar (hhead y hy)
    · obtain rfl := mem_singleton.1 hy
      cases hplain : isPlain y with
      | true => rfl
      | false => rw [isBracket_of_class (p := fun y => !isPlain y) (by decide) (by
          simp [hplain])] at hx; cases hx
  last := by
    intro y hy
    rw [getLast?_append, getLast?_singleton] at hy
    obtain rfl := Option.some.inj hy
    constructor <;> rintro rfl <;> cases hx

theorem getElem?_skipBlanks (t : Text) (index : Nat) :
    t[skipBlanks t index]? = ((t.drop index).dropWhile isBlank).head? := by
  have hsplit := takeWhile_append_dropWhile (p := isBlank) (l := t.drop index)
  rw [skipBlanks, Text.blankCount, ← getElem?_drop]
  conv => lhs; arg 1; rw [← hsplit]
  rw [getElem?_append_right (Nat.le_refl _), Nat.sub_self, head?_eq_getElem?]

theorem exists_afterMark {index : Nat} (h : afterMark? t mark index = some j) :
    ∃ g w, t.drop index = g ++ mark :: w ∧ Blank g ∧ j = index + g.length + 1 := by
  rw [afterMark?] at h
  split at h
  · rename_i hmark
    rw [getElem?_skipBlanks, beq_iff_eq] at hmark
    obtain ⟨w, hw⟩ := head?_eq_some_iff.1 hmark
    refine ⟨(t.drop index).takeWhile isBlank, w, ?_, fun x => mem_takeWhile_imp,
      (Option.some.inj h).symm⟩
    rw [← hw, takeWhile_append_dropWhile]
  · cases h

theorem exists_mark (t : Text) (mark : Char) (index : Nat) :
    ∃ s w, t.drop index = s ++ w ∧ (afterMark? t mark index).getD index = index + s.length ∧
      ∀ x ∈ s, isBlank x = true ∨ x = mark := by
  cases h : afterMark? t mark index with
  | none => exact ⟨[], _, rfl, rfl, by simp⟩
  | some j =>
    obtain ⟨g, w, hdrop, hg, rfl⟩ := exists_afterMark h
    refine ⟨g ++ [mark], w,
      by rw [hdrop, append_assoc]; rfl, ?_, forall_mem_append.2 ⟨fun x hx => .inl (hg x hx),
      by simp⟩⟩
    rw [Option.getD_some, length_append, length_singleton, Nat.add_assoc]

theorem exists_marks (t : Text) (mark mark' : Char) (index : Nat) : ∃ s w, t.drop index = s ++ w ∧
    (afterMark? t mark' ((afterMark? t mark index).getD index)).getD
    ((afterMark? t mark index).getD index) =
      index + s.length ∧ ∀ x ∈ s, isBlank x = true ∨ x = mark ∨ x = mark' := by
  obtain ⟨s, w, hs, hstop, hmarks⟩ := exists_mark t mark index
  obtain ⟨s', w', hs', hstop', hmarks'⟩ := exists_mark t mark' (index + s.length)
  have hw : w = s' ++ w' := by
    rw [← hs', ← drop_drop, hs, drop_left]
  refine ⟨s ++ s', w', by rw [hs, hw, append_assoc], ?_,
    forall_mem_append.2 ⟨fun x hx => (hmarks x hx).imp_right .inl,
      fun x hx => (hmarks' x hx).imp_right .inr⟩⟩
  rw [hstop, hstop', length_append, Nat.add_assoc]

theorem brackets_of_marks (h : ∀ x ∈ s, isBlank x = true ∨ x = '?' ∨ x = ';') : brackets s = [] :=
  brackets_eq_nil fun x hx => by
    rcases h x hx with hblank | rfl | rfl
    · exact isBracket_of_class (by decide) hblank
    · rfl
    · rfl

theorem drop_take_middle (a b c : List α) (hi : i = a.length) (hj : j = a.length + b.length) :
    ((a ++ (b ++ c)).take j).drop i = b := by
  rw [hi, hj, ← append_assoc, take_left' length_append, drop_left]

/-- Where a call stands in a text: after `u` its head matches, blanks `g` follow, and then comes the
opener `x`, which is closed at the place `close`. -/
structure Call.OpensAt {α : Type} (t : Text) (head : Pattern α) (takeSuffix : Bool) (call : Call)
    (u g r : Text) (x : Char)
    (close : Nat) : Prop where
  text : t = u ++ (call.head ++ (g ++ x :: r))
  start : call.start = u.length
  code : inCode t u.length = true
  head : (head.firstAt ⟨u.reverse, call.head ++ (g ++ x :: r)⟩).map (·.2) = some call.head.length
  chars : ∀ y ∈ call.head, isHeadChar y = true
  gap : ∀ y ∈ g, isBlank y = true
  opener : isOpener x = true
  partner : matchingClose t (u ++ (call.head ++ g)).length = some close
  args : call.argsText = t.slice ((u ++ (call.head ++ g)).length + 1) close
  suffix : (call.hasTry, call.hasSemicolon, call.stop) =
    if takeSuffix then readSuffix t (close + 1) else (false, false, close + 1)

theorem exists_opensAt {head : Pattern α} (hhead : TakesHead head)
    (hcall : call ∈ findCallsWith takeSuffix head t) :
    ∃ u g r x close, call.OpensAt t head takeSuffix u g r x close := by
  obtain ⟨u, v, r, rfl, hcode, hr, hwith⟩ := exists_head_of_mem_findCallsWith hcall
  obtain ⟨hle, hchars⟩ := hhead _ _ (mem_of_mem_head? hr)
  dsimp only at hle hchars
  obtain ⟨h, v, rfl, hlen⟩ : ∃ h v', v = h ++ v' ∧ h.length = r.2 :=
    ⟨v.take r.2, v.drop r.2, (take_append_drop _ _).symm, length_take_of_le hle⟩
  rw [← hlen] at hwith hchars
  rw [take_left] at hchars
  simp only [callWithHead?, Option.bind_eq_bind] at hwith
  split at hwith
  · cases hwith
  rename_i hopener
  obtain ⟨close, hclose, hwith⟩ := Option.bind_eq_some_iff.1 hwith
  have hdrop : (u ++ (h ++ v)).drop (u.length + h.length) = v := by
    rw [← append_assoc, ← length_append, drop_left]
  obtain ⟨x, hx, hopen⟩ : ∃ x, (v.dropWhile isBlank).head? = some x ∧ isOpener x = true := by
    rw [getElem?_skipBlanks, hdrop] at hopener
    simpa [Option.any_eq_true] using hopener
  obtain ⟨rest, hrest⟩ := head?_eq_some_iff.1 hx
  have hv : v = v.takeWhile isBlank ++ x :: rest := by rw [← hrest, takeWhile_append_dropWhile]
  have hskip : skipBlanks (u ++ (h ++ v)) (u.length + h.length) =
      (u ++ (h ++ v.takeWhile isBlank)).length := by
    rw [skipBlanks, hdrop, Text.blankCount]
    simp [Nat.add_assoc]
  rw [hskip] at hclose hwith
  have hslice : (u ++ (h ++ v)).slice u.length (u.length + h.length) = h :=
    drop_take_middle u h v rfl rfl
  obtain rfl := Option.some.inj hwith
  refine ⟨u, v.takeWhile isBlank, rest, x, close, ?_⟩
  simp only [hslice]
  exact { text := by rw [← hv], start := rfl, code := hcode,
          head := by rw [← hv, hr, Option.map_some, hlen],
          chars := hchars, gap := fun y => mem_takeWhile_imp, opener := hopen, partner := hclose,
          args := rfl, suffix := rfl }

/-- The head of a call, the blanks after it and its opener are code. -/
theorem Call.OpensAt.exists_marked {head : Pattern α} {g : Text}
    (h : call.OpensAt t head takeSuffix u g r x close) : ∃ U V,
      marked t = U ++ ((call.head ++ g).map (fun y => (y, true)) ++ (x, true) :: V) ∧
      U.length = u.length := by
  have hchars : ∀ y ∈ call.head ++ g, isHeadChar y = true :=
    forall_mem_append.2 ⟨h.chars, fun y hy => isHeadChar_of_isBlank (h.gap y hy)⟩
  have ht : t = u ++ ((call.head ++ g ++ [x]) ++ r) := by
    rw [h.text]
    simp
  obtain ⟨U, V, hmarked, hU, -⟩ := exists_marked_of_plain (u := u) (v := r)
    (plain_of_head hchars (by rw [isBracket, h.opener]; rfl)) (by simp) (by rw [← ht]; exact h.code)
  rw [← ht] at hmarked
  exact ⟨U, V, by rw [hmarked]; simp, by rw [← hU, length_map]⟩

theorem codeText_map_code (t : Text) : codeText (t.map fun x => (x, true)) = t := by
  induction t with
  | nil => rfl
  | cons x t ih => rw [map_cons, codeText_code, ih]

theorem brackets_codeText (h : brackets (ms.map (·.1)) = []) : brackets (codeText ms) = [] := by
  refine brackets_eq_nil fun x hx => ?_
  obtain ⟨m, hm, rfl⟩ := mem_map.1 hx
  simpa using filter_eq_nil_iff.1 h m.1 (mem_map_of_mem (mem_of_mem_filter hm))

/-- **A bracket of nested code with what it encloses is a bracketed stretch**, together with texts
without brackets before and after it, and what it encloses is nested. -/
theorem bracketed_stretch {p w : Text} {U V : Marked} (hnested : Nested t)
    (ht : t = u ++ (p ++ x :: r)) (hp : brackets p = []) (hopen : isOpener x = true)
    (hmarked : marked t = U ++ (p.map (fun y => (y, true)) ++ (x, true) :: V))
    (hlenU : U.length = u.length)
    (hclose : matchingClose t (u ++ p).length = some close) (hs : t.drop (close + 1) = s ++ w)
    (hnone : brackets s = []) :
    u.length < close + 1 + s.length ∧ close + 1 + s.length ≤ t.length ∧
    Nested (t.slice ((u ++ p).length + 1) close) ∧
      Bracketed (codeText (((marked t).take (close + 1 + s.length)).drop u.length)) := by
  have hlenp : (U ++ p.map fun y => (y, true)).length = (u ++ p).length := by simp [hlenU]
  have hi : (marked t)[(u ++ p).length]? = some (x, true) := by
    rw [hmarked, ← append_assoc, ← hlenp, getElem?_append_right (Nat.le_refl _), Nat.sub_self]
    rfl
  obtain ⟨u', v, w', ht', hlen', rfl, hcut, hinner⟩ :=
    nested_of_matchingClose hnested hopen hi hclose
  rw [ht', ← append_assoc] at ht
  obtain ⟨rfl, -⟩ := List.append_inj ht hlen'
  rw [hmarked, ← append_assoc] at hcut
  obtain ⟨hleft, hright⟩ := List.append_inj hcut (by rw [hlenp, length_marked])
  rw [hright, ← append_assoc] at hmarked
  obtain rfl : w' = s ++ w := by
    rw [← hs, ht', append_cons, ← append_assoc, append_cons, drop_left' (by simp; omega)]
  have hlen : t.length = (u ++ p).length + 1 + v.length + 1 + (s ++ w).length := by
    rw [ht']
    simp only [length_append, length_cons]
    omega
  refine ⟨?_, ?_, ?_, ?_⟩
  · rw [length_append]
    omega
  · have hrest : (s ++ w).length = s.length + w.length := length_append
    omega
  · have hslice := drop_take_middle (u ++ p ++ [x]) v (closerOf x :: (s ++ w))
      (i := (u ++ p).length + 1)
      (j := (u ++ p).length + 1 + v.length) (by simp; omega) (by simp; omega)
    rw [ht', Text.slice, append_cons, hslice]
    exact hinner
  · have hmiddle : ((marked t).take ((u ++ p).length + 1 + v.length + 1 + s.length)).drop u.length =
        p.map (fun y => (y, true)) ++ (x, true) ::
        (marked v ++ (closerOf x, true) :: (marked (s ++ w)).take s.length) := by
      have hsplit :
          marked t =
          U ++ ((p.map (fun y => (y, true)) ++ (x, true) :: (marked v ++ (closerOf x, true) ::
          (marked (s ++ w)).take s.length)) ++ (marked (s ++ w)).drop s.length) := by
        rw [hmarked]
        simp [take_append_drop]
      rw [hsplit]
      refine drop_take_middle _ _ _ hlenU.symm ?_
      simp [hlenU, Nat.add_assoc]
      omega
    have hs' : brackets (codeText ((marked (s ++ w)).take s.length)) = [] := by
      refine brackets_codeText ?_
      rw [map_take, map_fst_marked, take_left]
      exact hnone
    have hbrackets :
        brackets (p ++ x :: (codeText (marked v) ++ closerOf x :: codeText
        ((marked (s ++ w)).take s.length))) =
        x :: (brackets (codeText (marked v)) ++ [closerOf x]) := by
      rw [brackets_append, hp, brackets_cons (by rw [isBracket, hopen]; rfl), brackets_append,
        brackets_cons (by rw [isBracket, isCloser_closerOf hopen, Bool.or_true]), hs']
      rfl
    rw [hmiddle, codeText_append, codeText_map_code, codeText_code, codeText_append, codeText_code,
      ← bracketed_brackets, hbrackets]
    exact (bracketed_brackets.2 hinner).wrap hopen

/-- **A call of nested code is a bracketed stretch, and its arguments are nested.** -/
theorem bracketed_call (hnested : Nested t) {head : Pattern α} (hhead : TakesHead head)
    (hcall : call ∈ findCallsWith takeSuffix head t) :
    call.start < call.stop ∧ call.stop ≤ t.length ∧ Nested call.argsText ∧
      Bracketed (codeText (((marked t).take call.stop).drop call.start)) := by
  obtain ⟨u, g, r, x, close, h⟩ := exists_opensAt hhead hcall
  obtain ⟨U, V, hmarked, hlenU⟩ := h.exists_marked
  have ht : t = u ++ ((call.head ++ g) ++ x :: r) := by
    rw [h.text, append_assoc]
  have hnobracket : brackets (call.head ++ g) = [] := by
    rw [brackets_append, brackets_eq_nil fun y hy => isBracket_of_isHeadChar (h.chars y hy),
      brackets_of_blank h.gap]
    rfl
  -- what belongs to the call after its closing bracket has no bracket
  obtain ⟨s, w, hs, hstop, hnone⟩ : ∃ s w, t.drop (close + 1) = s ++ w ∧
      call.stop = close + 1 + s.length ∧
      brackets s = [] := by
    have hstop : call.stop = (if takeSuffix then readSuffix t (close + 1) else (false, false,
        close + 1)).2.2 := by
      rw [← h.suffix]
    rw [hstop]
    split
    · obtain ⟨s, w, hs, hstop, hmarks⟩ := exists_marks t '?' ';' (close + 1)
      exact ⟨s, w, hs, hstop, brackets_of_marks hmarks⟩
    · exact ⟨[], _, rfl, rfl, rfl⟩
  rw [h.start, hstop, h.args]
  exact bracketed_stretch hnested ht hnobracket h.opener hmarked hlenU h.partner hs hnone

/-! ## Between separators -/

/-- The parts of a bracketed text between separators outside brackets: each is bracketed, and with
the separators between them they make up the text. -/
theorem exists_parts (hseparator : isBracket separator = false)
    (h : awaited closers (codeText ms) = some []) :
    ∃ M Ms, partsAtDepth separator closers.length ms = (M :: Ms).map (List.map (·.1)) ∧
      ms = M ++ Ms.flatMap (fun B => (separator, true) :: B) ∧ awaited closers (codeText M) =
      some [] ∧
      ∀ B ∈ Ms, Bracketed (codeText B) := by
  induction ms generalizing closers with
  | nil => exact ⟨[], [], rfl, rfl, h, by simp⟩
  | cons m ms ih =>
    obtain ⟨x, code⟩ := m
    by_cases hopen : (code && isOpener x) = true
    · obtain ⟨rfl, hx⟩ := Bool.and_eq_true_iff.1 hopen
      rw [codeText_code, awaited_opener hx] at h
      obtain ⟨M, Ms, hparts, hms, hM, hMs⟩ := ih h
      refine ⟨(x, true) :: M, Ms, ?_,
        by rw [hms]; rfl, by rw [codeText_code, awaited_opener hx, hM], hMs⟩
      rw [partsAtDepth, if_pos hopen]
      rw [length_cons, Int.natCast_succ] at hparts
      rw [hparts]
      rfl
    · by_cases hclose : (code && isCloser x) = true
      · obtain ⟨rfl, hx⟩ := Bool.and_eq_true_iff.1 hclose
        rw [codeText_code] at h
        obtain ⟨rest, rfl, hrest⟩ := eq_of_awaited_closer hx h
        obtain ⟨M, Ms, hparts, hms, hM, hMs⟩ := ih hrest
        refine ⟨(x, true) :: M, Ms, ?_,
          by rw [hms]; rfl, by rw [codeText_code, awaited_closer hx, hM], hMs⟩
        rw [partsAtDepth, if_neg hopen, if_pos hclose, length_cons, Int.natCast_succ,
          Int.add_sub_cancel, hparts]
        rfl
      · have hother : awaited closers (codeText ((x, code) :: ms)) = awaited closers (codeText ms) ∧
            ∀ M, awaited closers (codeText ((x, code) :: M)) = awaited closers (codeText M) := by
          cases code with
          | false => exact ⟨rfl, fun _ => rfl⟩
          | true => exact ⟨awaited_other (by simpa using hopen) (by simpa using hclose),
              fun _ => awaited_other (by simpa using hopen) (by simpa using hclose)⟩
        rw [hother.1] at h
        obtain ⟨M, Ms, hparts, hms, hM, hMs⟩ := ih h
        by_cases hsep : (code && x == separator && (closers.length : Int) == 0) = true
        · simp only [Bool.and_eq_true, beq_iff_eq] at hsep
          obtain ⟨⟨rfl, rfl⟩, hdepth⟩ := hsep
          obtain rfl : closers = [] := length_eq_zero_iff.1 (Int.natCast_eq_zero.1 hdepth)
          refine ⟨[], M :: Ms, ?_, by rw [hms]; rfl, rfl, forall_mem_cons.2 ⟨hM, hMs⟩⟩
          rw [partsAtDepth, if_neg hopen, if_neg hclose, if_pos (by simp), hparts]
          rfl
        · refine ⟨(x, code) :: M, Ms, ?_, by rw [hms]; rfl, by rw [hother.2, hM], hMs⟩
          rw [partsAtDepth, if_neg hopen, if_neg hclose, if_neg hsep, hparts]
          rfl

/-- The parts between code separators are read as they are read alone. -/
theorem marked_parts (hseparator : isWord separator = false) {M : Marked} {Ms : List Marked}
    (h : marked t = M ++ Ms.flatMap fun B => (separator, true) :: B) :
    ∀ B ∈ M :: Ms, marked (B.map (·.1)) = B := by
  induction Ms generalizing t M with
  | nil =>
    rw [flatMap_nil, append_nil] at h
    simp [← h]
  | cons B Ms ih =>
    rw [flatMap_cons, cons_append] at h
    obtain ⟨u, v, rfl, rfl, hv⟩ := marked_of_append h hseparator
    exact forall_mem_cons.2 ⟨by rw [map_fst_marked], ih hv⟩

/-- **The parts of nested code between separators are nested.** -/
theorem nested_part (hbracket : isBracket separator = false) (hword : isWord separator = false)
    {part : Text}
    (h : Nested t) (hpart : part ∈ partsAtDepth separator 0 (marked t)) : Nested part := by
  obtain ⟨M, Ms, hparts, hms, hM, hMs⟩ :=
    exists_parts hbracket (show awaited [] (codeText (marked t)) = some [] from h)
  rw [show partsAtDepth separator 0 (marked t) = _ from hparts] at hpart
  obtain ⟨B, hB, rfl⟩ := mem_map.1 hpart
  rw [Nested, marked_parts hword hms B hB]
  rcases mem_cons.1 hB with rfl | hB
  · exact hM
  · exact hMs B hB

end AnchorLowering.Source
