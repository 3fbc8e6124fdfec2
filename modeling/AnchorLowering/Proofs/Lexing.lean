import AnchorLowering.Proofs.SealedRegion
import Mathlib.Data.List.Forall2

/-!
# Pieces of source text

The scan for sealed regions cuts a text into code characters and sealed stretches. `Lexes before ps
rest` says that this cut is `ps`, when `before` stands before the text and `rest` after it. It is a
condition on each piece alone, so it can be checked piece by piece, and it carries over to a text
that has the same pieces with other text around them.
-/

namespace AnchorLowering

open List

variable {c x : Char} {ps : List (Piece Unit)} {before rest t u before' v w : Text}

@[simp] theorem Piece.text_char (c : Char) : (Piece.char c : Piece Unit).text = [c] := rfl

@[simp] theorem Piece.text_claimed (u : Unit) (t : Text) : (Piece.claimed u t).text = t := rfl

namespace Source

open Pattern

/-! ## Spelling pieces -/

/-- The text that pieces spell. -/
def spell (ps : List (Piece Unit)) : Text := ps.flatMap Piece.text

/-- The characters of a text, each a piece of code. -/
def chars (t : Text) : List (Piece Unit) := t.map .char

@[simp] theorem spell_nil : spell [] = [] := rfl

@[simp] theorem spell_cons (p : Piece Unit) (ps : List (Piece Unit)) :
    spell (p :: ps) = p.text ++ spell ps := rfl

@[simp] theorem spell_append (ps qs : List (Piece Unit)) :
    spell (ps ++ qs) = spell ps ++ spell qs := flatMap_append

@[simp] theorem spell_chars (t : Text) : spell (chars t) = t := by
  induction t with
  | nil => rfl
  | cons c t ih => exact congrArg (c :: ·) ih

@[simp] theorem chars_nil : chars [] = [] := rfl

@[simp] theorem chars_cons (c : Char) (t : Text) : chars (c :: t) = .char c :: chars t := rfl

@[simp] theorem chars_append (t u : Text) : chars (t ++ u) = chars t ++ chars u := map_append

/-! ## Lexing -/

/-- The piece starts a text: no sealed region starts at a code character, and a sealed piece is the
region that starts there. -/
def Reads (before : Text) : Piece Unit → Text → Prop
  | .char c, rest => ∀ n, ¬ SealedAt before (c :: rest) n
  | .claimed _ t, rest => t ≠ [] ∧ SealedAt before (t ++ rest) t.length

/-- The pieces are those that the scan cuts, with `before` before and `rest` after them. -/
def Lexes (before : Text) : List (Piece Unit) → Text → Prop
  | [], _ => True
  | p :: ps, rest => Reads before p (spell ps ++ rest) ∧ Lexes (p.text.reverse ++ before) ps rest

theorem lexes_append {qs : List (Piece Unit)} : Lexes before (ps ++ qs) rest ↔
      Lexes before ps (spell qs ++ rest) ∧ Lexes ((spell ps).reverse ++ before) qs rest := by
  induction ps generalizing before with
  | nil => simp [Lexes]
  | cons p ps ih => simp [Lexes, ih, and_assoc]

theorem sealedClaim_eq_none (h : ∀ n, ¬ SealedAt before t n) : sealedClaim ⟨before, t⟩ = none := by
  rw [sealedClaim, Option.map_eq_none_iff, Option.eq_none_iff_forall_ne_some]
  exact fun n hn => h n (sealedLength?_eq_some_iff.1 hn)

theorem sealedClaim_eq_some {n : Nat} (h : SealedAt before t n) :
    sealedClaim ⟨before, t⟩ = some ((), n) := by
  rw [sealedClaim, sealedLength?_eq_some_iff.2 h]
  rfl

theorem scan_of_none {α : Type} {claim : Claim α} {before after : Text}
    (h : claim ⟨before, c :: after⟩ = none) :
    Text.scan claim 0 before (c :: after) = .char c :: Text.scan claim 0 (c :: before) after := by
  simp [Text.scan, h]

theorem scan_of_some {α : Type} {claim : Claim α} {before t rest : Text} {v : α} (ht : t ≠ [])
    (h : claim ⟨before, t ++ rest⟩ = some (v, t.length)) :
    Text.scan claim 0 before (t ++ rest) = .claimed v t :: Text.scan claim 0 (t.reverse ++ before)
      rest := by
  obtain ⟨c, t, rfl⟩ := exists_cons_of_ne_nil ht
  rw [cons_append, length_cons] at h
  simp [Text.scan, h, Text.scan_eq_scan_zero claim t.length]

/-- Pieces that lex are the first ones that the scan cuts. -/
theorem scan_of_lexes (h : Lexes before ps rest) :
    Text.scan sealedClaim 0 before (spell ps ++ rest) =
      ps ++ Text.scan sealedClaim 0 ((spell ps).reverse ++ before) rest := by
  induction ps generalizing before with
  | nil => simp
  | cons p ps ih =>
    obtain ⟨hp, hps⟩ := h
    have ih := ih hps
    cases p with
    | char c =>
      simp only [spell_cons, Piece.text_char, cons_append, reverse_cons, reverse_nil, nil_append,
        append_assoc] at ih ⊢
      rw [scan_of_none (sealedClaim_eq_none hp), ih]
    | claimed u t =>
      obtain ⟨hne, hsealed⟩ := hp
      simp only [spell_cons, Piece.text_claimed, cons_append, append_assoc, reverse_append] at ih ⊢
      rw [scan_of_some hne (sealedClaim_eq_some hsealed), ih]

/-- What the scan cuts lexes. -/
theorem lexes_scan (before after : Text) :
    Lexes before (Text.scan sealedClaim 0 before after) [] := by
  induction hn : after.length using Nat.strong_induction_on generalizing before after with
  | _ n ih =>
    have hspell : ∀ before after : Text, spell (Text.scan sealedClaim 0 before after) = after :=
      fun before after => Text.flatten_scan sealedClaim 0 before after
    cases after with
    | nil => trivial
    | cons c after =>
      by_cases h : ∀ n, ¬ SealedAt before (c :: after) n
      · rw [scan_of_none (sealedClaim_eq_none h)]
        refine ⟨?_, ih after.length (by rw [← hn]; simp) _ _ rfl⟩
        rw [hspell, append_nil]
        exact h
      · obtain ⟨n, h⟩ := not_forall_not.1 h
        have htake : (c :: after) = (c :: after).take n ++ (c :: after).drop n :=
          (take_append_drop n _).symm
        have hlen : ((c :: after).take n).length = n := by
          rw [length_take, Nat.min_eq_left h.le]
        have hne : (c :: after).take n ≠ [] := by
          have := h.pos
          exact ne_nil_of_length_pos (by omega)
        have hclaim : sealedClaim ⟨before, (c :: after).take n ++ (c :: after).drop n⟩ =
            some ((), ((c :: after).take n).length) := by
          rw [← htake, hlen]
          exact sealedClaim_eq_some h
        rw [htake, scan_of_some hne hclaim]
        refine ⟨⟨hne, ?_⟩, ih ((c :: after).drop n).length ?_ _ _ rfl⟩
        · rw [hspell, append_nil, ← htake, hlen]
          exact h
        · have := h.pos
          rw [← hn, length_drop, length_cons]
          omega

/-- The pieces of a text are those that spell it and lex. -/
theorem pieces_eq_iff : Text.pieces sealedClaim t = ps ↔ spell ps = t ∧ Lexes [] ps [] := by
  constructor
  · rintro rfl
    exact ⟨Text.flatten_pieces sealedClaim t, lexes_scan [] t⟩
  · rintro ⟨rfl, h⟩
    have := scan_of_lexes h
    simpa [Text.pieces, Text.scan] using this

theorem spell_pieces (t : Text) : spell (Text.pieces sealedClaim t) = t :=
  (pieces_eq_iff.1 rfl).1

theorem lexes_pieces (t : Text) : Lexes [] (Text.pieces sealedClaim t) [] :=
  (pieces_eq_iff.1 rfl).2

/-- No piece is empty. -/
theorem Lexes.spell_ne_nil (h : Lexes before ps rest) (hps : ps ≠ []) : spell ps ≠ [] := by
  obtain ⟨p, ps, rfl⟩ := exists_cons_of_ne_nil hps
  cases p with
  | char c => simp
  | claimed u t => simp [h.1.1]

/-! ## Other text around the same pieces -/

/-- One text turns into another one at a place that is some way on, and the new text starts afresh
there; `prev` is the character before both. -/
def ChangesAfresh (prev : Option Char) (v w : Text) : Prop :=
  v = w ∨ ∃ y v' w', v = y ++ v' ∧ w = y ++ w' ∧ StartsAfresh (y.getLast?.or prev) w'

/-- A code character stays code when the text after it changes to one that starts afresh. -/
theorem not_sealedAt_of_changesAfresh {before s : Text} (hs : s ≠ [])
    (hfresh : before'.head?.any isWord = false → before.head?.any isWord = false)
    (h : ∀ n, ¬ SealedAt before (s ++ v) n) (hchange : ChangesAfresh s.getLast? v w) :
    ∀ n, ¬ SealedAt before' (s ++ w) n := by
  intro n hn
  have hn : SealedAt before (s ++ w) n := hn.of_before fun hhead => hfresh (hn.fresh hhead)
  obtain rfl | ⟨y, v', w', rfl, rfl, hw⟩ := hchange
  · exact h n hn
  · rw [← append_assoc] at hn h
    rw [← getLast?_append] at hw
    obtain ⟨m, hm⟩ := hn.of_startsAfresh v' (by simp [hs]) hw
    exact h m hm

/-- Pieces stay pieces when the text after them changes to one that starts afresh. A line comment at
their end needs the end of its line. -/
theorem Lexes.transfer {before : Text} (h : Lexes before ps v)
    (hfresh : before.head?.any isWord = before'.head?.any isWord) (hend : v = [] → w = [])
    (hline : ∀ u t, ps.getLast? = some (.claimed u t) → "//".toList <+: t → w = [] ∨
      w.head? = some '\n')
    (hchange : ps ≠ [] → ChangesAfresh (spell ps).getLast? v w) : Lexes before' ps w := by
  induction ps generalizing before before' with
  | nil => trivial
  | cons p ps ih =>
    obtain ⟨hp, hps⟩ := h
    have hchange := hchange (cons_ne_nil p ps)
    rw [spell_cons] at hchange
    have hne : p.text ≠ [] := by
      cases p with
      | char c => simp
      | claimed u t => exact hp.1
    constructor
    · cases p with
      | char c =>
        exact not_sealedAt_of_changesAfresh (s := c :: spell ps) (cons_ne_nil _ _)
          (fun h => hfresh.trans h) hp hchange
      | claimed u t =>
        obtain ⟨_, hsealed⟩ := hp
        have hsealed' : SealedAt before' (t ++ (spell ps ++ v)) t.length :=
          hsealed.of_before fun hhead => hfresh ▸ hsealed.fresh hhead
        refine ⟨hne, ?_⟩
        by_cases hrest : spell ps ++ v = []
        · obtain ⟨hnil, hv⟩ := append_eq_nil_iff.1 hrest
          rw [hnil, hv] at hsealed'
          rwa [hnil, hend hv]
        · refine (hsealed'.closed hrest).2 _ fun hcomment => ?_
          by_cases hps' : ps = []
          · subst hps'
            exact hline u t rfl hcomment
          · obtain ⟨x, s, hspell⟩ := exists_cons_of_ne_nil (hps.spell_ne_nil hps')
            have := hsealed.line_end hcomment
            rw [hspell] at this ⊢
            simpa using this
    · refine ih hps ?_ ?_ ?_
      · simp [head?_append, head?_reverse, getLast?_eq_some_getLast hne]
      · intro u t hlast
        refine hline u t ?_
        rw [getLast?_cons, hlast]
        rfl
      · intro hps'
        rwa [getLast?_append_of_ne_nil _ (hps.spell_ne_nil hps')] at hchange

/-! ## Plain text -/

/-- The code points of the blanks. -/
def blankCodes : List Nat :=
  [0x20, 0x09, 0x0a, 0x0b, 0x0c, 0x0d, 0x1c, 0x1d, 0x1e, 0x1f, 0x85, 0xa0, 0x1680, 0x2000, 0x2001,
   0x2002, 0x2003, 0x2004, 0x2005, 0x2006, 0x2007, 0x2008, 0x2009, 0x200a, 0x2028, 0x2029, 0x202f,
   0x205f, 0x3000]

theorem toNat_mem_blankCodes (h : isBlank x = true) : x.toNat ∈ blankCodes := by
  simp only [isBlank, Bool.or_eq_true, beq_iff_eq, Bool.and_eq_true, decide_eq_true_eq] at h
  simp only [blankCodes, mem_cons, not_mem_nil, or_false]
  omega

/-- A fact about the characters with these codes is one about blanks. -/
theorem of_isBlank (test : Char → Bool) (h : isBlank x = true)
    (hall : ∀ n ∈ blankCodes, test (Char.ofNat n) = true) : test x = true := by
  have := hall x.toNat (toNat_mem_blankCodes h)
  rwa [Char.ofNat_toNat] at this

theorem isBlank_of_isWord (h : isWord x = true) : isBlank x = false := by
  by_contra hblank
  have hnot : (!isWord x) = true :=
    of_isBlank (fun x => !isWord x) (by simpa using hblank) (by decide +kernel)
  simp [h] at hnot

theorem isWord_of_isBlank (h : isBlank x = true) : isWord x = false := by
  by_contra hword
  rw [isBlank_of_isWord (by simpa using hword)] at h
  cases h

theorem not_blank_append {t : Text} (h : t.head?.any isWord = true) (u : Text) :
    (t ++ u).head?.any isBlank = false := by
  cases t with
  | nil => cases h
  | cons x t => simpa using isBlank_of_isWord (by simpa using h)

theorem isPlain_of_isWord (h : isWord x = true) : isPlain x = true := by
  by_contra hx
  have hmem : x ∈ "/\"'#".toList := by
    simpa only [isPlain, Bool.not_eq_true, Bool.not_eq_false', contains_eq_mem,
      decide_eq_true_eq] using hx
  have hall : ∀ x ∈ "/\"'#".toList, isWord x = false :=
    by decide
  rw [hall x hmem] at h
  cases h

theorem isPlain_of_isBlank (h : isBlank x = true) : isPlain x = true :=
  of_isBlank isPlain h (by decide)

/-- A text of plain characters that does not end like the start of a byte or raw literal. -/
structure Plain (u : Text) : Prop where
  all : ∀ x ∈ u, isPlain x = true
  last : ∀ x, u.getLast? = some x → x ≠ 'b' ∧ x ≠ 'r'

theorem Plain.tail (h : Plain (c :: u)) : Plain u where
  all := fun x hx => h.all x (mem_cons_of_mem c hx)
  last := fun x hx => h.last x (by rw [getLast?_cons, hx]; rfl)

/-- A plain text does not begin with a character that is not plain, nor with letters that may mark a
literal before one. -/
theorem Plain.not_opening {rest rest' : Text} {q : Char} (letters : Text) (h : Plain u)
    (hne : u ≠ []) (hletters : ∀ x ∈ letters, x = 'b' ∨ x = 'r') (hq : isPlain q = false)
    (heq : u ++ rest = letters ++ q :: rest') : False := by
  obtain ⟨s, rfl, -⟩ | ⟨s, rfl, hs⟩ := append_eq_append_iff.1 heq
  · have hmem := getLast_mem hne
    have hlast := h.last _ (getLast?_eq_some_getLast hne)
    have := hletters _ (mem_append_left s hmem)
    tauto
  · cases s with
    | nil =>
      rw [append_nil] at h hne
      have hlast := h.last _ (getLast?_eq_some_getLast hne)
      have := hletters _ (getLast_mem hne)
      tauto
    | cons x s =>
      obtain ⟨rfl, -⟩ := cons.inj hs
      have := h.all q (by simp)
      simp_all

/-- No sealed region starts at a plain text. -/
theorem Plain.not_sealedAt (h : Plain u) (hne : u ≠ []) (n : Nat) :
    ¬ SealedAt before (u ++ rest) n := by
  intro hsealed
  have hbyte : ∀ {mark : Text}, ByteMark before mark → ∀ x ∈ mark, x = 'b' ∨ x = 'r' := by
    rintro mark (rfl | ⟨rfl, -⟩) <;> simp
  generalize ht : u ++ rest = t at hsealed
  cases hsealed with
  | line => exact h.not_opening [] hne (by simp) (by decide) ht
  | block => exact h.not_opening [] hne (by simp) (by decide) ht
  | string hmark => exact h.not_opening _ hne (hbyte hmark) (by decide) ht
  | char hmark _ => exact h.not_opening _ hne (hbyte hmark) (by decide) ht
  | @raw mark rest' hashes hmark _ =>
    have hletters : ∀ x ∈ mark ++ ['r'], x = 'b' ∨ x = 'r' := by
      obtain rfl | rfl := hmark <;> simp
    rw [append_cons] at ht
    cases hashes with
    | zero => exact h.not_opening _ hne hletters (by decide) ht
    | succ hashes => exact h.not_opening _ hne hletters (by decide) ht

theorem lexes_plain (h : Plain u) : Lexes before (chars u) rest := by
  induction u generalizing before with
  | nil => trivial
  | cons c u ih =>
    refine ⟨?_, ih h.tail⟩
    show ∀ n, ¬ SealedAt before (c :: (spell (chars u) ++ rest)) n
    rw [spell_chars]
    exact h.not_sealedAt (cons_ne_nil c u)

/-! ## Segments -/

/-- The pieces of a segment. -/
def Segment.pieces (s : Segment) : List (Piece Unit) :=
  if s.isCode then chars s.text else [.claimed () s.text]

theorem flatMap_consPiece (p : Piece Unit) (ss : List Segment) :
    (Segment.consPiece p ss).flatMap Segment.pieces = p :: ss.flatMap Segment.pieces := by
  cases p with
  | claimed u t => rfl
  | char c =>
    cases ss with
    | nil => rfl
    | cons s ss =>
      obtain ⟨isCode, text⟩ := s
      cases isCode <;> rfl

/-- The pieces of a text are those of its segments. -/
theorem flatMap_segments (t : Text) :
    (segments t).flatMap Segment.pieces = Text.pieces sealedClaim t := by
  rw [segments]
  induction Text.pieces sealedClaim t with
  | nil => rfl
  | cons p ps ih => rw [foldr_cons, flatMap_consPiece, ih]

end Source

end AnchorLowering
