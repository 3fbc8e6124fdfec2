import AnchorLowering.Proofs.CommentSearch
import AnchorLowering.Source.Call
import Mathlib.Data.List.Chain

/-!
# Editing pieces

An edit that replaces code by plain code keeps the other pieces: `Lexes.replace`. What a lowering
step asks about a text besides its pieces (where a bracket closes, where blanks end, which character
a stretch ends with) is answered by the pieces too, and alike for two texts that are alike but for
comments.
-/

namespace AnchorLowering.Source

open List Pattern

variable {mark x : Char} {P R ps ps' A B qs : List (Piece Unit)} {p p' : Piece Unit}
  {before head oldHead oldTail rest t tail u b s v : Text}

/-! ## Quotes apart -/

/-- A closing bracket, a question mark or a semicolon in code. -/
def endsPart : Piece Unit → Bool
  | .char c => ")]\x7d?;".toList.contains c
  | .claimed _ _ => false

/-- A quote in code, a character literal, or a literal that letters mark. -/
def startsLiteral : Piece Unit → Bool
  | .char c => c == '\''
  | .claimed _ t => t.head?.any fun c => c == '\'' || c == 'b' || c == 'r'

/-- The second piece does not stand as a literal right after the end of a part. -/
def Apart (p q : Piece Unit) : Prop := endsPart p = true → startsLiteral q = false

instance (p q : Piece Unit) : Decidable (Apart p q) := inferInstanceAs (Decidable (_ → _))

theorem startsLiteral_of_mem_chars (h : ∀ x ∈ u, isPlain x = true) (hp : p ∈ chars u) :
    startsLiteral p = false := by
  obtain ⟨x, hx, rfl⟩ := mem_map.1 hp
  by_contra hquote
  have : x = '\'' := by simpa [startsLiteral] using hquote
  subst this
  exact absurd (h _ hx) (by decide)

/-! ## Replacing code -/

/-- A piece before another one that is a line comment ends its line there. -/
theorem Lexes.line_end {u : Unit} (h : Lexes before ps rest)
    (hlast : ps.getLast? = some (.claimed u t))
    (hline : "//".toList <+: t) : rest = [] ∨ rest.head? = some '\n' := by
  obtain ⟨qs, rfl⟩ : ∃ qs, ps = qs ++ [.claimed u t] := by
    obtain rfl | ⟨qs, p, rfl⟩ := eq_nil_or_concat' ps
    · simp at hlast
    · obtain rfl : p = .claimed u t := by simpa using hlast
      exact ⟨qs, rfl⟩
  exact (lexes_append.1 h).2.1.2.line_end hline

/-- What stands before pieces matters only to a byte or raw literal that comes first. -/
theorem Lexes.of_before {before before' rest : Text} (h : Lexes before ps rest)
    (hcode : ∀ c, ps.head? = some (.char c) → c = 'b' ∨ c = 'r' → before.head?.any isWord = false)
    (hsealed : ∀ u t, ps.head? = some (.claimed u t) → t.head? = some 'b' ∨ t.head? = some 'r' →
      before'.head?.any isWord = false) : Lexes before' ps rest := by
  cases ps with
  | nil => trivial
  | cons p ps =>
    obtain ⟨hp, hps⟩ := h
    cases p with
    | char c =>
      exact ⟨fun n hn => hp n (hn.of_before fun hhead => hcode c rfl (by simpa using hhead)),
        hps.transfer (by simp) id (fun u t hlast hline => hps.line_end hlast hline) fun _ =>
          .inl rfl⟩
    | claimed u t =>
      obtain ⟨hne, hsealedAt⟩ := hp
      refine ⟨⟨hne, hsealedAt.of_before fun hhead => hsealed u t rfl ?_⟩,
        hps.transfer ?_ id (fun u t hlast hline => hps.line_end hlast hline) fun _ => .inl rfl⟩
      · obtain ⟨x, t, rfl⟩ := exists_cons_of_ne_nil hne
        exact hhead
      · simp [head?_append, head?_reverse, getLast?_eq_some_getLast hne]

theorem any_head?_reverse_append (h : u ≠ []) :
    (u.reverse ++ v).head?.any isWord = u.getLast?.any isWord := by
  rw [head?_append, head?_reverse, getLast?_eq_some_getLast h]
  rfl

/-- Plain code that can stand around other pieces: what follows its head is read as after a mark. -/
structure Shell (head tail : Text) : Prop where
  head_ne_nil : head ≠ []
  tail_ne_nil : tail ≠ []
  head_plain : Plain head
  tail_plain : Plain tail
  head_last : head.getLast?.any isWord = false

/-- Pieces before a name stay pieces before what starts afresh. -/
theorem Lexes.before_afresh {before w : Text} (h : Lexes before P v)
    (hword : v.head?.any isWord = true)
    (hw : StartsAfresh (spell P).getLast? w) : Lexes before P w := by
  refine h.transfer rfl (fun hnil => by simp [hnil] at hword) (fun u t hu hcomment => ?_)
    fun _ => .inr ⟨[], _, _, rfl, rfl, hw⟩
  -- a name follows, so the line of a comment does not end here
  obtain rfl | hbreak := h.line_end hu hcomment
  · simp at hword
  · rw [hbreak] at hword
    exact absurd hword (by decide)

/-- Code around pieces `ps` can be replaced by plain code: `head` takes the place of `oldHead`,
which starts a name, and `tail` that of `oldTail`, which ends no name before code and comes before
no literal. -/
theorem Lexes.replace (h : Lexes [] (P ++ chars oldHead ++ ps ++ chars oldTail ++ R) [])
    (hshell : Shell head tail)
    (hword : oldHead.head?.any isWord = true) (hlast : oldHead.getLast?.any isWord = false)
    (holdne : oldTail ≠ [])
    (hhead : StartsAfresh (spell P).getLast? (head ++ (spell ps ++ (tail ++ spell R))))
    (htail : ps ≠ [] → StartsAfresh (spell ps).getLast? (tail ++ spell R))
    (hline : ∀ u t, ps.getLast? = some (.claimed u t) → ¬ "//".toList <+: t)
    (hold : oldTail.getLast?.any isWord = false ∨ R.head? = some (.char '\x7b'))
    (hR : ∀ q, R.head? = some q → startsLiteral q = false) :
    Lexes [] (P ++ chars head ++ ps ++ chars tail ++ R) [] := by
  obtain ⟨hheadne, htailne, hheadPlain, htailPlain, hheadLast⟩ := hshell
  have hne : oldHead ≠ [] := by
    rintro rfl
    simp at hword
  simp only [append_assoc] at h ⊢
  obtain ⟨hP, h⟩ := lexes_append.1 h
  obtain ⟨-, h⟩ := lexes_append.1 h
  obtain ⟨hps, h⟩ := lexes_append.1 h
  obtain ⟨-, hRold⟩ := lexes_append.1 h
  simp only [spell_append, spell_chars, append_nil] at hP hps hRold
  refine lexes_append.2 ⟨?_, lexes_append.2 ⟨lexes_plain hheadPlain, lexes_append.2 ⟨?_,
    lexes_append.2 ⟨lexes_plain htailPlain, ?_⟩⟩⟩⟩ <;>
    simp only [spell_append, spell_chars, append_nil]
  · refine hP.before_afresh ?_ hhead
    obtain ⟨x, oldHead, rfl⟩ := exists_cons_of_ne_nil hne
    simpa using hword
  · refine hps.transfer ?_ (by simp [holdne]) (fun u t hu hcomment =>
      absurd hcomment (hline u t hu))
      fun hne => .inr ⟨[], _, _, rfl, rfl, htail hne⟩
    rw [any_head?_reverse_append hne, any_head?_reverse_append hheadne, hlast, hheadLast]
  · refine hRold.of_before (fun c hc hmark => ?_) fun u t hu hmark => ?_
    · obtain hold | hbrace := hold
      · rw [any_head?_reverse_append holdne, hold]
      · rw [hbrace] at hc
        cases hc
        exact absurd hmark (by decide)
    · have := hR _ hu
      obtain hmark | hmark := hmark <;> simp [startsLiteral, hmark] at this

theorem getLast?_append_chars {z : Char} (h : u.getLast? = some z)
    (ps : List (Piece Unit)) : (ps ++ chars u).getLast? = some (.char z) := by
  rw [getLast?_append, chars, getLast?_map, h]
  rfl

/-- No literal stands right after the end of a part. -/
theorem startsLiteral_head? {P R : List (Piece Unit)} {u : Text} {y : Char}
    (h : List.IsChain Apart (P ++ chars u ++ R)) (hy : u.getLast? = some y)
    (hends : endsPart (.char y) = true) {q : Piece Unit} (hq : R.head? = some q) :
    startsLiteral q = false :=
  (isChain_append.1 h).2.2 _ (getLast?_append_chars hy P) q hq hends

theorem head?_spell_ne_quote (h : Lexes before ps rest)
    (hps : ∀ p, ps.head? = some p → startsLiteral p = false) : (spell ps).head? ≠ some '\'' := by
  intro hquote
  cases ps with
  | nil => cases hquote
  | cons p ps =>
    have hp := hps p rfl
    cases p with
    | char c =>
      cases hquote
      cases hp
    | claimed u t =>
      obtain ⟨⟨hne, -⟩, -⟩ := h
      obtain ⟨x, t, rfl⟩ := exists_cons_of_ne_nil hne
      cases hquote
      cases hp

/-- Plain code can take the place of code with the quotes still apart. -/
theorem isChain_replace (h : List.IsChain Apart (P ++ chars oldHead ++ ps ++ chars oldTail ++ R))
    (hshell : Shell head tail) (hx : head.getLast? = some x) (hhead : endsPart (.char x) = false)
    (hR : ∀ q, R.head? = some q → startsLiteral q = false) :
    List.IsChain Apart (P ++ chars head ++ ps ++ chars tail ++ R) := by
  have hplain : ∀ {u : Text}, (∀ x ∈ u, isPlain x = true) → ∀ {a b : Piece Unit}, b ∈ chars u →
      Apart a b := fun hu _ _ hb _ => startsLiteral_of_mem_chars hu hb
  have hchars : ∀ {u : Text}, (∀ x ∈ u, isPlain x = true) → List.IsChain Apart (chars u) := by
    intro u hu
    rw [isChain_iff_forall_rel_of_append_cons_cons]
    intro a b l₁ l₂ heq
    exact hplain hu (by simp [heq])
  simp only [isChain_append] at h ⊢
  obtain ⟨⟨⟨⟨hP, -, -⟩, hps, -⟩, -, -⟩, hR', -⟩ := h
  refine ⟨⟨⟨⟨hP, hchars hshell.head_plain.all, ?_⟩, hps, ?_⟩, hchars hshell.tail_plain.all, ?_⟩,
    hR', ?_⟩
  · exact fun a _ b hb => hplain hshell.head_plain.all (mem_of_mem_head? hb)
  · intro a ha b _ hends
    rw [getLast?_append_chars hx, Option.mem_some_iff] at ha
    rw [← ha, hhead] at hends
    cases hends
  · exact fun a _ b hb => hplain hshell.tail_plain.all (mem_of_mem_head? hb)
  · exact fun a _ b hb _ => hR b hb

/-! ## Brackets -/

/-- The characters of pieces, each with whether it is code. -/
def markedPieces (ps : List (Piece Unit)) : Marked :=
  ps.flatMap fun piece =>
    match piece with
    | .char c => [(c, true)]
    | .claimed _ s => s.map fun c => (c, false)

@[simp] theorem markedPieces_char (c : Char) (ps : List (Piece Unit)) :
    markedPieces (.char c :: ps) = (c, true) :: markedPieces ps := rfl

@[simp] theorem markedPieces_claimed (u : Unit) (t : Text) (ps : List (Piece Unit)) :
    markedPieces (.claimed u t :: ps) = t.map (fun c => (c, false)) ++ markedPieces ps := rfl

theorem markedPieces_append (ps qs : List (Piece Unit)) :
    markedPieces (ps ++ qs) = markedPieces ps ++ markedPieces qs := flatMap_append

@[simp] theorem length_markedPieces (ps : List (Piece Unit)) :
    (markedPieces ps).length = (spell ps).length := by
  induction ps with
  | nil => rfl
  | cons p ps ih => cases p <;> simp [ih]

theorem marked_eq (t : Text) : marked t = markedPieces (Text.pieces sealedClaim t) := by
  have hzip : ∀ ps : List (Piece Unit), (spell ps).zip (marks ps) = markedPieces ps := by
    intro ps
    induction ps with
    | nil => rfl
    | cons p ps ih =>
      cases p with
      | char c => simp [ih]
      | claimed u s =>
        rw [spell_cons, Piece.text_claimed, marks_claimed, zip_append (by simp), ih,
          markedPieces_claimed]
        congr 1
        induction s with
        | nil => rfl
        | cons x s ih => simpa [replicate_succ] using ih
  rw [marked, codeMask_eq, ← hzip, spell_pieces]

theorem partnerOffset_sealed (depth : Nat) (t : Text) (rest : Marked) :
    partnerOffset depth (t.map (fun c => (c, false)) ++ rest) = (partnerOffset depth rest).map
      (· + t.length) := by
  induction t with
  | nil => simp
  | cons c t ih =>
    simp only [map_cons, cons_append, partnerOffset, Bool.false_and, Bool.false_eq_true,
      if_false, ih, Option.map_map, length_cons]
    congr 1

/-- Where a bracket closes is the same in alike pieces. -/
theorem partnerOffset_of_alike (h : Forall₂ AlikePiece ps ps')
    (depth : Nat) :
    partnerOffset depth (markedPieces ps) = partnerOffset depth (markedPieces ps') := by
  induction h generalizing depth with
  | nil => rfl
  | @cons p p' ps ps' hp _ ih =>
    cases hp with
    | comment _ _ hlen => simp only [markedPieces_claimed, partnerOffset_sealed, ih, hlen]
    | same p =>
      cases p with
      | claimed u t => simp only [markedPieces_claimed, partnerOffset_sealed, ih]
      | char c => simp only [markedPieces_char, partnerOffset, ih]

/-- The bracket that closes is a piece of code. -/
theorem exists_closer {depth k : Nat} (h : partnerOffset (depth + 1) (markedPieces ps) = some k) :
    ∃ A e R, ps = A ++ .char e :: R ∧ isCloser e = true ∧ (spell A).length = k := by
  induction ps generalizing depth k with
  | nil => cases h
  | cons p ps ih =>
    cases p with
    | claimed u t =>
      rw [markedPieces_claimed, partnerOffset_sealed] at h
      obtain ⟨k, hk, rfl⟩ := Option.map_eq_some_iff.1 h
      obtain ⟨A, e, R, rfl, he, hA⟩ := ih hk
      exact ⟨.claimed u t :: A, e, R, rfl, he, by simp [hA]; omega⟩
    | char c =>
      have hlater : ∀ {depth : Nat}, (partnerOffset (depth + 1) (markedPieces ps)).map (· + 1) =
          some k →
          ∃ A e R, .char c :: ps = A ++ .char e :: R ∧ isCloser e = true ∧
          (spell A).length = k := by
        intro depth h
        obtain ⟨k, hk, rfl⟩ := Option.map_eq_some_iff.1 h
        obtain ⟨A, e, R, rfl, he, hA⟩ := ih hk
        exact ⟨.char c :: A, e, R, rfl, he, by simp [hA]⟩
      rw [markedPieces_char] at h
      by_cases hopen : isOpener c = true
      · simp only [partnerOffset, hopen, Bool.and_self, if_true] at h
        exact hlater h
      · by_cases hclose : isCloser c = true
        · cases depth with
          | zero =>
            obtain rfl : 0 = k := by simpa [partnerOffset, hopen, hclose] using h
            exact ⟨[], c, ps, rfl, hclose, rfl⟩
          | succ depth =>
            simp only [partnerOffset, hopen, hclose, Bool.and_false, Bool.and_self,
              Bool.false_eq_true, if_false, if_true] at h
            exact hlater h
        · simp only [partnerOffset, hopen, hclose, Bool.and_false, Bool.false_eq_true, if_false]
            at h
          exact hlater h

/-! ## Alike lists of pieces -/

theorem alike_append_left (h : Forall₂ AlikePiece (A ++ B) qs) :
    ∃ A' B', qs = A' ++ B' ∧ Forall₂ AlikePiece A A' ∧ Forall₂ AlikePiece B B' := by
  induction A generalizing qs with
  | nil => exact ⟨[], qs, rfl, .nil, h⟩
  | cons p A ih =>
    obtain ⟨p', qs', hp, hqs, rfl⟩ := forall₂_cons_left_iff.1 h
    obtain ⟨A', B', rfl, hA, hB⟩ := ih hqs
    exact ⟨p' :: A', B', rfl, .cons hp hA, hB⟩

theorem alike_append {A' B' : List (Piece Unit)} (hA : Forall₂ AlikePiece A A')
    (hB : Forall₂ AlikePiece B B') : Forall₂ AlikePiece (A ++ B) (A' ++ B') :=
  rel_append hA hB

theorem eq_chars_of_alike (h : Forall₂ AlikePiece (chars t) qs) : qs = chars t := by
  induction t generalizing qs with
  | nil => exact forall₂_nil_left_iff.1 h
  | cons c t ih =>
    obtain ⟨q, qs', hq, hqs, rfl⟩ := forall₂_cons_left_iff.1 h
    cases hq
    rw [ih hqs]
    rfl

theorem head?_of_alike (h : Forall₂ AlikePiece ps ps')
    (hp' : ps'.head? = some p') : ∃ p, ps.head? = some p ∧ AlikePiece p p' := by
  cases h with
  | nil => cases hp'
  | cons hp _ =>
    cases hp'
    exact ⟨_, rfl, hp⟩

theorem getLast?_of_alike (h : Forall₂ AlikePiece ps ps') (hp' : ps'.getLast? = some p') :
    ∃ p, ps.getLast? = some p ∧ AlikePiece p p' := by
  rw [← head?_reverse] at hp' ⊢
  exact head?_of_alike (forall₂_reverse_iff.2 h) hp'

/-! ## Blanks -/

/-- A blank of code. -/
def isGap : Piece Unit → Bool
  | .char c => isBlank c
  | .claimed _ _ => false

theorem exists_gap_left (ps : List (Piece Unit)) : ∃ b qs, ps = chars b ++ qs ∧ Blank b ∧
      ∀ p, qs.head? = some p → isGap p = false := by
  induction ps with
  | nil => exact ⟨[], [], rfl, by simp, by simp⟩
  | cons p ps ih =>
    by_cases hp : isGap p = true
    · obtain ⟨b, qs, rfl, hb, hqs⟩ := ih
      cases p with
      | claimed u t => cases hp
      | char c => exact ⟨c :: b, qs, rfl, forall_mem_cons.2 ⟨hp, hb⟩, hqs⟩
    · refine ⟨[], p :: ps, rfl, by simp, fun q hq => ?_⟩
      cases hq
      simpa using hp

theorem exists_gap_right (ps : List (Piece Unit)) : ∃ qs b, ps = qs ++ chars b ∧ Blank b ∧
      ∀ p, qs.getLast? = some p → isGap p = false := by
  obtain ⟨b, qs, hps, hb, hqs⟩ := exists_gap_left ps.reverse
  refine ⟨qs.reverse, b.reverse, ?_, by simpa using hb, by simpa using hqs⟩
  rw [← reverse_reverse ps, hps, reverse_append]
  simp [chars]

/-- Pieces that neither start nor end with a blank of code, and the blanks around them. -/
structure Trimmed (ps : List (Piece Unit)) where
  left : Text
  solid : List (Piece Unit)
  right : Text
  pieces_eq : ps = chars left ++ solid ++ chars right
  left_blank : ∀ x ∈ left, isBlank x = true
  right_blank : ∀ x ∈ right, isBlank x = true
  head_solid : ∀ p, solid.head? = some p → isGap p = false
  last_solid : ∀ p, solid.getLast? = some p → isGap p = false

theorem exists_trimmed (ps : List (Piece Unit)) : Nonempty (Trimmed ps) := by
  obtain ⟨b, qs, rfl, hb, hqs⟩ := exists_gap_left ps
  obtain ⟨rs, b', rfl, hb', hrs⟩ := exists_gap_right qs
  refine ⟨⟨b, rs, b', by simp, hb, hb', fun p hp => hqs p ?_, hrs⟩⟩
  rw [head?_append, hp]
  rfl

theorem isGap_of_alike (h : AlikePiece p p') : isGap p = isGap p' := by
  cases h <;> rfl

/-- The blanks around alike pieces are the same. -/
theorem Trimmed.exists_alike (trimmed : Trimmed ps) (h : Forall₂ AlikePiece ps ps') :
    ∃ trimmed' : Trimmed ps', trimmed'.left = trimmed.left ∧ trimmed'.right = trimmed.right ∧
      Forall₂ AlikePiece trimmed.solid trimmed'.solid := by
  obtain ⟨left, solid, right, rfl, hleft, hright, hhead, hlast⟩ := trimmed
  obtain ⟨ls, rs, rfl, hls, hrs⟩ := alike_append_left h
  obtain ⟨ls, solid', rfl, hls, hsolid⟩ := alike_append_left hls
  obtain rfl := eq_chars_of_alike hls
  obtain rfl := eq_chars_of_alike hrs
  refine ⟨⟨left, solid', right, rfl, hleft, hright, fun p' hp' => ?_, fun p' hp' => ?_⟩, rfl, rfl,
    hsolid⟩
  · obtain ⟨p, hp, halike⟩ := head?_of_alike hsolid hp'
    exact (isGap_of_alike halike).symm.trans (hhead p hp)
  · obtain ⟨p, hp, halike⟩ := getLast?_of_alike hsolid hp'
    exact (isGap_of_alike halike).symm.trans (hlast p hp)

/-- A line comment. -/
def isLineComment : Piece Unit → Bool
  | .char _ => false
  | .claimed _ t => t.startsWith "//"

/-- The last thing in a text, blanks of code apart, is a line comment. -/
def endsInLineComment (t : Text) : Bool :=
  ((Text.pieces sealedClaim t).reverse.find? (!isGap ·)).any isLineComment

/-- Pieces that nothing marks as a literal's rest are the pieces of their text. -/
theorem Lexes.pieces_spell (h : Lexes before ps rest)
    (hbefore : before.head?.any isWord = false) : Text.pieces sealedClaim (spell ps) = ps :=
  pieces_eq_iff.2 ⟨rfl, h.transfer hbefore (fun _ => rfl) (fun _ _ _ _ => .inl rfl)
    fun _ => .inr ⟨[], rest, [], rfl, rfl, .nil⟩⟩

theorem endsInLineComment_spell {before rest : Text} (h : Lexes before (ps ++ chars b) rest)
    (hbefore : before.head?.any isWord = false) (hb : Blank b)
    (hlast : ∀ p, ps.getLast? = some p → isGap p = false) :
    endsInLineComment (spell (ps ++ chars b)) = ps.getLast?.any isLineComment := by
  have hgap : (chars b).reverse.find? (!isGap ·) = none := by
    simpa [chars, isGap] using hb
  rw [endsInLineComment, h.pieces_spell hbefore, reverse_append, find?_append, hgap, Option.none_or]
  rw [← head?_reverse] at hlast ⊢
  cases hps : ps.reverse with
  | nil => rfl
  | cons p qs => simp [hlast p (by rw [hps]; rfl)]

theorem isBlank_of_isPlain_eq_false (h : isPlain x = false) : isBlank x = false := by
  by_contra hblank
  simp [isPlain_of_isBlank (by simpa using hblank)] at h

/-- A piece that is no blank does not start with one. -/
theorem head?_spell_not_blank (h : Lexes before ps rest)
    (hps : ∀ p, ps.head? = some p → isGap p = false)
    (hx : (spell ps).head? = some x) :
    isBlank x = false := by
  cases ps with
  | nil => cases hx
  | cons p ps =>
    have hp := hps p rfl
    cases p with
    | char c =>
      cases hx
      exact hp
    | claimed u t =>
      obtain ⟨⟨hne, hsealed⟩, -⟩ := h
      obtain ⟨y, t, rfl⟩ := exists_cons_of_ne_nil hne
      obtain ⟨z, hz, hcases⟩ := hsealed.head_cases
      cases hx
      cases hz
      obtain rfl | rfl | rfl | rfl | rfl := hcases <;> decide

/-- A sealed piece that is not the last and no line comment ends with a mark that is not plain. -/
theorem getLast?_spell_claimed {u : Unit} (h : Lexes before ps rest) (hrest : rest ≠ [])
    (hlast : ps.getLast? = some (.claimed u t)) (hline : t.startsWith "//" = false) :
    ∃ x, (spell ps).getLast? = some x ∧ isPlain x = false := by
  obtain ⟨qs, rfl⟩ := getLast?_eq_some_iff.1 hlast
  have hsealed := (lexes_append.1 h).2.1.2
  rw [spell_nil, nil_append] at hsealed
  obtain hcomment | ⟨x, hx, hplain⟩ := (hsealed.closed hrest).1
  · have hstart : t.startsWith "//" = true := isPrefixOf_iff_prefix.2 hcomment
    rw [hstart] at hline
    cases hline
  · refine ⟨x, ?_, hplain⟩
    simp [getLast?_append, hx]

theorem getLast?_spell_not_blank (h : Lexes before ps rest) (hrest : rest ≠ [])
    (hps : ∀ p, ps.getLast? = some p → isGap p = false) (hline : ps.getLast?.any isLineComment =
      false)
    (hx : (spell ps).getLast? = some x) : isBlank x = false := by
  cases hlast : ps.getLast? with
  | none =>
    rw [getLast?_eq_none_iff.1 hlast] at hx
    cases hx
  | some p =>
    cases p with
    | char c =>
      obtain ⟨qs, rfl⟩ := getLast?_eq_some_iff.1 hlast
      obtain rfl : c = x := by simpa using hx
      exact hps _ hlast
    | claimed u t =>
      rw [hlast] at hline
      obtain ⟨y, hy, hplain⟩ := getLast?_spell_claimed h hrest hlast hline
      obtain rfl : y = x := Option.some.inj (hy.symm.trans hx)
      exact isBlank_of_isPlain_eq_false hplain

theorem trimRight_append (hb : Blank b)
    (hs : ∀ x, s.getLast? = some x → isBlank x = false) : Text.trimRight (s ++ b) = s := by
  have hb' : Blank b.reverse := by simpa using hb
  rw [Text.trimRight, reverse_append, dropWhile_append_of_pos hb']
  obtain rfl | ⟨s, x, rfl⟩ := eq_nil_or_concat' s
  · rfl
  · simp [hs x (by simp)]

theorem trim_append {b' : Text} (hb : Blank b) (hb' : Blank b')
    (hhead : ∀ x, s.head? = some x → isBlank x = false)
    (hlast : ∀ x, s.getLast? = some x → isBlank x = false) : Text.trim (b ++ s ++ b') = s := by
  rw [Text.trim, Text.trimLeft, append_assoc, dropWhile_append_of_pos hb]
  cases s with
  | nil => rw [nil_append, dropWhile_eq_nil_iff.2 hb']; rfl
  | cons x s =>
    rw [cons_append, dropWhile_cons_of_neg (by simp [hhead x rfl]), ← cons_append,
      trimRight_append hb' hlast]

/-- What is left of pieces when blanks are trimmed, if they do not end in a line comment. -/
theorem trim_spell (h : Lexes before ps rest) (hrest : rest ≠ []) (trimmed : Trimmed ps)
    (hline : trimmed.solid.getLast?.any isLineComment = false) :
    Text.trim (spell ps) = spell trimmed.solid := by
  obtain ⟨b, qs, b', rfl, hb, hb', hhead, hlast⟩ := trimmed
  obtain ⟨hqs, -⟩ := lexes_append.1 h
  have hqs := (lexes_append.1 hqs).2
  simp only [spell_append, spell_chars]
  exact trim_append hb hb' (fun x hx => head?_spell_not_blank hqs hhead hx)
    fun x hx => getLast?_spell_not_blank hqs (by simp [hrest]) hlast hline hx

/-! ## Marks after blanks -/

/-- The blanks at the start of pieces and the code character `mark` after them, if it is there. -/
def markAfter (mark : Char) : List (Piece Unit) → Option Text
  | .char c :: ps =>
    if isBlank c then (markAfter mark ps).map (c :: ·) else if c = mark then some [c] else none
  | _ => none

theorem eq_append_of_markAfter {k : Text}
    (h : markAfter mark ps = some k) :
    ps = chars k ++ ps.drop k.length ∧ k.getLast? = some mark := by
  induction ps generalizing k with
  | nil => cases h
  | cons p ps ih =>
    cases p with
    | claimed u t => cases h
    | char c =>
      rw [markAfter] at h
      split at h
      · obtain ⟨k, hk, rfl⟩ := Option.map_eq_some_iff.1 h
        obtain ⟨hps, hlast⟩ := ih hk
        refine ⟨?_, by rw [getLast?_cons, hlast]; rfl⟩
        rw [chars_cons, cons_append, length_cons, drop_succ_cons, ← hps]
      · split at h
        · rename_i hc
          cases h
          exact ⟨rfl, by rw [hc]; rfl⟩
        · cases h

theorem markAfter_of_alike (h : Forall₂ AlikePiece ps ps') :
    markAfter mark ps = markAfter mark ps' := by
  induction h with
  | nil => rfl
  | @cons p p' ps ps' hp _ ih =>
    cases hp with
    | comment => rfl
    | same p =>
      cases p with
      | claimed u t => rfl
      | char c => rw [markAfter, markAfter, ih]

theorem skipBlanks_append (x s : Text) :
    skipBlanks (x ++ s) x.length = x.length + Text.blankCount s := by
  rw [skipBlanks, drop_left]

theorem afterMark?_blank {c : Char} (hc : isBlank c = true) (x s : Text) :
    afterMark? (x ++ c :: s) mark x.length =
      afterMark? ((x ++ [c]) ++ s) mark (x ++ [c]).length := by
  have hskip : skipBlanks (x ++ c :: s) x.length = skipBlanks (x ++ [c] ++ s)
      (x ++ [c]).length := by
    rw [skipBlanks_append, skipBlanks_append, Text.blankCount, takeWhile_cons_of_pos hc,
      Text.blankCount, length_append, length_singleton, length_cons]
    omega
  rw [afterMark?, afterMark?, hskip, ← append_cons]

theorem afterMark?_of_head (hs : ∀ y, s.head? = some y → isBlank y = false) (x : Text) :
    afterMark? (x ++ s) mark x.length = if s.head? = some mark then some
      (x.length + 1) else none := by
  have hcount : Text.blankCount s = 0 := by
    cases s with
    | nil => rfl
    | cons y s => simp [Text.blankCount, hs y rfl]
  rw [afterMark?, skipBlanks_append, hcount, Nat.add_zero, getElem?_append_right (Nat.le_refl _),
    Nat.sub_self, ← head?_eq_getElem?]
  simp

/-- Where a mark after blanks ends in a text. -/
theorem afterMark?_spell (hmark : mark = '?' ∨ mark = ';') (h : Lexes before ps rest) (x : Text) :
    afterMark? (x ++ spell ps) mark x.length = (markAfter mark ps).map fun k =>
      x.length + k.length := by
  induction ps generalizing before x with
  | nil => exact afterMark?_of_head (by simp) x
  | cons p ps ih =>
    by_cases hp : isGap p = true
    · cases p with
      | claimed u t => cases hp
      | char c =>
        have hc : isBlank c = true := hp
        rw [spell_cons, Piece.text_char, singleton_append, afterMark?_blank hc, ih h.2, markAfter,
          if_pos hc, Option.map_map]
        congr 1
        funext k
        simp only [length_append, length_nil, Function.comp_apply, length_cons]
        omega
    · have hp : isGap p = false := by simpa using hp
      have hhead : ∀ q, (p :: ps).head? = some q → isGap q = false := by
        rintro q ⟨⟩
        exact hp
      rw [afterMark?_of_head fun y hy => head?_spell_not_blank h hhead hy]
      cases p with
      | char c =>
        have hc : isBlank c = false := hp
        by_cases hcm : c = mark
        · subst hcm
          simp [markAfter, hc]
        · simp [markAfter, hc, hcm]
      | claimed u t =>
        obtain ⟨⟨hne, hsealed⟩, -⟩ := h
        obtain ⟨y, t, rfl⟩ := exists_cons_of_ne_nil hne
        obtain ⟨z, hz, hcases⟩ := hsealed.head_cases
        cases hz
        have hy : y ≠ mark := by
          obtain rfl | rfl := hmark <;> obtain rfl | rfl | rfl | rfl | rfl := hcases <;> decide
        simp [markAfter, hy]

/-- What follows an operation and belongs to it: a question mark, and a semicolon on request. -/
def suffixAfter (semicolon : Bool) (ps : List (Piece Unit)) : Text :=
  let question := (markAfter '?' ps).getD []
  question ++ if semicolon then (markAfter ';' (ps.drop question.length)).getD [] else []

theorem eq_append_getD_markAfter (mark : Char) (ps : List (Piece Unit)) :
    ps = chars ((markAfter mark ps).getD []) ++ ps.drop ((markAfter mark ps).getD []).length ∧
      ∀ x, ((markAfter mark ps).getD []).getLast? = some x → x = mark := by
  cases h : markAfter mark ps with
  | none => simp
  | some k =>
    obtain ⟨hps, hlast⟩ := eq_append_of_markAfter h
    exact ⟨hps, fun x hx => by simpa [hlast] using hx.symm⟩

theorem eq_append_suffixAfter (semicolon : Bool) (ps : List (Piece Unit)) :
    ps = chars (suffixAfter semicolon ps) ++ ps.drop (suffixAfter semicolon ps).length ∧
      ∀ x, (suffixAfter semicolon ps).getLast? = some x → x = '?' ∨ x = ';' := by
  obtain ⟨hquestion, hqlast⟩ := eq_append_getD_markAfter '?' ps
  rw [suffixAfter]
  generalize (markAfter '?' ps).getD [] = q at hquestion hqlast ⊢
  cases semicolon with
  | false => exact ⟨by simpa using hquestion, fun x hx => .inl (hqlast x (by simpa using hx))⟩
  | true =>
    obtain ⟨hsemicolon, hslast⟩ := eq_append_getD_markAfter ';' (ps.drop q.length)
    simp only [if_true]
    generalize (markAfter ';' (ps.drop q.length)).getD [] = k at hsemicolon hslast ⊢
    constructor
    · rw [chars_append, append_assoc, length_append, ← drop_drop, ← hsemicolon]
      exact hquestion
    · intro x hx
      rw [getLast?_append, Option.or_eq_some_iff] at hx
      obtain hx | ⟨-, hx⟩ := hx
      · exact .inr (hslast x hx)
      · exact .inl (hqlast x hx)

theorem suffixAfter_of_alike (h : Forall₂ AlikePiece ps ps')
    (semicolon : Bool) : suffixAfter semicolon ps = suffixAfter semicolon ps' := by
  rw [suffixAfter, suffixAfter, markAfter_of_alike h, markAfter_of_alike (forall₂_drop _ h)]

theorem getD_afterMark?_spell (hmark : mark = '?' ∨ mark = ';') (h : Lexes before ps rest)
    (x : Text) :
    (afterMark? (x ++ spell ps) mark x.length).getD x.length =
    (x ++ (markAfter mark ps).getD []).length := by
  rw [afterMark?_spell hmark h]
  cases markAfter mark ps <;> simp

/-- Where a question mark and a semicolon after pieces end in a text. -/
theorem stop_suffixAfter (h : Lexes before ps rest) (x : Text) (semicolon : Bool) :
    (let stop := (afterMark? (x ++ spell ps) '?' x.length).getD x.length
      if semicolon = true then (afterMark? (x ++ spell ps) ';' stop).getD stop else stop) =
      x.length + (suffixAfter semicolon ps).length := by
  obtain ⟨hps, -⟩ := eq_append_getD_markAfter '?' ps
  rw [getD_afterMark?_spell (.inl rfl) h, suffixAfter]
  generalize (markAfter '?' ps).getD [] = q at hps ⊢
  cases semicolon with
  | false => simp
  | true =>
    rw [hps] at h
    have hspell : x ++ spell ps = (x ++ q) ++ spell (ps.drop q.length) := by
      rw [append_assoc, ← spell_chars q, ← spell_append, spell_chars q, ← hps]
    simp only [if_true, hspell]
    rw [getD_afterMark?_spell (.inr rfl) (lexes_append.1 h).2]
    simp

end AnchorLowering.Source
