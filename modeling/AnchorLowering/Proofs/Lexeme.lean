import AnchorLowering.Proofs.Lexing

/-!
# Lexemes of code

A stretch of code is a sequence of words, runs of blanks and single marks, and it is so in one way
only. A rule about names that looks at whole words is then a rule on a list of lexemes: it needs no
talk of places inside a word, where none of its matches can start.
-/

namespace AnchorLowering

open List

variable {ls : List Lexeme} {s t u : Text} {l : Lexeme}

namespace Text

variable {p : Char → Bool} {a b : Text}

theorem dropWhile_append_of_head? (ha : ∀ x ∈ a, p x = true) (hb : b.head?.any p = false) :
    (a ++ b).dropWhile p = b := by
  rw [dropWhile_append_of_pos ha]
  cases b with
  | nil => rfl
  | cons x b => exact dropWhile_cons_of_neg (by simpa using hb)

theorem takeWhile_append_of_head? (ha : ∀ x ∈ a, p x = true) (hb : b.head?.any p = false) :
    (a ++ b).takeWhile p = a := by
  rw [takeWhile_append_of_pos ha]
  cases b with
  | nil => exact append_nil a
  | cons x b =>
    rw [takeWhile_cons_of_neg (by simpa using hb), append_nil]

end Text

/-- A run of characters of one class is determined by where the class ends. -/
theorem append_inj_of_class {p : Char → Bool} {v : Text} (hu : ∀ x ∈ u, p x = true)
    (hv : ∀ x ∈ v, p x = true)
    (hs : s.head?.any p = false) (ht : t.head?.any p = false) (h : u ++ s = v ++ t) :
    u = v ∧ s = t := by
  constructor
  · rw [← Text.takeWhile_append_of_head? hu hs, h, Text.takeWhile_append_of_head? hv ht]
  · rw [← Text.dropWhile_append_of_head? hu hs, h, Text.dropWhile_append_of_head? hv ht]

namespace Source

/-- A name is made of word characters. -/
structure IsName (t : Text) : Prop where
  ne_nil : t ≠ []
  word : ∀ x ∈ t, isWord x = true

instance (t : Text) : Decidable (IsName t) :=
  decidable_of_iff (t ≠ [] ∧ t.all isWord = true)
    ⟨fun ⟨ne_nil, word⟩ => ⟨ne_nil, all_eq_true.1 word⟩,
      fun ⟨ne_nil, word⟩ => ⟨ne_nil, all_eq_true.2 word⟩⟩

theorem IsName.getLast? (h : IsName t) : t.getLast?.any isWord = true := by
  rw [getLast?_eq_some_getLast h.ne_nil]
  exact h.word _ (getLast_mem h.ne_nil)

theorem IsName.head? (h : IsName t) : t.head?.any isWord = true := by
  obtain ⟨x, t, rfl⟩ := exists_cons_of_ne_nil h.ne_nil
  exact h.word x mem_cons_self

theorem IsName.append (h : IsName t) (hu : ∀ x ∈ u, isWord x = true) : IsName (t ++ u) where
  ne_nil := by simp [h.ne_nil]
  word := forall_mem_append.2 ⟨h.word, hu⟩

/-- A word, a run of blanks, or any other character of code. -/
inductive Lexeme where
  | word (w : Text)
  | gap (g : Text)
  | mark (x : Char)

namespace Lexeme

/-! ## Writing lexemes -/

/-- The text of a lexeme. -/
def text : Lexeme → Text
  | word w => w
  | gap g => g
  | mark x => [x]

/-- The text that lexemes write. -/
def write (ls : List Lexeme) : Text := ls.flatMap text

@[simp] theorem write_nil : write [] = [] := rfl

@[simp] theorem write_cons (l : Lexeme) (ls : List Lexeme) : write (l :: ls) = l.text ++ write ls :=
  rfl

@[simp] theorem text_word (w : Text) : (word w).text = w := rfl

@[simp] theorem text_gap (g : Text) : (gap g).text = g := rfl

@[simp] theorem text_mark (x : Char) : (mark x).text = [x] := rfl

/-- The characters of a lexeme are those of its class, and there is one. -/
def OfClass : Lexeme → Prop
  | word w => IsName w
  | gap g => g ≠ [] ∧ ∀ x ∈ g, isBlank x = true
  | mark x => isWord x = false ∧ isBlank x = false

/-- The lexeme does not go on in the text after it. -/
def EndsBefore : Lexeme → Text → Prop
  | word _, rest => rest.head?.any isWord = false
  | gap _, rest => rest.head?.any isBlank = false
  | mark _, _ => True

/-- Every lexeme is of its class, and none goes on in the next one. -/
def Lexed : List Lexeme → Prop
  | [] => True
  | l :: ls => l.OfClass ∧ l.EndsBefore (write ls) ∧ Lexed ls

theorem OfClass.text_ne_nil (h : l.OfClass) : l.text ≠ [] := by
  cases l with
  | word w => exact h.ne_nil
  | gap g => exact h.1
  | mark x => exact cons_ne_nil x []

/-- Two lexemes that start one text are the same one. -/
theorem OfClass.inj {l' : Lexeme} (h : l.OfClass) (h' : l'.OfClass) (hs : l.EndsBefore s)
    (ht : l'.EndsBefore t) (heq : l.text ++ s = l'.text ++ t) :
    l = l' ∧ s = t := by
  -- two different classes would share the first character
  have hclash : ∀ {u v : Text}, u ≠ [] → v ≠ [] → u ++ s = v ++ t → ∃ x, x ∈ u ∧ x ∈ v := by
    intro u v hu hv huv
    obtain ⟨x, u, rfl⟩ := exists_cons_of_ne_nil hu
    obtain ⟨y, v, rfl⟩ := exists_cons_of_ne_nil hv
    obtain rfl : x = y := (cons.inj huv).1
    exact ⟨x, mem_cons_self, mem_cons_self⟩
  have hshared := hclash h.text_ne_nil h'.text_ne_nil heq
  obtain ⟨x, hx, hx'⟩ := hshared
  cases l with
  | word w =>
    cases l' with
    | word w' =>
      obtain ⟨rfl, rfl⟩ := append_inj_of_class h.2 h'.2 hs ht heq
      exact ⟨rfl, rfl⟩
    | gap g =>
      have hblank := h'.2 x hx'
      rw [isBlank_of_isWord (h.2 x hx)] at hblank
      cases hblank
    | mark y =>
      obtain rfl := mem_singleton.1 hx'
      have hword := h.2 x hx
      rw [h'.1] at hword
      cases hword
  | gap g =>
    cases l' with
    | word w =>
      have hblank := h.2 x hx
      rw [isBlank_of_isWord (h'.2 x hx')] at hblank
      cases hblank
    | gap g' =>
      obtain ⟨rfl, rfl⟩ := append_inj_of_class h.2 h'.2 hs ht heq
      exact ⟨rfl, rfl⟩
    | mark y =>
      obtain rfl := mem_singleton.1 hx'
      have hblank := h.2 x hx
      rw [h'.2] at hblank
      cases hblank
  | mark y =>
    cases l' with
    | word w =>
      obtain rfl := mem_singleton.1 hx
      have hword := h'.2 x hx'
      rw [h.1] at hword
      cases hword
    | gap g =>
      obtain rfl := mem_singleton.1 hx
      have hblank := h'.2 x hx'
      rw [h.2] at hblank
      cases hblank
    | mark z =>
      obtain ⟨rfl, rfl⟩ := cons.inj heq
      exact ⟨rfl, rfl⟩

theorem Lexed.write_injective {ls' : List Lexeme} (h : Lexed ls) (h' : Lexed ls')
    (heq : write ls = write ls') : ls = ls' := by
  induction ls generalizing ls' with
  | nil =>
    cases ls' with
    | nil => rfl
    | cons l' ls' =>
      have hne := h'.1.text_ne_nil
      rw [write_cons] at heq
      exact absurd (append_eq_nil_iff.1 heq.symm).1 hne
  | cons l ls ih =>
    cases ls' with
    | nil =>
      have hne := h.1.text_ne_nil
      rw [write_cons] at heq
      exact absurd (append_eq_nil_iff.1 heq).1 hne
    | cons l' ls' =>
      obtain ⟨rfl, hrest⟩ := h.1.inj h'.1 h.2.1 h'.2.1 heq
      rw [ih h.2.2 h'.2.2 hrest]

/-! ## The lexemes of a text -/

/-- Puts a character before lexemes; it joins the first one if that is of its class. -/
def consChar (x : Char) (ls : List Lexeme) : List Lexeme :=
  if isWord x then
    match ls with
    | word w :: ls => word (x :: w) :: ls
    | ls => word [x] :: ls
  else if isBlank x then
    match ls with
    | gap g :: ls => gap (x :: g) :: ls
    | ls => gap [x] :: ls
  else mark x :: ls

/-- The lexemes of a text. -/
def lexemes (t : Text) : List Lexeme := t.foldr consChar []

theorem write_consChar (x : Char) (ls : List Lexeme) : write (consChar x ls) = x :: write ls := by
  unfold consChar
  split
  · split <;> rfl
  · split
    · split <;> rfl
    · rfl

theorem write_lexemes (t : Text) : write (lexemes t) = t := by
  induction t with
  | nil => rfl
  | cons x t ih => rw [lexemes, foldr_cons, write_consChar, ← lexemes, ih]

/-- Lexemes that do not start with a word start with no word character. -/
theorem Lexed.head?_isWord (h : Lexed ls) (hword : ∀ w ls', ls ≠ word w :: ls') :
    (write ls).head?.any isWord = false := by
  cases ls with
  | nil => rfl
  | cons l ls =>
    cases l with
    | word w => exact absurd rfl (hword w ls)
    | gap g =>
      obtain ⟨x, g, rfl⟩ := exists_cons_of_ne_nil h.1.1
      have hx := h.1.2 x mem_cons_self
      by_contra hne
      have hw : isWord x = true := by simpa using hne
      rw [isBlank_of_isWord hw] at hx
      cases hx
    | mark x => exact h.1.1

/-- Lexemes that do not start with a gap start with no blank. -/
theorem Lexed.head?_isBlank (h : Lexed ls) (hgap : ∀ g ls', ls ≠ gap g :: ls') :
    (write ls).head?.any isBlank = false := by
  cases ls with
  | nil => rfl
  | cons l ls =>
    cases l with
    | word w =>
      obtain ⟨x, w, rfl⟩ := exists_cons_of_ne_nil h.1.ne_nil
      exact isBlank_of_isWord (h.1.word x mem_cons_self)
    | gap g => exact absurd rfl (hgap g ls)
    | mark x => exact h.1.2

theorem Lexed.consChar (h : Lexed ls) (x : Char) : Lexed (consChar x ls) := by
  unfold Lexeme.consChar
  split
  · rename_i hx
    split
    · rename_i w ls
      obtain ⟨⟨-, hw⟩, hend, hls⟩ := h
      refine ⟨⟨cons_ne_nil x w, ?_⟩, hend, hls⟩
      exact forall_mem_cons.2 ⟨hx, hw⟩
    · rename_i hword
      refine ⟨⟨cons_ne_nil x [], by simpa using hx⟩, ?_, h⟩
      exact h.head?_isWord fun w ls' => hword w ls'
  · rename_i hx
    split
    · rename_i hblank
      split
      · rename_i g ls
        obtain ⟨⟨-, hg⟩, hend, hls⟩ := h
        refine ⟨⟨cons_ne_nil x g, ?_⟩, hend, hls⟩
        exact forall_mem_cons.2 ⟨hblank, hg⟩
      · rename_i hgap
        refine ⟨⟨cons_ne_nil x [], by simpa using hblank⟩, ?_, h⟩
        exact h.head?_isBlank fun g ls' => hgap g ls'
    · rename_i hblank
      exact ⟨⟨by simpa using hx, by simpa using hblank⟩, trivial, h⟩

theorem lexed_lexemes (t : Text) : Lexed (lexemes t) := by
  induction t with
  | nil => trivial
  | cons x t ih => exact ih.consChar x

/-! ## The first lexeme -/

theorem Lexed.exists_mark_cons (h : Lexed ls) {x : Char} (hx : (mark x).OfClass)
    (heq : write ls = x :: s) : ∃ ls', ls = mark x :: ls' ∧ write ls' = s := by
  cases ls with
  | nil => cases heq
  | cons l ls =>
    obtain ⟨rfl, hs⟩ := h.1.inj hx h.2.1 trivial (t := s) heq
    exact ⟨ls, rfl, hs⟩

theorem Lexed.exists_word_cons (h : Lexed ls) {w : Text} (hw : IsName w)
    (hs : s.head?.any isWord = false) (heq : write ls = w ++ s) :
    ∃ ls', ls = word w :: ls' ∧ write ls' = s := by
  cases ls with
  | nil => exact absurd (append_eq_nil_iff.1 heq.symm).1 hw.ne_nil
  | cons l ls =>
    have hclass : (word w).OfClass := hw
    obtain ⟨rfl, hs⟩ := h.1.inj hclass h.2.1 (t := s) hs heq
    exact ⟨ls, rfl, hs⟩

/-- The lexemes after a gap, if there is one. -/
def dropGap : List Lexeme → List Lexeme
  | gap _ :: ls => ls
  | ls => ls

theorem Lexed.dropGap (h : Lexed ls) :
    Lexed (dropGap ls) ∧ (write (Lexeme.dropGap ls)).head?.any isBlank = false ∧
      ∃ g, Blank g ∧ write ls = g ++ write (Lexeme.dropGap ls) := by
  unfold Lexeme.dropGap
  split
  · rename_i g ls
    exact ⟨h.2.2, h.2.1, g, h.1.2, rfl⟩
  · rename_i hgap
    exact ⟨h, h.head?_isBlank fun g ls' => hgap g ls', [], by simp, rfl⟩

/-- What follows the blanks of a text is what follows the gap. -/
theorem Lexed.write_dropGap (h : Lexed ls) {g : Text} (hg : Blank g)
    (hs : s.head?.any isBlank = false) (heq : write ls = g ++ s) :
    write (Lexeme.dropGap ls) = s := by
  obtain ⟨-, hhead, g', hg', hwrite⟩ := h.dropGap
  exact (append_inj_of_class hg' hg hhead hs (hwrite.symm.trans heq)).2

end Lexeme

end Source

end AnchorLowering
