import AnchorLowering.Proofs.NestedCode

/-!
# Rules and brackets

A rewriting rule *keeps the brackets* if each match and what replaces it ask for the same closers: a
pair may come or go, but whatever was awaited before is awaited after (`SameBrackets`). Then the
rule keeps the brackets of every text that it rewrites (`sameBrackets_replaceAll`).

A rule runs on the stretches of code of a text. If these are still read as code when they are
rewritten, and nothing else is (`Recodes`), then the brackets of the whole text's code are kept
(`sameBrackets_mapCode`).
-/

namespace AnchorLowering

open List

variable {x : Char} {test p : Char → Bool} {rule : Pattern Text} {t : Text}

theorem withoutBlanks_append (t u : Text) :
    Text.withoutBlanks (t ++ u) = Text.withoutBlanks t ++ Text.withoutBlanks u :=
  filter_append ..

theorem withoutBlanks_eq_nil (h : Blank t) : Text.withoutBlanks t = [] :=
  filter_eq_nil_iff.2 fun x hx => by simp [h x hx]

namespace Source

/-! ## Texts that ask for the same closers -/

/-- A bracket of any kind. -/
def isBracket (x : Char) : Bool := isOpener x || isCloser x

/-- The brackets of a text. -/
def brackets (t : Text) : Text := t.filter isBracket

@[simp]
theorem brackets_nil : brackets [] = [] := rfl

@[simp]
theorem brackets_append (t u : Text) : brackets (t ++ u) = brackets t ++ brackets u :=
  filter_append ..

theorem brackets_cons (hx : isBracket x = true) (t : Text) : brackets (x :: t) = x :: brackets t :=
  filter_cons_of_pos hx

theorem brackets_eq_nil (h : ∀ x ∈ t, isBracket x = false) : brackets t = [] :=
  filter_eq_nil_iff.2 fun x hx => by simp [h x hx]

/-- A class of characters that holds no bracket tells so of each of them. -/
theorem isBracket_of_class (hp : "()[]\x7b\x7d".toList.any p = false) (hx : p x = true) :
    isBracket x = false := by
  obtain ⟨hopen, hclose⟩ := not_bracket_of_class hx hp
  rw [isBracket, hopen, hclose]
  rfl

theorem brackets_of_class (h : ∀ x ∈ t, p x = true) (hp : "()[]\x7b\x7d".toList.any p = false) :
    brackets t = [] :=
  brackets_eq_nil fun x hx => isBracket_of_class hp (h x hx)

theorem brackets_of_blank (h : Blank t) : brackets t = [] := brackets_of_class h (by decide)

theorem brackets_of_word (h : ∀ x ∈ t, isWord x = true) : brackets t = [] :=
  brackets_of_class h (by decide)

/-- Only the brackets of a text matter to what is awaited after it. -/
theorem awaited_brackets (closers : List Char) (t : Text) :
    awaited closers (brackets t) = awaited closers t := by
  induction t generalizing closers with
  | nil => rfl
  | cons x t ih =>
    by_cases hopen : isOpener x = true
    · have hx : isBracket x = true := by simp [isBracket, hopen]
      rw [brackets, filter_cons_of_pos hx, awaited_opener hopen, awaited_opener hopen, ← ih]
      rfl
    · by_cases hclose : isCloser x = true
      · have hx : isBracket x = true := by simp [isBracket, hclose]
        rw [brackets, filter_cons_of_pos hx]
        simp only [awaited, hopen, hclose, if_true, if_false, Bool.false_eq_true]
        split
        · rfl
        · split
          · rw [← ih]
            rfl
          · rfl
      · have hx : ¬isBracket x = true := by simp [isBracket, hopen, hclose]
        rw [brackets, filter_cons_of_neg hx, awaited_other (by simpa using hopen)
          (by simpa using hclose), ← ih]
        rfl

/-- Only the brackets of a text matter. -/
theorem bracketed_brackets : Bracketed (brackets t) ↔ Bracketed t := by
  rw [Bracketed, Bracketed, awaited_brackets]

theorem Bracketed.of_brackets_eq_nil (h : brackets t = []) : Bracketed t := by
  rw [← bracketed_brackets, h]
  rfl

/-- Two texts after which the same closers are awaited, whatever was awaited before. -/
def SameBrackets (u v : Text) : Prop := ∀ closers, awaited closers u = awaited closers v

namespace SameBrackets

variable {t u v w : Text}

theorem refl (u : Text) : SameBrackets u u := fun _ => rfl

theorem symm (h : SameBrackets u v) : SameBrackets v u := fun closers => (h closers).symm

theorem trans (h : SameBrackets u v) (h' : SameBrackets v w) : SameBrackets u w := fun closers =>
  (h closers).trans (h' closers)

/-- Brackets may be exchanged part by part. -/
theorem append (h : SameBrackets t u) (h' : SameBrackets v w) : SameBrackets (t ++ v) (u ++ w) := by
  intro closers
  rw [awaited_append, awaited_append, h closers]
  exact Option.bind_congr fun closers' _ => h' closers'

theorem of_brackets_eq (h : brackets u = brackets v) : SameBrackets u v := by
  intro closers
  rw [← awaited_brackets, h, awaited_brackets]

/-- Two bracketed texts change nothing that is awaited. -/
theorem of_bracketed (hu : Bracketed u) (hv : Bracketed v) : SameBrackets u v := by
  intro closers
  rw [hu.awaited_eq, hv.awaited_eq]

theorem append_bracketed (hv : Bracketed v) : SameBrackets u (u ++ v) := by
  intro closers
  rw [awaited_append]
  cases awaited closers u with
  | none => rfl
  | some closers' => exact (hv.awaited_eq closers').symm

theorem bracketed_append (hv : Bracketed v) : SameBrackets u (v ++ u) := by
  intro closers
  rw [awaited_append, hv.awaited_eq]
  rfl

/-- A text with the brackets of a bracketed one is bracketed. -/
theorem bracketed (h : SameBrackets u v) (hu : Bracketed u) : Bracketed v := (h []).symm.trans hu

end SameBrackets

end Source

/-! ## What a match takes -/

namespace Pattern

open Source

variable {α β : Type}

/-- What holds of the value and the text of every way to match. -/
def Ensures (p : Pattern α) (R : α → Text → Prop) : Prop :=
  ∀ c, ∀ r ∈ p c, r.2 ≤ c.after.length ∧ R r.1 (c.after.take r.2)

namespace Ensures

variable {p : Pattern α} {R S : α → Text → Prop}

/-- What a pattern takes is ensured. -/
theorem of_takes {allowed : Char → Prop} (h : Takes allowed p) :
    p.Ensures fun _ u => ∀ x ∈ u, allowed x := h

theorem mono (h : p.Ensures R) (hRS : ∀ a u, R a u → S a u) : p.Ensures S := fun c r hr =>
  ⟨(h c r hr).1, hRS _ _ (h c r hr).2⟩

theorem and (hp : p.Ensures R) (hp' : p.Ensures S) : p.Ensures fun a u => R a u ∧ S a u :=
  fun c r hr =>
  ⟨(hp c r hr).1, (hp c r hr).2, (hp' c r hr).2⟩

theorem pure {a : α} (h : R a []) : (Pure.pure a : Pattern α).Ensures R := by
  intro c r hr
  obtain rfl := mem_singleton.1 hr
  exact ⟨Nat.zero_le _, h⟩

/-- The second pattern is told what the first one took. -/
theorem bind {q : α → Pattern β} {T : β → Text → Prop} (hp : p.Ensures R)
    (hq : ∀ a u, R a u → (q a).Ensures fun b v => T b (u ++ v)) : (p >>= q).Ensures T := by
  intro c r hr
  obtain ⟨⟨a, n⟩, ha, ⟨b, m⟩, hb, rfl⟩ := mem_bind.1 hr
  obtain ⟨hle, hR⟩ := hp c _ ha
  obtain ⟨hle', hT⟩ := hq a _ hR _ _ hb
  simp only [Cursor.after_advance, length_drop] at hle' hle hT
  refine ⟨by dsimp only; omega, ?_⟩
  rwa [take_add]

theorem orElse {q : Pattern α} (hp : p.Ensures R) (hq : q.Ensures R) : (p <|> q).Ensures R :=
  fun c r hr =>
  (mem_orElse.1 hr).elim (hp c r) (hq c r)

theorem lit (t : Text) : (Pattern.lit t).Ensures fun _ u => u = t := by
  intro c r hr
  obtain ⟨hpre, hlen⟩ := mem_lit.1 hr
  rw [hlen]
  exact ⟨hpre.length_le, prefix_iff_eq_take.1 hpre |>.symm⟩

theorem oneOf (texts : List Text) : (Pattern.oneOf texts).Ensures fun t u => u = t ∧ t ∈ texts := by
  rintro c ⟨t, n⟩ hr
  obtain ⟨hmem, hpre, rfl⟩ := mem_oneOf.1 hr
  exact ⟨hpre.length_le, (prefix_iff_eq_take.1 hpre).symm, hmem⟩

theorem choose {table : List (String × α)} :
    (Pattern.choose table).Ensures fun a _ => ∃ e ∈ table, e.2 = a := by
  rintro c ⟨a, n⟩ hr
  obtain ⟨e, he, hpre, hr⟩ := mem_choose.1 hr
  obtain ⟨rfl, rfl⟩ := Prod.mk.inj hr
  exact ⟨hpre.length_le, e, he, rfl⟩

theorem one : (Pattern.one test).Ensures fun x u => u = [x] ∧ test x = true := by
  rintro c ⟨x, n⟩ hr
  obtain ⟨rest, hafter, hx, rfl⟩ := mem_one.1 hr
  rw [hafter]
  exact ⟨by simp, rfl, hx⟩

theorem behind {test : Text → Bool} : (Pattern.behind test).Ensures fun _ u => u = [] := by
  intro c r hr
  rw [(mem_behind.1 hr).2]
  exact ⟨Nat.zero_le _, rfl⟩

theorem capture (hp : p.Ensures R) : (Pattern.capture p).Ensures fun t u => u = t ∧ ∃ a, R a u := by
  rintro c r hr
  obtain ⟨⟨a, n⟩, ha, rfl⟩ := mem_capture.1 hr
  exact ⟨(hp c _ ha).1, rfl, a, (hp c _ ha).2⟩

theorem withText (hp : p.Ensures R) :
    (Pattern.withText p).Ensures fun r u => u = r.2 ∧ R r.1 u := by
  rintro c r hr
  obtain ⟨⟨a, n⟩, ha, rfl⟩ := mem_withText.1 hr
  exact ⟨(hp c _ ha).1, rfl, (hp c _ ha).2⟩

theorem opt (hp : p.Ensures R) :
    (Pattern.opt p).Ensures fun o u => (∃ a, o = some a ∧ R a u) ∨ o = none ∧ u = [] := by
  rintro c r hr
  obtain ⟨⟨a, n⟩, ha, rfl⟩ | rfl := mem_opt.1 hr
  · exact ⟨(hp c _ ha).1, .inl ⟨a, rfl, (hp c _ ha).2⟩⟩
  · exact ⟨Nat.zero_le _, .inr ⟨rfl, rfl⟩⟩

end Ensures

/-- A pattern that takes bracketed texts only. -/
abbrev Neutral (p : Pattern α) : Prop := p.Ensures fun _ u => Bracketed u

/-- A pattern that takes no bracket. -/
abbrev TakesNoBracket (p : Pattern α) : Prop := Takes (fun x => isBracket x = false) p

namespace TakesNoBracket

theorem ensures {p : Pattern α} (h : TakesNoBracket p) : p.Ensures fun _ u => brackets u = [] :=
  fun c r hr =>
  ⟨(h c r hr).1, brackets_eq_nil (h c r hr).2⟩

theorem neutral {p : Pattern α} (h : TakesNoBracket p) : Neutral p :=
  h.ensures.mono fun _ _ => .of_brackets_eq_nil

theorem wordBoundary : TakesNoBracket Pattern.wordBoundary := Takes.wordBoundary

theorem ahead {p : Pattern α} : TakesNoBracket (Pattern.ahead p) := Takes.ahead

theorem notAhead {p : Pattern α} : TakesNoBracket (Pattern.notAhead p) := Takes.notAhead

theorem behind {test : Text → Bool} : TakesNoBracket (Pattern.behind test) := Takes.behind

theorem many (h : "()[]\x7b\x7d".toList.any test = false) : TakesNoBracket (Pattern.many test) :=
  Takes.many fun _ => isBracket_of_class h

theorem blanks : TakesNoBracket Pattern.blanks := many (by decide)

theorem blanks1 : TakesNoBracket Pattern.blanks1 :=
  (Takes.one fun _ => isBracket_of_class (by decide)).bind fun _ => blanks

theorem word : TakesNoBracket Pattern.word :=
  (Takes.one fun _ => isBracket_of_class (by decide)).bind fun _ => many (by decide)

theorem lit (h : brackets t = []) : TakesNoBracket (Pattern.lit t) :=
  Takes.lit fun x hx => by simpa using filter_eq_nil_iff.1 h x hx

theorem spaced (h : brackets t = []) : TakesNoBracket (Pattern.spaced t) :=
  blanks.bind fun _ => (lit h).bind fun _ => blanks

theorem tokens {ts : List Text} (h : brackets ts.flatten = []) :
    TakesNoBracket (Pattern.tokens ts) := by
  induction ts with
  | nil => exact .pure _
  | cons t ts ih =>
    rw [flatten_cons, brackets_append, append_eq_nil_iff] at h
    cases ts with
    | nil => exact lit h.1
    | cons t' ts => exact (lit h.1).bind fun _ => blanks.bind fun _ => ih h.2

theorem link : TakesNoBracket Source.link :=
  Takes.wordBoundary.bind fun _ => word.bind fun _ => spaced rfl

theorem chain : TakesNoBracket Source.chain := link.star

theorem chain1 : TakesNoBracket Source.chain1 := link.bind fun _ => chain

theorem dottedName : TakesNoBracket Source.dottedName :=
  chain.bind fun _ => Takes.wordBoundary.bind fun _ => word

theorem letKeyword : TakesNoBracket Source.letKeyword :=
  Takes.wordBoundary.bind fun _ => (lit rfl).bind fun _ => blanks1.bind fun _ =>
    (Takes.opt ((lit rfl).bind fun _ => blanks1)).bind fun _ => .pure _

theorem borrow : TakesNoBracket Source.borrow :=
  (lit rfl).bind fun _ => blanks.bind fun _ => (Takes.opt ((lit rfl).bind fun _ => blanks1)).bind
    fun _ => .pure _

theorem capture {p : Pattern α} (h : TakesNoBracket p) :
    (Pattern.capture p).Ensures fun t u => brackets u = [] ∧ brackets t = [] :=
  h.ensures.capture.mono fun _ _ => by
    rintro ⟨rfl, -, hnone⟩
    exact ⟨hnone, hnone⟩

end TakesNoBracket

namespace Neutral

theorem bind {p : Pattern α} {q : α → Pattern β} (hp : Neutral p) (hq : ∀ a, Neutral (q a)) :
    Neutral (p >>= q) :=
  Ensures.bind hp fun a _ hu => (hq a).mono fun _ _ hv => hu.append hv

/-- What is left of tokens without the blanks is what is left of their texts: there are only blanks
between. -/
theorem filter_tokens {p : Char → Bool} (hp : ∀ x, isBlank x = true → p x = false)
    (ts : List Text) : (Pattern.tokens ts).Ensures fun _ u => u.filter p = ts.flatten.filter p := by
  induction ts with
  | nil => exact .pure rfl
  | cons t ts ih =>
    cases ts with
    | nil => exact (Ensures.lit t).mono fun _ _ hu => by rw [hu, flatten_singleton]
    | cons t' ts =>
      refine (Ensures.lit t).bind fun _ _ ht =>
        (Ensures.of_takes (Takes.many hp)).bind fun _ g hg => ih.mono fun _ w hw => ?_
      have hgap : g.filter p = [] := filter_eq_nil_iff.2 fun x hx => by simp [hg x hx]
      rw [ht, flatten_cons, filter_append, filter_append, filter_append, hgap, hw]
      rfl

/-- The brackets of tokens are those of the tokens' texts. -/
theorem brackets_tokens (ts : List Text) :
    (Pattern.tokens ts).Ensures fun _ u => brackets u = brackets ts.flatten :=
  filter_tokens (fun _ hx => isBracket_of_class (by decide) hx) ts

/-- Tokens end with the last one. -/
theorem suffix_tokens (ts : List Text) :
    (Pattern.tokens ts).Ensures fun _ u => ∀ t ∈ ts.getLast?, t <:+ u := by
  induction ts with
  | nil => exact .pure fun t ht => nomatch ht
  | cons t ts ih =>
    cases ts with
    | nil =>
      refine (Ensures.lit t).mono fun _ _ hu t' ht' => ?_
      obtain rfl := Option.mem_some_iff.1 ht'
      exact hu ▸ suffix_refl _
    | cons t' ts =>
      refine (Ensures.lit t).bind fun _ _ _ => (Ensures.of_takes TakesNoBracket.blanks).bind
        fun _ _ _ =>
        ih.mono fun _ w hw s hs => ?_
      rw [getLast?_cons_cons] at hs
      exact ((hw s hs).trans (suffix_append _ _)).trans (suffix_append _ _)

theorem tokens {ts : List Text} (h : Bracketed ts.flatten) : Neutral (Pattern.tokens ts) :=
  (brackets_tokens ts).mono fun _ _ hu => by rwa [← bracketed_brackets, hu, bracketed_brackets]

theorem noArguments : Neutral Source.noArguments := tokens (by decide)

end Neutral

/-- Every match, after parts with the brackets of `s`, is read as a value that satisfies `V`, and
`f` of that value asks for the same closers as all of it. -/
def Turns (s : Text) (f : α → Text) (V : α → Prop) (p : Pattern α) : Prop :=
  p.Ensures fun a u => SameBrackets (s ++ u) (f a) ∧ V a

namespace Turns

variable {s : Text} {f : β → Text} {V : β → Prop}

theorem pure {b : β} (h : SameBrackets s (f b)) (hV : V b) : Turns s f V (Pure.pure b) :=
  Ensures.pure ⟨by rwa [append_nil], hV⟩

/-- A pattern is read and its text is added to what was read. -/
theorem read {R : α → Text → Prop} {p : Pattern α} {q : α → Pattern β} (hp : p.Ensures R)
    (hq : ∀ a u, R a u → Turns (s ++ u) f V (q a)) : Turns s f V (p >>= q) :=
  hp.bind fun a u hu => (hq a u hu).mono fun _ _ h => by rwa [← append_assoc]

/-- A neutral pattern is read and left out. -/
theorem skip {p : Pattern α} {q : α → Pattern β} (hp : Neutral p) (hq : ∀ a, Turns s f V (q a)) :
    Turns s f V (p >>= q) :=
  read hp fun a _ hu => (hq a).mono fun _ _ h =>
    ⟨((SameBrackets.append_bracketed hu).symm.append (.refl _)).trans h.1, h.2⟩

theorem pass {p : Pattern α} {q : α → Pattern β} (hp : TakesNoBracket p)
    (hq : ∀ a, Turns s f V (q a)) :
    Turns s f V (p >>= q) := skip hp.neutral hq

/-- A part is passed over that takes no bracket, but what is known of its value is kept. -/
theorem note {P : α → Prop} {p : Pattern α} {q : α → Pattern β}
    (hp : p.Ensures fun a u => brackets u = [] ∧ P a)
    (hq : ∀ a, P a → Turns s f V (q a)) : Turns s f V (p >>= q) :=
  read hp fun a _ hu => (hq a hu.2).mono fun _ _ h =>
    ⟨((SameBrackets.append_bracketed (.of_brackets_eq_nil hu.1)).symm.append (.refl _)).trans h.1,
      h.2⟩

theorem neutral {p : Pattern α} {V : α → Prop} (h : Turns [] (fun _ => []) V p) : Neutral p :=
  h.mono fun _ _ h =>
  h.1.symm.bracketed rfl

theorem withText {p : Pattern β} (hp : Turns [] f V p) :
    (Pattern.withText p).Ensures fun r u => u = r.2 ∧ SameBrackets u (f r.1) ∧ V r.1 :=
  Ensures.withText hp

end Turns

end Pattern

namespace Source

open Pattern

/-! ## Rewriting a text -/

/-- A rule each of whose matches is replaced by a text that asks for the same closers. -/
abbrev KeepsBrackets (rule : Pattern Text) : Prop := Turns [] id (fun _ => True) rule

/-- What the pieces of a rewritten text become. -/
def rewritten (ps : List (Piece Text)) : Text :=
  ps.flatMap fun piece =>
    match piece with
    | .char c => [c]
    | .claimed replacement _ => replacement

/-- Rewriting keeps the brackets if each claimed piece does. -/
theorem sameBrackets_rewritten {ps : List (Piece Text)}
    (h : ∀ v s, Piece.claimed v s ∈ ps → SameBrackets s v) :
    SameBrackets (ps.flatMap Piece.text) (rewritten ps) := by
  induction ps with
  | nil => exact .refl _
  | cons p ps ih =>
    rw [rewritten, flatMap_cons, flatMap_cons]
    refine SameBrackets.append ?_ (ih fun v s hmem => h v s (mem_cons_of_mem _ hmem))
    cases p with
    | char c => exact .refl _
    | claimed v s => exact h v s mem_cons_self

/-- **A rule that keeps the brackets of its matches keeps those of every text.** -/
theorem sameBrackets_replaceAll (hrule : KeepsBrackets rule) (t : Text) :
    SameBrackets t (rule.replaceAll t) := by
  have hpieces : SameBrackets _ (rewritten (Text.pieces rule.firstAt t)) :=
    sameBrackets_rewritten fun v s hmem => by
    obtain ⟨_, _, n, -, hclaim, rfl⟩ := exists_claim_of_mem_scan hmem
    exact (hrule _ _ (mem_of_mem_head? hclaim)).2.1
  rwa [Text.flatten_pieces] at hpieces

/-! ## Rewriting the code of a text -/

/-- A segment, its characters marked as code or sealed. -/
def Segment.marks (s : Segment) : Marked := s.text.map fun x => (x, s.isCode)

/-- Rewritten by `f`, the stretches of code are read as code, and nothing else is. -/
def Recodes (f : Text → Text) (t : Text) : Prop :=
  marked (mapCode f t) = ((segments t).map (Segment.mapCode f)).flatMap Segment.marks

instance (f : Text → Text) (t : Text) : Decidable (Recodes f t) :=
  inferInstanceAs (Decidable (_ = _))

theorem markedPieces_segments (ss : List Segment) :
    markedPieces (ss.flatMap Segment.pieces) = ss.flatMap Segment.marks := by
  induction ss with
  | nil => rfl
  | cons s ss ih =>
    rw [flatMap_cons, flatMap_cons, markedPieces_append, ih]
    congr 1
    obtain ⟨_ | _, t⟩ := s
    · simp [Segment.pieces, Segment.marks, markedPieces]
    · induction t with
      | nil => rfl
      | cons x t ih =>
        have htail : markedPieces (chars t) = t.map fun x => (x, true) := ih
        simp [Segment.pieces, Segment.marks, htail]

theorem marked_eq_segments (t : Text) : marked t = (segments t).flatMap Segment.marks := by
  rw [marked_eq, ← flatMap_segments, markedPieces_segments]

theorem codeText_marks (s : Segment) : codeText s.marks = if s.isCode then s.text else [] := by
  obtain ⟨code, t⟩ := s
  induction t with
  | nil => cases code <;> rfl
  | cons x t ih =>
    cases code with
    | false => exact ih
    | true => exact congrArg (x :: ·) ih

/-- The code of a text is that of its segments of code. -/
theorem codeText_flatMap (ss : List Segment) :
    codeText (ss.flatMap Segment.marks) = ss.flatMap fun s => if s.isCode then s.text else [] := by
  induction ss with
  | nil => rfl
  | cons s ss ih => rw [flatMap_cons, codeText_append, ih, codeText_marks, flatMap_cons]

/-- **Code that is rewritten and still read as code keeps its brackets.** -/
theorem sameBrackets_mapCode {f : Text → Text} (h : Recodes f t)
    (hf : ∀ s ∈ segments t, s.isCode = true → SameBrackets s.text (f s.text)) :
    SameBrackets (codeText (marked t)) (codeText (marked (mapCode f t))) := by
  rw [h, marked_eq_segments t, codeText_flatMap, codeText_flatMap]
  generalize segments t = ss at hf
  induction ss with
  | nil => exact .refl _
  | cons s ss ih =>
    rw [map_cons, flatMap_cons, flatMap_cons]
    refine SameBrackets.append ?_ (ih fun s hs => hf s (mem_cons_of_mem _ hs))
    obtain ⟨_ | _, u⟩ := s
    · exact .refl _
    · exact hf _ mem_cons_self rfl

/-- A rule that keeps brackets keeps nested code nested, if what it writes is read as code. -/
theorem nested_replaceInCode (hrule : KeepsBrackets rule) (h : Recodes rule.replaceAll t)
    (hnested : Nested t) : Nested (replaceInCode rule t) :=
  (sameBrackets_mapCode h fun s _ _ => sameBrackets_replaceAll hrule s.text).bracketed hnested

/-- Rules that run one after the other, each on code that is still read as code. -/
def RecodesAll : List (Pattern Text) → Text → Prop
  | [], _ => True
  | rule :: rules, t => Recodes rule.replaceAll t ∧ RecodesAll rules (replaceInCode rule t)

instance RecodesAll.decide : (rules : List (Pattern Text)) → (t : Text) →
    Decidable (RecodesAll rules t)
  | [], _ => isTrue trivial
  | rule :: rules, t =>
    have := RecodesAll.decide rules (replaceInCode rule t)
    inferInstanceAs (Decidable (_ ∧ _))

/-- So do rules one after the other, by induction on them. -/
theorem nested_foldl {rules : List (Pattern Text)} (hrules : ∀ rule ∈ rules, KeepsBrackets rule)
    {t : Text} (h : RecodesAll rules t) (hnested : Nested t) :
    Nested (rules.foldl (fun t rule => replaceInCode rule t) t) := by
  induction rules generalizing t with
  | nil => exact hnested
  | cons rule rules ih =>
    have hfirst := nested_replaceInCode (hrules rule mem_cons_self) h.1 hnested
    exact ih (fun rule hrule => hrules rule (mem_cons_of_mem _ hrule)) h.2 hfirst

end Source

end AnchorLowering
