import AnchorLowering.Proofs.CodeReplacement
import AnchorLowering.Proofs.OperationShell
import AnchorLowering.Proofs.PatternWay

/-!
# Loops and resets

The rules for loops over sequences and for resets of sequences rewrite code as `Reshapes` asks: a
loop keeps its binder between plain code, and a reset becomes plain code.
-/

namespace AnchorLowering.Lowering

open List Pattern Source

variable {allowed : Char → Prop} {c : Cursor} {ts : List Text} {n : Nat} {s : Scope}
  {place : SequencePlace}
  {binder v u : Text} {r : Unit × Nat} {forWriting : Bool}

/-! ## What the rules read -/

theorem getLast?_tokens {l before rest : Text} {y : Char} (hts : ts.getLast? = some l)
    (hl : l.getLast? = some y) (h : Way (tokens ts) before () u rest) : u.getLast? = some y := by
  induction ts generalizing before u with
  | nil => cases hts
  | cons t ts ih =>
    cases ts with
    | nil =>
      obtain rfl : t = l := by simpa using hts
      rwa [way_lit.1 h]
    | cons t' ts =>
      obtain ⟨g, w, rfl, -, hw⟩ := way_tokens_cons.1 h
      rw [getLast?_append, getLast?_append, ih (by simpa using hts) hw]
      rfl

/-! ## Resets -/

/-- The assignment that a reset replaces. -/
def resetTarget : Pattern SequencePlace := do
  notAfter "let "
  notAfter "mut "
  let place ← sequencePlace
  blanks
  lit "="
  notAhead (lit "=")
  blanks
  emptySequence
  pure place

/-- An assignment is a place, an equals sign and an empty sequence, and no binding. -/
theorem way_resetTarget {before rest : Text} : Way resetTarget before place u rest ↔
    (!"let ".toList.reverse.isPrefixOf before) = true ∧
    (!"mut ".toList.reverse.isPrefixOf before) = true ∧
      ∃ p g g' e, u = p ++ (g ++ '=' :: (g' ++ e)) ∧ Blank g ∧ Blank g' ∧
        ¬ ['='] <+: g' ++ (e ++ rest) ∧
        Way sequencePlace before place p (g ++ '=' :: (g' ++ e) ++ rest) ∧
        Way emptySequence (g'.reverse ++ ('=' :: (g.reverse ++ (p.reverse ++ before))))
          () e rest := by
  have hlit : ∀ {before t : Text}, (lit "=" : Pattern Unit) ⟨before, t⟩ = [] ↔ ¬ ['='] <+: t := by
    intro before t
    show (if ['='].isPrefixOf t then [((), 1)] else []) = [] ↔ _
    rw [← isPrefixOf_iff_prefix]
    split <;> simp_all
  simp only [resetTarget, notAfter, blanks, way_bind, way_behind, way_many, way_lit, way_notAhead,
    way_pure, hlit]
  constructor
  · rintro ⟨-, _, _, rfl, ⟨rfl, hlet⟩, -, _, _, rfl, ⟨rfl, hmut⟩, _, p, _, rfl, hplace, -, g,
      _, rfl, hg, -, _, _, rfl,
      rfl, -, _, _, rfl, ⟨rfl, hnot⟩, -, g', _, rfl, hg', _, e, _, rfl, he, rfl, rfl⟩
    exact ⟨hlet, by simpa using hmut, p, g, g', e, by simp, hg, hg', by simpa using hnot,
      by simpa using hplace, by simpa using he⟩
  · rintro ⟨hlet, hmut, p, g, g', e, rfl, hg, hg', hnot, hplace, he⟩
    exact ⟨(), [], _, rfl, ⟨rfl, hlet⟩, (), [], _, rfl, ⟨rfl, by simpa using hmut⟩, place,
      p, _, rfl,
      by simpa using hplace, (), g, _, rfl, hg, (), ['='], g' ++ e, rfl, rfl, (), [], _, rfl,
      ⟨rfl, by simpa using hnot⟩, (), g', e, rfl, hg', (), e, [], by simp,
      by simpa using he, rfl, rfl⟩

theorem getLast?_emptySequence {before rest : Text} (h : Way emptySequence before () u rest) :
    ∃ y ∈ [')', ']'], u.getLast? = some y := by
  obtain h | h := way_orElse.1 h
  · exact ⟨')', by decide, getLast?_tokens rfl rfl h⟩
  · exact ⟨']', by decide, getLast?_tokens rfl rfl h⟩

/-- A match of the rule is an assignment, kept if its sequence is not known. -/
theorem mem_resetAssignment (h : (v, n) ∈ resetAssignment s c) :
    ∃ place, (place, n) ∈ resetTarget c ∧
      v = match s.resolve? place with
        | none => c.after.take n
        | some f => Text.concat [place.receiver, f.lengthName, " = 0"] := by
  obtain ⟨q, hq, r, hr, heq⟩ := mem_bind.1 h
  obtain ⟨⟨place, k⟩, hplace, rfl⟩ := mem_withText.1 hq
  cases hf : s.resolve? place <;>
    simp only [hf, pure_apply, mem_singleton] at hr <;>
    subst hr <;>
    obtain ⟨rfl, rfl⟩ := Prod.mk.inj heq <;>
    exact ⟨place, hplace, by simp only [hf]⟩

theorem takes_tokens (hblank : ∀ x, isBlank x = true → allowed x)
    (h : ∀ t ∈ ts, ∀ x ∈ t, allowed x) : Takes allowed (tokens ts) := by
  induction ts with
  | nil => exact .pure ()
  | cons t ts ih =>
    have ht : Takes allowed (lit t) := .lit (h t mem_cons_self)
    cases ts with
    | nil => exact ht
    | cons u ts =>
      exact ht.bind fun _ => (Takes.many hblank).bind fun _ =>
        ih fun v hv => h v (mem_cons_of_mem t hv)

/-- An assignment takes a place, an equals sign and an empty sequence. -/
theorem takes_resetTarget (hdotted : ∀ x, DottedText x → allowed x)
    (hmarks : ∀ x ∈ ['=', ':', '(', ')', '!', '[', ']'], allowed x) :
    Takes allowed resetTarget := by
  have hbehind : ∀ t : Text, Takes allowed (notAfter t) :=
    fun t => .of_zero fun _ _ hr => (mem_behind.1 hr).2
  have hblanks : Takes allowed blanks := .many fun _ h => hdotted _ (.inr h)
  have hempty : ∀ t ∈ ["Vec".toList, "::".toList, "new".toList, "(".toList, ")".toList,
      "vec".toList, "!".toList, "[".toList, "]".toList], ∀ x ∈ t, isWord x = true ∨
        x ∈ ['=', ':', '(', ')', '!', '[', ']'] := by decide
  have htokens : ∀ {ts : List Text},
      (∀ t ∈ ts, t ∈ ["Vec".toList, "::".toList, "new".toList, "(".toList, ")".toList,
      "vec".toList, "!".toList, "[".toList, "]".toList]) → Takes allowed (tokens ts) := fun hts =>
    takes_tokens (fun _ h => hdotted _ (.inr h)) fun t ht x hx =>
      (hempty t (hts t ht) x hx).elim (fun h => hdotted x (.inl (.inl h))) (hmarks x)
  exact (hbehind _).bind fun _ => (hbehind _).bind fun _ =>
    (takes_sequencePlace.mono hdotted).bind fun _ => hblanks.bind fun _ =>
      (Takes.lit fun x hx => hmarks x (by simp_all)).bind fun _ =>
        (Takes.of_zero fun _ _ hr => (mem_notAhead.1 hr).2).bind fun _ => hblanks.bind fun _ =>
          ((htokens (by decide)).orElse (htokens (by decide))).bind fun _ => .pure _

/-- An assignment names a place, has an equals sign, and ends with a bracket. -/
theorem mem_resetTarget (h : (place, n) ∈ resetTarget c) :
    place.WellNamed ∧ c.before.head?.any isWord = false ∧ n ≤ c.after.length ∧
      ∃ oldHead oldTail, c.after.take n = oldHead ++ oldTail ∧ oldHead.getLast? = some '=' ∧
        ∃ y, oldTail.getLast? = some y ∧ endsPart (.char y) = true ∧ isWord y = false := by
  obtain ⟨u, rest, hafter, rfl, hway⟩ :=
    (mem_iff_way (takes_resetTarget (fun _ _ => trivial) fun _ _ => trivial)).1 h
  obtain ⟨-, -, p, g, g', e, rfl, -, -, -, hplace, he⟩ := way_resetTarget.1 hway
  obtain ⟨y, hbracket, hy⟩ := getLast?_emptySequence he
  obtain ⟨hwell, hfresh, -⟩ := mem_sequencePlace hplace
  have hends : ∀ y ∈ [')', ']'], endsPart (.char y) = true ∧ isWord y = false := by decide
  refine ⟨hwell, hfresh, by simp [hafter], p ++ (g ++ ['=']), g' ++ e, ?_, by simp, y, ?_,
    hends y hbracket⟩
  · rw [hafter, take_left]
    simp
  · rw [getLast?_append, hy]
    rfl

theorem startsWithWord_resetTarget : StartsWithWord resetTarget :=
  .bind_after (fun _ _ hr => .inl (mem_behind.1 hr).2) fun _ =>
    .bind_after (fun _ _ hr => .inl (mem_behind.1 hr).2) fun _ => startsWithWord_sequencePlace.bind

theorem startsWithWord_resetAssignment (s : Scope) : StartsWithWord (resetAssignment s) :=
  (startsWithWord_resetTarget.withText).bind

theorem head?_of_take_append (h : c.after.take n = u ++ v) (hu : u ≠ []) :
    u.head? = c.after.head? := by
  rw [← take_append_drop n c.after, h]
  obtain ⟨x, u, rfl⟩ := exists_cons_of_ne_nil hu
  rfl

theorem reshapes_resetAssignment (hcounted : Counted s.context) (hlocals : s.locals = []) :
    Reshapes (resetAssignment s) := by
  refine ⟨startsWithWord_resetAssignment s, fun c v n h => ?_⟩
  obtain ⟨place, hplace, rfl⟩ := mem_resetAssignment h
  obtain ⟨hwell, hfresh, hlen, oldHead, oldTail, hsplit, hequals, hend⟩ := mem_resetTarget hplace
  refine ⟨hlen, ?_⟩
  cases hf : s.resolve? place with
  | none => exact .inl rfl
  | some f =>
    have hnames := names_of_resolve? hcounted hlocals hwell hf
    have hne : oldHead ≠ [] := by
      rintro rfl
      cases hequals
    have hword : oldHead.head?.any isWord = true := by
      rw [head?_of_take_append hsplit hne]
      exact startsWithWord_resetTarget c (ne_nil_of_mem hplace)
    exact .inr ⟨{
      oldHead, oldTail
      middle := []
      head := (SequenceOp.clear.shell place.receiver f false).1
      tail := (SequenceOp.clear.shell place.receiver f false).2
      old_eq := by simpa using hsplit
      new_eq := by simp [SequenceOp.shell, Text.concat]
      shell := hnames.spelled.shell (by decide) false
      no_name_before := hfresh
      oldHead_head := hword
      oldHead_last := by rw [hequals]; decide
      oldTail_ne_nil := by rintro rfl; obtain ⟨y, hy, -⟩ := hend; cases hy
      head_last := getLast?_concat rfl rfl
      fresh_head := fun prev rest hprev => hnames.startsAfresh_head hprev _ _ _
      fresh_tail := fun hmiddle => absurd rfl hmiddle
      follows := .inl hend }⟩

/-! ## Loops -/

/-- What a loop runs over, after its binder: a borrowed sequence, up to an opening brace. -/
def loopSource (binder : Text) : Pattern (Text × Bool × SequencePlace) := do
  blanks1
  lit "in"
  blanks1
  lit "&"
  blanks
  let forWriting ← opt (do lit "mut"; blanks1)
  let place ← sequencePlace
  blanks
  ahead (lit "\x7b")
  pure (binder, forWriting.isSome, place)

/-- The head of a loop. -/
def loopTarget : Pattern (Text × Bool × SequencePlace) := do
  wordBoundary
  lit "for"
  blanks1
  let binder ← capture do
    let _ ← one (!isBlank ·)
    few (· != '\n')
  loopSource binder

/-- A match of the rule is the head of a loop, kept if its sequence is not known. -/
theorem mem_loopHead (h : (v, n) ∈ loopHead s c) :
    ∃ binder forWriting place, ((binder, forWriting, place), n) ∈ loopTarget c ∧
    v = match s.resolve? place with
        | none => c.after.take n
        | some f => Text.concat
          ["for ", binder, " in &", if forWriting then "mut " else "", place.receiver,
            f.name, "[..",
           place.receiver, f.lengthName, " as usize] "] := by
  obtain ⟨q, hq, r, hr, heq⟩ := mem_bind.1 h
  obtain ⟨⟨⟨binder, forWriting, place⟩, k⟩, htarget, rfl⟩ := mem_withText.1 hq
  cases hf : s.resolve? place <;>
    simp only [hf, pure_apply, mem_singleton] at hr <;>
    subst hr <;>
    obtain ⟨rfl, rfl⟩ := Prod.mk.inj heq <;>
    exact ⟨binder, forWriting, place, htarget, by simp only [hf]⟩

theorem borrowed_of_way {before m rest : Text} {w : Option Unit}
    (h : Way (opt (do lit "mut"; blanks1)) before w m rest) :
    w.isSome = false ∧ m = [] ∨ w.isSome = true ∧ ∃ k, k ≠ [] ∧ Blank k ∧
    m = "mut".toList ++ k := by
  simp only [blanks1, way_opt, way_bind, way_lit, way_many1] at h
  rcases h with ⟨-, rfl, -, _, k, rfl, rfl, hk, hblank⟩ | ⟨rfl, rfl⟩
  · exact .inr ⟨rfl, k, hk, hblank, rfl⟩
  · exact .inl ⟨rfl, rfl⟩

theorem letKeyword_of_way {before rest : Text} {e : Unit} (h : Way letKeyword before e u rest) :
    ∃ g m, u = "let".toList ++ (g ++ m) ∧ (g ≠ [] ∧ Blank g) ∧
    (m = [] ∨ ∃ k, Blank k ∧ m = "mut".toList ++ k) := by
  obtain ⟨_, _, _, rfl, hboundary, h⟩ := way_bind.1 h
  obtain ⟨rfl, -⟩ := way_wordBoundary.1 hboundary
  obtain ⟨_, _, _, rfl, hlet, h⟩ := way_bind.1 h
  obtain rfl := way_lit.1 hlet
  obtain ⟨_, g, _, rfl, hg, h⟩ := way_bind.1 h
  obtain ⟨w, m, _, rfl, hm, h⟩ := way_bind.1 h
  obtain ⟨-, rfl⟩ := way_pure.1 h
  refine ⟨g, m, by simp, way_many1.1 hg, ?_⟩
  rcases borrowed_of_way hm with ⟨-, rfl⟩ | ⟨-, k, -, hk, rfl⟩
  · exact .inl rfl
  · exact .inr ⟨k, hk, rfl⟩

theorem way_link {before rest : Text} {a : Unit} : Way link before a u rest ↔
    before.head?.any isWord = false ∧ ∃ w g g', w ≠ [] ∧ (∀ x ∈ w, isWord x = true) ∧ Blank g ∧
      Blank g' ∧ u = w ++ (g ++ '.' :: g') := by
  simp only [link, word, way_bind, way_wordBoundary, way_many1, way_spaced]
  constructor
  · rintro ⟨-, _, _, rfl, ⟨rfl, hne⟩, -, w, _, rfl, ⟨hw, hword⟩, g, g', rfl, hg, hg'⟩
    obtain ⟨x, w, rfl⟩ := exists_cons_of_ne_nil hw
    have hx : isWord x = true := hword x mem_cons_self
    refine ⟨?_, x :: w, g, g', hw, hword, hg, hg', rfl⟩
    simpa [hx] using hne
  · rintro ⟨hbefore, w, g, g', hw, hword, hg, hg', rfl⟩
    refine ⟨(), [], _, rfl, ⟨rfl, ?_⟩, (), w, _, rfl, ⟨hw, hword⟩, g, g', rfl, hg, hg'⟩
    obtain ⟨x, w, rfl⟩ := exists_cons_of_ne_nil hw
    have hx : isWord x = true := hword x mem_cons_self
    simp [hbefore, hx]

/-- The texts of the head of a loop. -/
structure LoopText (binder : Text) (forWriting : Bool) (place : SequencePlace) (u rest : Text) where
  gap : Text
  source : Text
  lead : Text
  borrowed : Text
  before : Text
  named : Text
  trail : Text
  text_eq : u = "for".toList ++
    (gap ++ (binder ++ (source ++ ("in".toList ++ (lead ++ ('&' :: (borrowed ++
    (named ++ trail))))))))
  gap_blank : gap ≠ [] ∧ ∀ x ∈ gap, isBlank x = true
  binder_head : ∃ x r, binder = x :: r ∧ isBlank x = false
  source_blank : source ≠ [] ∧ ∀ x ∈ source, isBlank x = true
  lead_blank : lead ≠ [] ∧ ∀ x ∈ lead, isBlank x = true
  borrowed_eq : ∃ g, (∀ x ∈ g, isBlank x = true) ∧
    (forWriting = false ∧ borrowed = g ∨ forWriting = true ∧ ∃ k, k ≠ [] ∧
      (∀ x ∈ k, isBlank x = true) ∧
      borrowed = g ++ ("mut".toList ++ k))
  place_way : Way sequencePlace before place named (trail ++ rest)
  trail_blank : ∀ x ∈ trail, isBlank x = true
  rest_head : rest.head? = some '\x7b'

theorem head?_of_ahead_lit {x : Char} {before rest : Text} (h : lit [x] ⟨before, rest⟩ ≠ []) :
    rest.head? = some x := by
  obtain ⟨r, hr⟩ := exists_mem_of_ne_nil _ h
  obtain ⟨⟨k, hk⟩, -⟩ := mem_lit.1 hr
  rw [← (show _ = rest from hk)]
  rfl

theorem exists_of_way_loopSource {start rest : Text} {r : Text × Bool × SequencePlace}
    (h : Way (loopSource binder) start r u rest) :
    ∃ source lead g m before named trail,
      u = source ++ ("in".toList ++ (lead ++ ('&' :: (g ++ (m ++ (named ++ trail)))))) ∧
      (source ≠ [] ∧ Blank source) ∧ (lead ≠ [] ∧ Blank lead) ∧
      Blank g ∧ (r.2.1 = false ∧ m = [] ∨ r.2.1 = true ∧ ∃ k, k ≠ [] ∧ Blank k ∧
        m = "mut".toList ++ k) ∧
      Way sequencePlace before r.2.2 named (trail ++ rest) ∧ Blank trail ∧
      rest.head? = some '\x7b' ∧ r.1 = binder := by
  obtain ⟨_, source, _, hu, hsource, h⟩ := way_bind.1 h
  obtain ⟨_, _, _, hu₁, hin, h⟩ := way_bind.1 h
  obtain ⟨_, lead, _, hu₂, hlead, h⟩ := way_bind.1 h
  obtain ⟨_, _, _, hu₃, hmark, h⟩ := way_bind.1 h
  obtain ⟨_, g, _, hu₄, hg, h⟩ := way_bind.1 h
  obtain ⟨w, m, _, hu₅, hm, h⟩ := way_bind.1 h
  obtain ⟨place, named, _, hu₆, hplace, h⟩ := way_bind.1 h
  obtain ⟨_, trail, _, hu₇, htrail, h⟩ := way_bind.1 h
  obtain ⟨_, _, _, hu₈, hbrace, h⟩ := way_bind.1 h
  obtain ⟨rfl, rfl⟩ := way_pure.1 h
  obtain ⟨rfl, hahead⟩ := way_ahead.1 hbrace
  obtain rfl := way_lit.1 hin
  obtain rfl := way_lit.1 hmark
  refine ⟨source, lead, g, m, _, named, trail, ?_, way_many1.1 hsource, way_many1.1 hlead,
    way_many.1 hg, borrowed_of_way hm,
    by simpa [hu₇, hu₈] using hplace, way_many.1 htrail, head?_of_ahead_lit hahead, rfl⟩
  simp [hu, hu₁, hu₂, hu₃, hu₄, hu₅, hu₆, hu₇, hu₈]

theorem exists_loopText {before rest : Text}
    (h : Way loopTarget before (binder, forWriting, place) u rest) :
    Nonempty (LoopText binder forWriting place u rest) := by
  simp only [loopTarget, blanks1, way_bind, way_wordBoundary, way_lit, way_many1, way_capture,
    way_one, way_few] at h
  obtain ⟨-, _, _, rfl, ⟨rfl, -⟩, -, _, _, rfl, rfl, -, gap, _, rfl, hgap, _, _, _, rfl,
    ⟨rfl, -, x, _, r, rfl, ⟨rfl, hx⟩, -⟩, hway⟩ := h
  obtain ⟨source, lead, g, m, _, named, trail, rfl, hsource, hlead, hg, hm, hplace, htrail,
      hrest, rfl⟩ :=
    exists_of_way_loopSource hway
  refine ⟨⟨gap, source, lead, g ++ m, _, named, trail,
    by simp, hgap, ⟨x, r, rfl, by simpa using hx⟩, hsource, hlead,
    ⟨g, hg, ?_⟩, hplace, htrail, hrest⟩⟩
  rcases hm with ⟨hw, rfl⟩ | ⟨hw, k, hk, hblank, rfl⟩
  · exact .inl ⟨hw, append_nil g⟩
  · exact .inr ⟨hw, k, hk, hblank, rfl⟩

section

variable {forWriting : Bool} {u rest : Text}

/-- What stands before the binder. -/
def LoopText.opening (text : LoopText binder forWriting place u rest) : Text :=
  "for".toList ++ text.gap

/-- What stands after the binder. -/
def LoopText.ending (text : LoopText binder forWriting place u rest) : Text :=
  text.source ++ ("in".toList ++
    (text.lead ++ ('&' :: (text.borrowed ++ (text.named ++ text.trail)))))

theorem LoopText.eq_opening (text : LoopText binder forWriting place u rest) :
    u = text.opening ++ (binder ++ text.ending) := by
  refine text.text_eq.trans ?_
  simp [opening, ending]

end

theorem startsWithWord_loopTarget : StartsWithWord loopTarget :=
  .bind_after (fun _ _ hr => .inl (mem_wordBoundary.1 hr).2) fun _ =>
    (StartsWithWord.lit (by decide)).bind

theorem bounded_loopTarget : Bounded loopTarget := by
  have hsource : ∀ binder, Bounded (loopSource binder) := fun binder =>
    Bounded.many1.bind fun _ => Bounded.lit.bind fun _ => Bounded.many1.bind fun _ =>
      Bounded.lit.bind fun _ =>
      Bounded.many.bind fun _ => (Takes.opt (Bounded.lit.bind fun _ => Bounded.many1)).bind fun _ =>
        (takes_sequencePlace.mono fun _ _ => trivial).bind fun _ => Bounded.many.bind fun _ =>
          Takes.ahead.bind fun _ => .pure _
  exact Takes.wordBoundary.bind fun _ => Bounded.lit.bind fun _ => Bounded.many1.bind fun _ =>
    (Bounded.one.bind fun _ => .few fun _ _ => trivial).capture.bind hsource

/-- The head of a loop is a keyword, a binder between blanks, and what the loop runs over. -/
theorem mem_loopTarget (h : ((binder, forWriting, place), n) ∈ loopTarget c) :
    place.WellNamed ∧ c.before.head?.any isWord = false ∧ n ≤ c.after.length ∧
    (c.after.drop n).head? = some '\x7b' ∧
      ∃ oldHead oldTail, c.after.take n = oldHead ++ binder ++ oldTail ∧
        (∃ y, oldHead.getLast? = some y ∧ isBlank y = true) ∧ oldTail ≠ [] := by
  obtain ⟨q, hq, -⟩ := mem_bind.1 h
  have hfresh := no_name_before hq (startsWithWord_loopTarget c (ne_nil_of_mem h))
  obtain ⟨u, rest, hafter, rfl, hway⟩ := (mem_iff_way bounded_loopTarget).1 h
  obtain ⟨text⟩ := exists_loopText hway
  obtain ⟨hne, hblank⟩ := text.gap_blank
  refine ⟨(mem_sequencePlace text.place_way).1, hfresh,
    by simp [hafter], by rw [hafter, drop_left, text.rest_head],
    text.opening, text.ending, ?_, ⟨text.gap.getLast hne, ?_, hblank _ (getLast_mem hne)⟩,
    by simp [LoopText.ending]⟩
  · rw [hafter, take_left, append_assoc]
    exact text.eq_opening
  · rw [LoopText.opening, getLast?_append_of_ne_nil _ hne, getLast?_eq_some_getLast hne]

/-- What a loop over the elements in use writes after its binder. -/
def loopTail (receiver : Text) (f : SequenceField) (forWriting : Bool) : Text :=
  Text.concat
    [" in &", if forWriting then "mut " else "", receiver, f.name, "[..", receiver, f.lengthName,
     " as usize] "]

theorem Names.shell_loop {receiver : Text} {f : SequenceField} (h : Names receiver f)
    (forWriting : Bool) : Shell "for " (loopTail receiver f forWriting) := by
  obtain ⟨hreceiver, hname, hlength⟩ := h.spelled.all_plain
  have hlast : (loopTail receiver f forWriting).getLast? = some ' ' := getLast?_concat rfl rfl
  have hplain : ∀ {t : Text}, t.all isPlain = true → t.getLast? = some ' ' → Plain t := by
    refine fun hall hspace => ⟨all_eq_true.1 hall, fun x hx => ?_⟩
    obtain rfl : ' ' = x := Option.some.inj (hspace.symm.trans hx)
    decide
  refine ⟨by decide, ?_, hplain (by decide) rfl, hplain ?_ hlast, by decide⟩
  · rintro hnil
    simp [hnil] at hlast
  · cases forWriting <;>
      simp only [loopTail, Text.concat, flatten_cons, flatten_nil, all_append, hreceiver,
        hname, hlength, Bool.true_and] <;>
      decide +kernel

theorem reshapes_loopHead (hcounted : Counted s.context) (hlocals : s.locals = []) :
    Reshapes (loopHead s) := by
  refine ⟨(startsWithWord_loopTarget.withText).bind, fun c v n h => ?_⟩
  obtain ⟨binder, forWriting, place, htarget, rfl⟩ := mem_loopHead h
  obtain ⟨hwell, hfresh, hlen, hbrace, oldHead, oldTail, hsplit, ⟨y, hy, hblank⟩, hne⟩ :=
    mem_loopTarget htarget
  refine ⟨hlen, ?_⟩
  cases hf : s.resolve? place with
  | none => exact .inl rfl
  | some f =>
    have hnames := names_of_resolve? hcounted hlocals hwell hf
    have hword : oldHead.head?.any isWord = true := by
      rw [head?_of_take_append (hsplit.trans (append_assoc _ _ _)) (by rintro rfl; cases hy)]
      exact startsWithWord_loopTarget c (ne_nil_of_mem htarget)
    exact .inr ⟨{
      oldHead, oldTail
      middle := binder
      head := "for "
      tail := loopTail place.receiver f forWriting
      old_eq := hsplit
      new_eq := by simp only [loopTail, Text.concat, flatten_cons, append_assoc]
      shell := hnames.shell_loop forWriting
      no_name_before := hfresh
      oldHead_head := hword
      oldHead_last := by
        rw [hy]
        by_contra hyword
        rw [isBlank_of_isWord (by simpa using hyword)] at hblank
        cases hblank
      oldTail_ne_nil := hne
      head_last := rfl
      fresh_head := fun prev rest hprev =>
        .name (h := ['f', 'o', 'r']) (by simp) hprev (by decide)
          (by decide)
      fresh_tail := fun _ prev rest => by
        simp only [loopTail, Text.concat, flatten_cons, append_assoc]
        exact startsAfresh_mark rfl (by decide) (by decide) _
      follows := .inr (by rw [length_take, Nat.min_eq_left hlen]; exact hbrace) }⟩

end AnchorLowering.Lowering
