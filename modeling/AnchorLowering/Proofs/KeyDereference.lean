import AnchorLowering.Proofs.Respacing

/-!
# Marks on compared keys

A comparison by equality gets a mark before a key handle if the other side is none. A comparison can
be read in one way only (`Found.unique`), so the rewriting is a relation on texts (`Dereferenced`)
that follows the search, and a second run reads what the first one has written. It finds the same
comparisons again, with one exception: a comparison that was passed over because a name comes right
after it is found once that name has a mark before it (`Exposed`).
-/

namespace AnchorLowering.Lowering

open List Pattern Source

/-! ## Sides of a comparison -/

/-- Names with a dot between neighbours, blanks allowed around the dot. -/
inductive Dotted : Text → Prop
  | name {u : Text} (h : IsName u) : Dotted u
  | link {u g g' t : Text} (hname : IsName u) (hg : Blank g) (hg' : Blank g')
    (h : Dotted t) : Dotted (u ++ (g ++ '.' :: (g' ++ t)))

/-- A dotted name, or a call on one without arguments. -/
inductive Operand : Text → Prop
  | name {u : Text} (h : Dotted u) : Operand u
  | call {u g g' : Text} (h : Dotted u) (hg : Blank g) (hg' : Blank g') :
    Operand (u ++ (g ++ '(' :: (g' ++ [')'])))

def isSigil (x : Char) : Bool := x == '*' || x == '&'

/-- One side of a comparison: an operand, possibly behind a mark. -/
def Side (u : Text) : Prop := Operand u ∨ ∃ x w, isSigil x = true ∧ Operand w ∧ u = x :: w

variable {x : Char} {a : Unit} {before before' rest rest' t t' u v w d l o r l' o' r' : Text}

theorem not_of_isSigil (hx : isSigil x = true) :
    isWord x = false ∧ isBlank x = false ∧ x ∉ ['=', '!'] := by
  rcases (by simpa [isSigil] using hx : x = '*' ∨ x = '&') with rfl | rfl <;> decide

theorem way_dottedName :
    Way dottedName before a u rest ↔ before.head?.any isWord = false ∧ Dotted u := by
  have hlast : ∀ {before w}, Way (wordBoundary >>= fun _ => word) before a w rest ↔
      before.head?.any isWord = false ∧ IsName w := by
    intro before w
    simp only [word, way_bind, way_wordBoundary, way_many1]
    constructor
    · rintro ⟨-, _, w, rfl, ⟨rfl, hne⟩, hw, hword⟩
      have hname : IsName w := ⟨hw, hword⟩
      rw [head?_append_of_ne_nil _ hw, hname.head?] at hne
      exact ⟨by simpa using hne, hname⟩
    · rintro ⟨hbefore, hw⟩
      refine ⟨(), [], w, rfl, ⟨rfl, ?_⟩, hw.ne_nil, hw.word⟩
      rw [head?_append_of_ne_nil _ hw.ne_nil, hw.head?, hbefore]
      exact Bool.false_ne_true
  rw [dottedName, way_bind]
  constructor
  · rintro ⟨_, links, w, rfl, hlinks, hw⟩
    rw [chain, way_star] at hlinks
    generalize hfollow : w ++ rest = follow at hlinks
    induction hlinks with
    | nil => exact (hlast.1 hw).imp_right .name
    | cons hne hlink _ ih =>
      obtain ⟨hbefore, n, g, g', hn, hword, hg, hg', rfl⟩ := way_link.1 hlink
      refine ⟨hbefore, ?_⟩
      simpa using Dotted.link ⟨hn, hword⟩ hg hg' (ih (by simpa using hw) hfollow).2
  · rintro ⟨hbefore, hu⟩
    induction hu generalizing before with
    | name h => exact ⟨(), [], _, rfl, way_star.2 .nil, hlast.2 ⟨hbefore, h⟩⟩
    | @link n g g' t hname hg hg' h ih =>
      have hdot : ((n ++ (g ++ '.' :: g')).reverse ++ before).head?.any isWord = false := by
        have := head?_gap (g := g'.reverse) (by simpa using hg') (x := '.') (by decide)
          ((n ++ g).reverse ++ before)
        simpa using this
      obtain ⟨_, links, w, rfl, hlinks, hw⟩ := ih hdot
      refine ⟨(), n ++ (g ++ '.' :: g') ++ links, w, by simp, way_star.2 ?_, by simpa using hw⟩
      exact .cons (a := ()) (by simp) (way_link.2 ⟨hbefore, n, g, g', hname.ne_nil, hname.word, hg,
        hg', rfl⟩)
        (way_star.1 hlinks)

/-- An operand without a mark. -/
def operandText : Pattern Unit := do
  dottedName
  let _ ← opt do
    blanks
    noArguments

theorem way_operandText (hbefore : before.head?.any isWord = false) :
    Way operandText before a u rest ↔ Operand u := by
  simp only [operandText, noArguments, blanks, tokens, way_bind, way_dottedName, way_opt, way_many,
    way_lit, way_pure]
  constructor
  · rintro ⟨-, n, _, rfl, ⟨-, hn⟩, -, _, _, rfl,
      ⟨_, -, -, g, _, rfl, hg, -, _, _, rfl, rfl, -, g', _, rfl, hg', rfl⟩ | ⟨-, rfl⟩, -, rfl⟩
    · simpa using Operand.call hn hg hg'
    · simpa using Operand.name hn
  · rintro (hn | @⟨n, g, g', hn, hg, hg'⟩)
    · exact ⟨(), u, [], by simp, ⟨hbefore, hn⟩, none, [], [], rfl, .inr ⟨rfl, rfl⟩, trivial, rfl⟩
    · exact ⟨(), n, _, rfl, ⟨hbefore, hn⟩, some (), _, [], (append_nil _).symm,
        .inl ⟨(), rfl, (), g, _, rfl, hg, (), _, _, rfl, rfl, (), g', _, rfl, hg', rfl⟩,
        trivial, rfl⟩

theorem way_comparisonOperand (hbefore : before.head?.any isWord = false) :
    Way comparisonOperand before v u rest ↔ v = u ∧ Side u := by
  have heq : comparisonOperand = capture (opt (one isSigil) >>= fun _ => operandText) := rfl
  simp only [heq, way_capture, way_bind, way_opt, way_one]
  refine and_congr_right fun _ => ?_
  constructor
  · rintro ⟨_, _, _, w, rfl, ⟨x, -, rfl, hx⟩ | ⟨-, rfl⟩, hw⟩
    · exact .inr ⟨x, w, hx, (way_operandText (by simp [not_of_isSigil hx])).1 hw, rfl⟩
    · exact .inl ((way_operandText hbefore).1 hw)
  · rintro (hu | ⟨x, w, hx, hw, rfl⟩)
    · exact ⟨(), none, [], u, rfl, .inr ⟨rfl, rfl⟩, (way_operandText hbefore).2 hu⟩
    · exact ⟨(), some x, [x], w, rfl, .inl ⟨x, rfl, rfl, hx⟩,
        (way_operandText (by simp [not_of_isSigil hx])).2 hw⟩

/-! ## The text of a side -/

theorem Dotted.ends (h : Dotted u) :
    u ≠ [] ∧ u.head?.any isWord = true ∧ u.getLast?.any isWord = true := by
  induction h with
  | name h => exact ⟨h.ne_nil, h.head?, h.getLast?⟩
  | link hname _ _ _ ih =>
    refine ⟨by simp, ?_, ?_⟩
    · rw [head?_append_of_ne_nil _ hname.ne_nil, hname.head?]
    · simpa [getLast?_append, getLast?_cons, getLast?_eq_some_getLast ih.1] using ih.2.2

theorem Dotted.isDotted (h : Dotted u) : ∀ x ∈ u, isDotted x = true := by
  induction h with
  | name h => exact fun x hx => isDotted_iff.2 (.inl (.inl (h.word x hx)))
  | link hname hg hg' _ ih =>
    simp only [forall_mem_append, forall_mem_cons]
    exact ⟨fun x hx => isDotted_iff.2 (.inl (.inl (hname.word x hx))),
      fun x hx => isDotted_iff.2 (.inr (hg x hx)), rfl,
      fun x hx => isDotted_iff.2 (.inr (hg' x hx)), ih⟩

theorem Operand.head? (h : Operand u) : u.head?.any isWord = true := by
  cases h with
  | name h => exact h.ends.2.1
  | call h => rw [head?_append_of_ne_nil _ h.ends.1, h.ends.2.1]

theorem Operand.getLast? (h : Operand u) : ∃ x, u.getLast? = some x ∧ isBlank x = false := by
  cases h with
  | name h =>
    have hlast := h.ends.2.2
    rw [getLast?_eq_some_getLast h.ends.1, Option.any_some] at hlast
    exact ⟨_, getLast?_eq_some_getLast h.ends.1, isBlank_of_isWord hlast⟩
  | call => exact ⟨')', by simp [getLast?_append, getLast?_cons], rfl⟩

theorem Operand.mem (h : Operand u) (hx : x ∈ u) : isDotted x = true ∨ x = '(' ∨ x = ')' := by
  cases h with
  | name h => exact .inl (h.isDotted x hx)
  | call h hg hg' =>
    simp only [mem_append, mem_cons, not_mem_nil, or_false] at hx
    rcases hx with hx | hx | hx | hx | hx
    · exact .inl (h.isDotted x hx)
    · exact .inl (by simp [isDotted, hg x hx])
    · exact .inr (.inl hx)
    · exact .inl (by simp [isDotted, hg' x hx])
    · exact .inr (.inr hx)

theorem Operand.bracketed (h : Operand u) : Bracketed u := by
  cases h with
  | name h => exact .of_class h.isDotted (by decide)
  | call h hg hg' =>
    exact .append (.of_class h.isDotted (by decide))
      (.append (.of_class hg (by decide)) (.wrap rfl (.of_class hg' (by decide))))

/-- An operand may go on with this character. -/
def continues (x : Char) : Bool := x == '.' || x == '(' || x == '[' || isWord x

/-- What comes next, blanks aside, runs on with an operand. -/
def runsOn (t : Text) : Bool := (t.dropWhile isBlank).head?.any continues

theorem runsOn_append {g : Text} (hg : Blank g) (hx : isBlank x = false) :
    runsOn (g ++ x :: t) = continues x := by
  rw [runsOn, dropWhile_append_of_pos hg, dropWhile_cons_of_neg (by simp [hx])]
  rfl

theorem exists_of_not_blank (h : ¬ Blank t) :
    ∃ g x s, Blank g ∧ isBlank x = false ∧ t = g ++ x :: s := by
  obtain ⟨x, s, hxs⟩ :=
    exists_cons_of_ne_nil (l := t.dropWhile isBlank) (by simpa [dropWhile_eq_nil_iff] using h)
  refine ⟨t.takeWhile isBlank, x, s, fun _ => mem_takeWhile_imp, ?_, ?_⟩
  · simpa [hxs] using head?_dropWhile_not isBlank t
  · rw [← hxs, takeWhile_append_dropWhile]

/-- A text that holds more than blanks decides whether an operand runs on. -/
theorem runsOn_append_of_not_blank (hu : ¬ Blank u) : runsOn (u ++ t) = runsOn (u ++ t') := by
  obtain ⟨g, x, s, hg, hx, rfl⟩ := exists_of_not_blank hu
  rw [append_assoc, append_assoc, cons_append, cons_append, runsOn_append hg hx,
    runsOn_append hg hx]

/-- What an operand has more than another one that starts it runs on with it. -/
theorem Operand.runsOn (hu : Operand u) (h : Operand (u ++ d)) (hd : d ≠ []) :
    runsOn (d ++ t) = true := by
  have hsolid : ¬ Blank d := by
    obtain ⟨z, hz, hblank⟩ := h.getLast?
    rw [getLast?_append_of_ne_nil _ hd] at hz
    intro hall
    rw [hall z (mem_of_getLast? hz)] at hblank
    cases hblank
  obtain ⟨g, y, s, hg, hy, rfl⟩ := exists_of_not_blank hsolid
  rw [append_assoc, cons_append, runsOn_append hg hy]
  rcases h.mem (x := y) (by simp) with hdot | rfl | rfl
  · have hdot : isWord y = true ∨ y = '.' := by simpa [isDotted, hy] using hdot
    rcases hdot with hdot | rfl
    · simp [continues, hdot]
    · rfl
  · rfl
  · -- the operands are bracketed, so what one has more than the other does not start with a closing
    -- bracket
    have hawaited : awaited [] (u ++ g ++ ')' :: s) = some [] :=
      (append_assoc u g _).symm ▸ h.bracketed
    rw [awaited_append, hu.bracketed.append (.of_class hg (by decide))] at hawaited
    cases hawaited

theorem Side.runsOn (hu : Side u) (h : Side (u ++ d)) (hd : d ≠ []) : runsOn (d ++ t) = true := by
  have hhead : ∀ {x w}, isSigil x = true → ¬ Operand (x :: w) := fun hx h => by
    simpa [not_of_isSigil hx] using h.head?
  rcases hu with hu | ⟨x, w, hx, hw, rfl⟩
  · rcases h with h | ⟨x, w, hx, hw, heq⟩
    · exact hu.runsOn h hd
    · cases u with
      | nil => cases hu.head?
      | cons y u => exact absurd ((cons.inj heq).1 ▸ hu) (hhead hx)
  · rcases h with h | ⟨y, w', -, hw', heq⟩
    · exact absurd h (hhead hx)
    · obtain ⟨-, rfl⟩ := cons.inj heq
      exact hw.runsOn hw' hd

/-- A mark stands only at the head of a side. -/
theorem Side.of_mark {k : Text} (h : Side (k ++ '*' :: u)) : k = [] ∧ Operand u := by
  have hnot : ∀ {w}, Operand w → '*' ∉ w := fun hw hmem => absurd (hw.mem hmem) (by decide)
  rcases h with h | ⟨x, w, -, hw, heq⟩
  · exact absurd (by simp) (hnot h)
  · cases k with
    | nil => exact ⟨rfl, (cons.inj heq).2 ▸ hw⟩
    | cons y k => exact absurd (by rw [← (cons.inj heq).2]; simp) (hnot hw)

theorem Side.getLast? (h : Side u) : ∃ x, u.getLast? = some x ∧ isBlank x = false := by
  rcases h with h | ⟨x, w, -, h, rfl⟩
  · exact h.getLast?
  · obtain ⟨z, hz, hlast⟩ := h.getLast?
    exact ⟨z, by rw [getLast?_cons, hz]; rfl, hlast⟩

theorem Side.head? (h : Side u) : ∃ x w, u = x :: w ∧ isBlank x = false := by
  rcases h with h | ⟨x, w, hx, -, rfl⟩
  · cases u with
    | nil => cases h.head?
    | cons x w => exact ⟨x, w, rfl, isBlank_of_isWord (by simpa using h.head?)⟩
  · exact ⟨x, w, rfl, (not_of_isSigil hx).2.1⟩

theorem Side.not_mem (h : Side u) (hx : x ∈ ['=', '!']) : x ∉ u := by
  have hall : ∀ x ∈ ['=', '!'], ¬ (isDotted x = true ∨ x = '(' ∨ x = ')') := by decide
  rcases h with h | ⟨y, w, hy, h, rfl⟩
  · exact fun hmem => hall x hx (h.mem hmem)
  · rintro (_ | ⟨_, hmem⟩)
    · exact (not_of_isSigil hy).2.2 hx
    · exact hall x hx (h.mem hmem)

theorem isKeyHandle_star : isKeyHandle ('*' :: u) = false := rfl

theorem Side.operand (h : Side u) (hkey : isKeyHandle u = true) : Operand u := by
  rcases h with h | ⟨x, w, hx, -, rfl⟩
  · exact h
  · have hx : (x == '*' || x == '&') = true := hx
    simp [isKeyHandle, hx] at hkey

/-! ## Comparisons -/

/-- A comparison may start here. -/
def mayCompare (before : Text) : Bool :=
  !before.head?.any fun c => isWord c || c == '.' || c == '*' || c == '&'

/-- The operator of a comparison, with the blanks around it. -/
def IsEquality (o : Text) : Prop := ∃ g c g', c ∈ ['=', '!'] ∧ Blank g ∧ Blank g' ∧
  o = g ++ c :: '=' :: g'

/-- A comparison stands here, whatever comes after it. -/
structure Compared (before l o r : Text) : Prop where
  opens : mayCompare before = true
  left : Side l
  equality : IsEquality o
  right : Side r

/-- The comparison is read here: no operand runs on after it. -/
structure Found (before l o r rest : Text) : Prop extends Compared before l o r where
  closes : runsOn rest = false

/-- A comparison, and what is read after it. -/
def comparing {β : Type} (f : Text → Text → Text → Pattern β) : Pattern β := do
  behind mayCompare
  let left ← comparisonOperand
  let operator ← capture do
    blanks
    let _ ← oneOf ["==", "!="]
    blanks
  let right ← comparisonOperand
  f left operator right

theorem way_comparing {β : Type} {f : Text → Text → Text → Pattern β} {b : β} :
    Way (comparing f) before b u rest ↔ ∃ l o r w, u = l ++ (o ++ (r ++ w)) ∧
    Compared before l o r ∧
      Way (f l o r) ((l ++ (o ++ r)).reverse ++ before) b w rest := by
  have hequality : ∀ {before v u rest}, Way (capture do blanks; let _ ← oneOf ["==", "!="]; blanks)
      before v u rest ↔
      v = u ∧ IsEquality u := by
    intro before v u rest
    simp only [way_capture, blanks, way_bind, way_many, way_oneOf]
    refine and_congr_right fun _ => ?_
    constructor
    · rintro ⟨-, -, g, _, rfl, hg, e, _, g', rfl, ⟨rfl, he⟩, hg'⟩
      simp only [mem_cons, not_mem_nil, or_false] at he
      rcases he with rfl | rfl
      · exact ⟨g, '=', g', by simp, hg, hg', rfl⟩
      · exact ⟨g, '!', g', by simp, hg, hg', rfl⟩
    · rintro ⟨g, c, g', hc, hg, hg', rfl⟩
      refine ⟨(), (), g, _, rfl, hg, [c, '='], _, g', rfl, ⟨rfl, ?_⟩, hg'⟩
      simp only [mem_cons, not_mem_nil, or_false] at hc
      rcases hc with rfl | rfl <;> simp
  have hfirst : mayCompare before = true → before.head?.any isWord = false := by
    cases before <;> simp +contextual [mayCompare]
  have hsecond : ∀ {l o : Text}, IsEquality o →
      (o.reverse ++ (l.reverse ++ before)).head?.any isWord = false := by
    rintro l _ ⟨g, c, g', -, -, hg', rfl⟩
    simpa using head?_gap (g := g'.reverse) (by simpa using hg') (x := '=') (by decide)
      (c :: (g.reverse ++ (l.reverse ++ before)))
  rw [comparing]
  constructor
  · intro h
    obtain ⟨_, _, _, rfl, hbehind, h⟩ := way_bind.1 h
    obtain ⟨rfl, hopens⟩ := way_behind.1 hbehind
    obtain ⟨l, _, _, rfl, hl, h⟩ := way_bind.1 h
    obtain ⟨rfl, hleft⟩ := (way_comparisonOperand (hfirst hopens)).1 hl
    obtain ⟨o, _, _, rfl, ho, h⟩ := way_bind.1 h
    obtain ⟨rfl, hequal⟩ := hequality.1 ho
    obtain ⟨r, _, w, rfl, hr, h⟩ := way_bind.1 h
    obtain ⟨rfl, hright⟩ := (way_comparisonOperand (hsecond hequal)).1 hr
    exact ⟨l, o, r, w, rfl, ⟨hopens, hleft, hequal, hright⟩, by simpa using h⟩
  · rintro ⟨l, o, r, w, rfl, h, hw⟩
    refine way_bind.2 ⟨(), [], _, rfl, way_behind.2 ⟨rfl, h.opens⟩, ?_⟩
    refine way_bind.2 ⟨l, l, _, rfl, (way_comparisonOperand (hfirst h.opens)).2 ⟨rfl, h.left⟩, ?_⟩
    refine way_bind.2 ⟨o, o, _, rfl, hequality.2 ⟨rfl, h.equality⟩, ?_⟩
    refine way_bind.2 ⟨r, r, w, rfl, (way_comparisonOperand (hsecond h.equality)).2 ⟨rfl, h.right⟩,
      ?_⟩
    simpa using hw

/-- An operand runs on. -/
def runningOn : Pattern Unit := do
  blanks
  let _ ← one continues

theorem runningOn_eq_nil : runningOn ⟨before, rest⟩ = [] ↔ runsOn rest = false := by
  rw [← not_iff_not, Bool.not_eq_false]
  refine (ne_nil_iff_way (Bounded.many.bind fun _ => Bounded.one.bind fun _ => .pure _)).trans ?_
  simp only [way_bind, way_many, way_one, way_pure]
  constructor
  · rintro ⟨-, _, rest, rfl, -, g, _, rfl, hg, x, _, _, rfl, ⟨rfl, hx⟩, -, rfl⟩
    have hblank : isBlank x = false := by
      simp only [continues, Bool.or_eq_true, beq_iff_eq] at hx
      rcases hx with ((rfl | rfl) | rfl) | hx <;> first | rfl | exact isBlank_of_isWord hx
    simpa [runsOn_append hg hblank] using hx
  · intro h
    have hsolid : ¬ Blank rest := fun hblank => by simp [runsOn, dropWhile_eq_nil_iff.2 hblank] at h
    obtain ⟨g, x, s, hg, hx, rfl⟩ := exists_of_not_blank hsolid
    rw [runsOn_append hg hx] at h
    exact ⟨(), g ++ [x], s, by simp, (), g, _, rfl, hg, x, [x], [], rfl, ⟨rfl, h⟩, trivial, rfl⟩

theorem way_keyComparison : Way keyComparison before v u rest ↔
    ∃ l o r, u = l ++ (o ++ r) ∧ v = dereferencePair l o r ∧ Found before l o r rest := by
  have heq : keyComparison = comparing fun l o r => notAhead runningOn >>= fun _ =>
      pure (dereferencePair l o r) := rfl
  simp only [heq, way_comparing, way_bind, way_notAhead, way_pure, runningOn_eq_nil]
  constructor
  · rintro ⟨l, o, r, _, rfl, h, -, _, _, rfl, ⟨rfl, hrest⟩, rfl, rfl⟩
    exact ⟨l, o, r, by simp, rfl, { h with closes := hrest }⟩
  · rintro ⟨l, o, r, rfl, rfl, h⟩
    exact ⟨l, o, r, [], by simp, h.toCompared, (), [], [], rfl, ⟨rfl, h.closes⟩, rfl, rfl⟩

theorem bounded_keyComparison : Bounded keyComparison :=
  fun c r hr => ⟨(keepsBrackets_keyComparison c r hr).1, fun _ _ => trivial⟩

/-- **A comparison is read in one way only**: its sides and its operator are determined by the
text. -/
theorem Found.unique (h : Found before l o r rest) (h' : Found before' l' o' r' rest')
    (heq : l ++ (o ++ (r ++ rest)) = l' ++ (o' ++ (r' ++ rest'))) :
    l = l' ∧ o = o' ∧ r = r' ∧ rest = rest' := by
  obtain ⟨g, c, k, hc, hg, hk, rfl⟩ := h.equality
  obtain ⟨g', c', k', hc', hg', hk', rfl⟩ := h'.equality
  -- the operator starts at the first character that belongs to no side
  have hside : ∀ {l g : Text}, Side l → Blank g → ∀ x ∈ l ++ g, (!(['=', '!'].contains x)) =
      true := by
    intro l g hl hg x hx
    rw [Bool.not_eq_true', contains_eq_mem, decide_eq_false_iff_not]
    intro hmem
    rcases mem_append.1 hx with hx | hx
    · exact hl.not_mem hmem hx
    · have hall : ∀ x ∈ ['=', '!'], isBlank x = false := by decide
      exact absurd (hg x hx) (by simp [hall x hmem])
  have hop : ∀ {c : Char} {t}, c ∈ ['=', '!'] →
      (c :: t).head?.any (fun x => !(['=', '!'].contains x)) = false := by
    intro c t hc
    simpa [or_iff_not_imp_left] using hc
  obtain ⟨hlg, hrest⟩ :=
    append_inj_of_class (hside h.left hg) (hside h'.left hg') (hop hc) (hop hc')
    (s := c :: '=' :: (k ++ (r ++ rest))) (t := c' :: '=' :: (k' ++ (r' ++ rest')))
    (by simpa using heq)
  have hl : l = l' := by
    obtain ⟨z, hz, hblank⟩ := h.left.getLast?
    obtain ⟨z', hz', hblank'⟩ := h'.left.getLast?
    rw [← trimRight_append (s := l) hg (by simp [hz, hblank]), hlg,
      trimRight_append hg' (by simp [hz', hblank'])]
  subst hl
  obtain rfl := append_cancel_left hlg
  obtain ⟨rfl, htail⟩ := cons.inj hrest
  have hhead : ∀ {r rest : Text}, Side r → (r ++ rest).head?.any isBlank = false := by
    intro r rest hr
    obtain ⟨x, w, rfl, hx⟩ := hr.head?
    simpa using hx
  obtain ⟨rfl, hright⟩ :=
    append_inj_of_class hk hk' (hhead h.right) (hhead h'.right) (cons.inj htail).2
  -- of two sides at one place the shorter one would run on
  have hshorter : ∀ {r d rest}, Side r → Side (r ++ d) → runsOn (d ++ rest) = false → d = [] := by
    intro r d rest hr hd hcloses
    by_contra hne
    rw [hr.runsOn hd hne] at hcloses
    cases hcloses
  rcases append_eq_append_iff.1 hright with ⟨d, rfl, rfl⟩ | ⟨d, rfl, rfl⟩
  · obtain rfl := hshorter h.right h'.right h.closes
    simp
  · obtain rfl := hshorter h'.right h.right h'.closes
    simp

/-- A comparison is read at the start of this text. -/
def Starts (before t : Text) : Prop :=
  ∃ l o r rest, t = l ++ (o ++ (r ++ rest)) ∧ Found before l o r rest

theorem Found.firstAt_eq (h : Found before l o r rest) :
    keyComparison.firstAt ⟨before, l ++ (o ++ r) ++ rest⟩ = some (dereferencePair l o r,
      (l ++ (o ++ r)).length) := by
  have hmem : (dereferencePair l o r, (l ++ (o ++ r)).length) ∈ keyComparison ⟨before,
      l ++ (o ++ r) ++ rest⟩ :=
    way_keyComparison.2 ⟨l, o, r, rfl, rfl, h⟩
  obtain ⟨⟨v, n⟩, ways, hways⟩ := exists_cons_of_ne_nil (ne_nil_of_mem hmem)
  obtain ⟨u, rest', hsplit, rfl, hway⟩ :=
    (mem_iff_way bounded_keyComparison).1 (hways ▸ mem_cons_self : (v, n) ∈ keyComparison _)
  obtain ⟨l', o', r', rfl, rfl, h'⟩ := way_keyComparison.1 hway
  obtain ⟨rfl, rfl, rfl, -⟩ := h.unique h' (by simpa using hsplit)
  rw [firstAt, hways, head?_cons]

theorem firstAt_eq_none (h : ¬ Starts before t) : keyComparison.firstAt ⟨before, t⟩ = none := by
  rw [firstAt, head?_eq_none_iff]
  by_contra hne
  obtain ⟨v, u, rest, rfl, hway⟩ := (ne_nil_iff_way bounded_keyComparison).1 hne
  obtain ⟨l, o, r, rfl, -, hfound⟩ := way_keyComparison.1 hway
  exact h ⟨l, o, r, rest, by simp, hfound⟩

/-! ## Marks -/

/-- The mark before a side: a key handle that is compared with something else gets one. -/
def markOf (side other : Text) : Text :=
  if isKeyHandle side && !isKeyHandle other then ['*'] else []

theorem markOf_eq_star : markOf l r = ['*'] ↔ isKeyHandle l = true ∧ isKeyHandle r = false := by
  simp [markOf]

theorem markOf_cases (l r : Text) : markOf l r = [] ∨ markOf l r = ['*'] := by
  rw [markOf]
  split <;> simp

theorem dereferencePair_eq (l o r : Text) :
    dereferencePair l o r = markOf l r ++ (l ++ (o ++ (markOf r l ++ r))) := by
  rw [dereferencePair, markOf, markOf]
  cases isKeyHandle l <;> cases isKeyHandle r <;> simp [Text.concat]

/-- What the rewriting makes of the text after a place. The comparisons that it reads, from left to
right, get their marks; every other character is kept. -/
inductive Dereferenced : Text → Text → Text → Prop
  | nil {before : Text} : Dereferenced before [] []
  | keep {before t t' : Text} {x : Char} (hno : ¬ Starts before (x :: t))
    (h : Dereferenced (x :: before) t t') :
    Dereferenced before (x :: t) (x :: t')
  | pair {before l o r rest rest' : Text} (hfound : Found before l o r rest)
    (h : Dereferenced ((l ++ (o ++ r)).reverse ++ before) rest rest') :
    Dereferenced before (l ++ (o ++ (r ++ rest)))
      (markOf l r ++ (l ++ (o ++ (markOf r l ++ (r ++ rest')))))

theorem exists_dereferenced (before t : Text) : ∃ t', Dereferenced before t t' := by
  induction hn : t.length using Nat.strong_induction_on generalizing before t with
  | _ n ih =>
    subst hn
    cases t with
    | nil => exact ⟨[], .nil⟩
    | cons x t =>
      by_cases hstarts : Starts before (x :: t)
      · obtain ⟨l, o, r, rest, heq, hfound⟩ := hstarts
        obtain ⟨y, w, rfl, -⟩ := hfound.left.head?
        obtain ⟨rest', h⟩ := ih rest.length (by rw [heq]; simp; omega) _ rest rfl
        exact heq ▸ ⟨_, .pair hfound h⟩
      · obtain ⟨t', h⟩ := ih t.length (by simp) (x :: before) t rfl
        exact ⟨x :: t', .keep hstarts h⟩

theorem Dereferenced.replacedFrom_eq (h : Dereferenced before t t') :
    replacedFrom keyComparison before t = t' := by
  induction h with
  | nil => rfl
  | keep hno _ ih =>
    rw [replacedFrom_of_not_some (by simp [firstAt_eq_none hno]), ih]
  | @pair before l o r rest rest' hfound _ ih =>
    obtain ⟨y, w, rfl, -⟩ := hfound.left.head?
    have hstep := replacedFrom_of_firstAt (by simp) hfound.firstAt_eq
    rw [ih, dereferencePair_eq] at hstep
    simpa using hstep

/-! ## A second run -/

/-- A comparison stands at the start of this text, and nothing but blanks comes after it. -/
def Ends (before t : Text) : Prop :=
  ∃ l o r g, t = l ++ (o ++ (r ++ g)) ∧ Compared before l o r ∧ Blank g

/-- A comparison that is read with a mark in the text is read without it too, unless it ends right
before the mark. -/
theorem Starts.of_mark {A B : Text} (hA : A ≠ []) (h : Starts before (A ++ '*' :: B)) :
    Starts before
    (A ++ B) ∨ Ends before A := by
  obtain ⟨l, o, r, rest, heq, h⟩ := h
  obtain ⟨k, rfl, -⟩ | ⟨A, rfl, hB⟩ := append_eq_append_cons heq.symm
  · exact absurd h.left.of_mark.1 hA
  obtain ⟨k, rfl, -⟩ | ⟨A, rfl, hright⟩ := append_eq_append_cons hB
  · obtain ⟨g, c, g', hc, hg, hg', ho⟩ := h.equality
    have hall : ∀ x ∈ ['=', '!'], '*' ≠ x := by decide
    have hmem : '*' ∈ g ++ c :: '=' :: g' := by simp [← ho]
    simp only [mem_append, mem_cons] at hmem
    rcases hmem with hmem | hmem | hmem | hmem
    · exact absurd (hg _ hmem) (by decide)
    · exact absurd hmem (hall c hc)
    · exact absurd hmem (by decide)
    · exact absurd (hg' _ hmem) (by decide)
  obtain ⟨k, rfl, rfl⟩ | ⟨g, rfl, rfl⟩ := append_eq_append_cons hright
  · obtain ⟨rfl, hk⟩ := h.right.of_mark
    exact .inl ⟨l, o, k, rest, by simp, { h with right := .inl hk }⟩
  · by_cases hg : Blank g
    · exact .inr ⟨l, o, r, g, rfl, h.toCompared, hg⟩
    · exact .inl ⟨l, o, r, g ++ B,
        by simp, { h with closes := (runsOn_append_of_not_blank hg).trans h.closes }⟩

/-- Right before an operand that is compared with a mark there is no end of a comparison: an
operator is there. -/
theorem not_ends_of_equality {A : Text} (ho : IsEquality o) : ¬ Ends before (A ++ o) := by
  rintro ⟨l, o', r, g, heq, h, hg⟩
  obtain ⟨k, c, k', -, -, hk', rfl⟩ := ho
  obtain ⟨z, hz, hblank⟩ := h.right.getLast?
  have hlast : (l ++ (o' ++ r)).getLast? = some z := by
    rw [getLast?_append, getLast?_append, hz]; rfl
  have htrim : A ++ (k ++ [c, '=']) = l ++ (o' ++ r) := by
    rw [← trimRight_append (s := A ++ (k ++ [c, '='])) hk' (by simp [getLast?_append]; decide),
      ← trimRight_append (s := l ++ (o' ++ r)) hg (by simp [hlast, hblank])]
    simpa using congrArg Text.trimRight heq
  rw [← htrim] at hlast
  obtain rfl : '=' = z := by simpa [getLast?_append] using hlast
  exact h.right.not_mem (by simp) (mem_of_getLast? hz)

/-- A comparison with another one right after it. -/
def adjoining : Pattern (Text × Text) := comparing fun _ _ _ => do
  blanks
  withText keyComparison

/-- A left side that gets a mark comes right after another comparison. -/
def Exposed (t : Text) : Prop :=
  ∃ n ≤ t.length, ∃ m ∈ adjoining ⟨(t.take n).reverse, t.drop n⟩, m.1.1 = '*' :: m.1.2

instance (t : Text) : Decidable (Exposed t) := inferInstanceAs (Decidable (∃ n ≤ t.length, _))

theorem Ends.exposed {A : Text} (h : Ends before A)
    (hfound : Found (A.reverse ++ before) l o r rest)
    (hmark : markOf l r = ['*']) :
    Exposed (before.reverse ++ (A ++ (l ++ (o ++ (r ++ rest))))) := by
  obtain ⟨l', o', r', g, rfl, hcompared, hg⟩ := h
  have hvalue : dereferencePair l o r = '*' :: (l ++ (o ++ r)) := by
    simp [dereferencePair, markOf_eq_star.1 hmark, Text.concat]
  have hway : Way adjoining before (dereferencePair l o r, l ++ (o ++ r))
      (l' ++ (o' ++ (r' ++ (g ++ (l ++ (o ++ r)))))) rest :=
    way_comparing.2 ⟨l', o', r', _, rfl, hcompared, way_bind.2 ⟨(), g, _, rfl, way_many.2 hg,
      way_withText.2
      ⟨rfl, way_keyComparison.2 ⟨l, o, r, rfl, rfl, by simpa using hfound⟩⟩⟩⟩
  have hmem : ∃ m ∈ adjoining ⟨before, _⟩, m.1.1 = '*' :: m.1.2 := ⟨_, hway, hvalue⟩
  exact ⟨before.length, by simp, by simpa using hmem⟩

/-- A comparison that a second run reads was there in the first run. -/
theorem Dereferenced.starts (h : Dereferenced before t t') {A c : Text} (hA : A ≠ [])
    (hbefore : before = A.reverse ++ c)
    (hexposed : ¬ Exposed (before.reverse ++ t)) (hstarts : Starts c (A ++ t')) :
    Starts c (A ++ t) := by
  induction h generalizing A with
  | nil => exact hstarts
  | @keep before t t' x _ _ ih =>
    have := ih (A := A ++ [x]) (by simp) (by simp [hbefore]) (by simpa using hexposed)
      (by simpa using hstarts)
    simpa using this
  | @pair before l o r rest rest' hfound _ ih =>
    have hright : Starts c (A ++ (l ++ (o ++ (markOf r l ++ (r ++ rest'))))) := by
      rcases markOf_cases l r with hmark | hmark <;> rw [hmark] at hstarts
      · exact hstarts
      · refine (hstarts.of_mark hA).resolve_right fun hends => hexposed ?_
        simpa [hbefore] using hends.exposed (hbefore ▸ hfound) hmark
    have hnone : Starts c (A ++ (l ++ (o ++ (r ++ rest')))) := by
      rcases markOf_cases r l with hmark | hmark <;> rw [hmark] at hright
      · exact hright
      · have hstar : Starts c ((A ++ l ++ o) ++ '*' :: (r ++ rest')) := by simpa using hright
        simpa using (hstar.of_mark (by simp [hA])).resolve_right
          (not_ends_of_equality hfound.equality)
    have := ih (A := A ++ (l ++ (o ++ r))) (by simp [hA]) (by simp [hbefore])
      (by simpa using hexposed) (by simpa using hnone)
    simpa using this

theorem Dereferenced.runsOn (h : Dereferenced before t t') (ht : runsOn t = false) :
    runsOn t' = false := by
  induction h with
  | nil => rfl
  | @keep before t t' x _ _ ih =>
    by_cases hx : isBlank x = true
    · simp only [Lowering.runsOn, dropWhile_cons_of_pos hx] at ht ih ⊢
      exact ih ht
    · rw [← nil_append (x :: _), runsOn_append (by simp) (by simpa using hx)] at ht ⊢
      exact ht
  | @pair before l o r rest rest' hfound _ _ =>
    obtain ⟨y, w, rfl, hy⟩ := hfound.left.head?
    rw [← nil_append (y :: w ++ _), cons_append, runsOn_append (by simp) hy] at ht
    have hmark : markOf (y :: w) r = [] := by
      refine (markOf_cases _ r).resolve_right fun hstar => ?_
      have hword := (hfound.left.operand (markOf_eq_star.1 hstar).1).head?
      simp_all [continues]
    rw [hmark, cons_append, runsOn_append (by simp) hy]
    exact ht

theorem Side.mark (h : Side l) : Side (markOf l r ++ l) := by
  rcases markOf_cases l r with hmark | hmark <;> rw [hmark]
  · exact h
  · exact .inr ⟨'*', l, rfl, h.operand (markOf_eq_star.1 hmark).1, rfl⟩

theorem markOf_marked (l r : Text) : markOf (markOf l r ++ l) (markOf r l ++ r) = [] := by
  cases hl : isKeyHandle l <;> cases hr : isKeyHandle r <;> simp [markOf, hl, hr, isKeyHandle_star]

/-- **A second run keeps what the first one has written**, unless a mark exposes a comparison. -/
theorem Dereferenced.again (h : Dereferenced before t t') (hhead : before.head? = before'.head?)
    (hexposed : ¬ Exposed (before.reverse ++ t)) : Dereferenced before' t' t' := by
  induction h generalizing before' with
  | nil => exact .nil
  | @keep before t t' x hno h ih =>
    refine .keep (fun hstarts => hno ?_) (ih rfl (by simpa using hexposed))
    obtain ⟨l, o, r, rest, heq, hfound⟩ := hstarts
    have hopens : mayCompare before = true := by rw [mayCompare, hhead]; exact hfound.opens
    exact h.starts (A := [x]) (by simp) rfl (by simpa using hexposed) ⟨l, o, r, rest, heq,
      { hfound with opens := hopens }⟩
  | @pair before l o r rest rest' hfound h ih =>
    have hopens : mayCompare before' = true := by rw [mayCompare, ← hhead]; exact hfound.opens
    have hagain : Found before' (markOf l r ++ l) o (markOf r l ++ r) rest' :=
      ⟨⟨hopens, hfound.left.mark, hfound.equality, hfound.right.mark⟩, h.runsOn hfound.closes⟩
    obtain ⟨z, hz, -⟩ := hfound.right.getLast?
    have hrest : Dereferenced ((markOf l r ++ l ++ (o ++ (markOf r l ++ r))).reverse ++ before')
        rest' rest' :=
      ih (by simp [head?_append, hz]) (by simpa using hexposed)
    simpa [markOf_marked] using Dereferenced.pair hagain hrest

/-- **Marks on compared keys.** The rewriting puts marks into a text and changes nothing else: each
comparison that is read, from left to right, gets a mark right before the side that is a key handle
if the other side is none. A second run changes nothing, unless a left side with a mark comes right
after another comparison. -/
theorem dereferencing_again (t : Text) : Dereferenced [] t (keyComparison.replaceAll t) ∧
    (¬ Exposed t → keyComparison.replaceAll (keyComparison.replaceAll t) =
      keyComparison.replaceAll t) := by
  obtain ⟨t', h⟩ := exists_dereferenced [] t
  have heq : keyComparison.replaceAll t = t' := h.replacedFrom_eq
  rw [heq]
  exact ⟨h, fun hexposed => (h.again rfl hexposed).replacedFrom_eq⟩

theorem dereferencing_again_both : ¬ Exposed "a == x.key() && y.key() != b".toList ∧
    keyComparison.replaceAll (keyComparison.replaceAll "a == x.key() && y.key() != b".toList) =
      "a == *x.key() && *y.key() != b".toList := by
  have hexposed : ¬ Exposed "a == x.key() && y.key() != b".toList := by decide +kernel
  refine ⟨hexposed, ((dereferencing_again _).2 hexposed).trans ?_⟩
  decide +kernel

/-- The mark takes away the name that has kept the first comparison from being read. -/
theorem mark_exposes_comparison :
    keyComparison.replaceAll "w == x.key() y.key() == z".toList =
    "w == x.key() *y.key() == z".toList ∧
      keyComparison.replaceAll "w == x.key() *y.key() == z".toList =
      "w == *x.key() *y.key() == z".toList := by
  decide +kernel

end AnchorLowering.Lowering
