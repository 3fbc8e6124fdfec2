import AnchorLowering.Proofs.CallEdit
import AnchorLowering.Proofs.NestedCode
import AnchorLowering.Proofs.StateRule

/-!
# Calls that are recognised and calls that are found

A program's facts list the calls of other programs that its bodies make (`locateCalls`), by a search
for the two names of a call and its opening bracket. The lowering finds the calls that it replaces
by a search of its own: the head of a call may have a path before the two names, and a head that
starts in a comment or a literal is passed over with all of its characters.

The two searches agree but for this last point. A head that covers the first name of a recognised
call ends with the second one (`eq_add_of_firstAt_head`), so it is a path that runs up to the call.
If it starts in code, it finds the call too. So a recognised call that is not found has a path
before it that starts in a comment or a literal (`runsFromSealed_of_kept`).
-/

namespace AnchorLowering

open List Pattern Source

variable {takeSuffix : Bool} {s : CallShape} {t : CallTarget} {ps : List (Piece Unit)} {i : Nat}
  {before core core' g l name rest u v w : Text}

namespace Source

/-! ## Plain text in code -/

theorem exists_piece_of_code (h : (markedPieces ps)[i]?.any (·.2) = true) :
    ∃ qs c rs, ps = qs ++ .char c :: rs ∧ (spell qs).length = i := by
  induction ps generalizing i with
  | nil => cases h
  | cons p ps ih =>
    cases p with
    | char c =>
      cases i with
      | zero => exact ⟨[], c, ps, rfl, rfl⟩
      | succ i =>
        obtain ⟨qs, d, rs, rfl, hlen⟩ := ih (i := i) h
        exact ⟨.char c :: qs, d, rs, rfl, by simp [hlen]⟩
    | claimed e t =>
      rw [markedPieces_claimed] at h
      by_cases hlt : i < t.length
      · rw [getElem?_append_left (by simpa using hlt), getElem?_map, getElem?_eq_getElem hlt] at h
        cases h
      · rw [getElem?_append_right (by simpa using hlt), length_map] at h
        obtain ⟨qs, d, rs, rfl, hlen⟩ := ih h
        refine ⟨.claimed e t :: qs, d, rs, rfl, ?_⟩
        rw [spell_cons, Piece.text_claimed, length_append, hlen]
        omega

theorem markedPieces_chars (t : Text) : markedPieces (chars t) = t.map fun x => (x, true) := by
  induction t with
  | nil => rfl
  | cons x t ih => rw [chars_cons, markedPieces_char, ih, map_cons]

theorem map_fst_markedPieces (ps : List (Piece Unit)) : (markedPieces ps).map (·.1) = spell ps := by
  induction ps with
  | nil => rfl
  | cons p ps ih =>
    cases p with
    | char c => rw [markedPieces_char, map_cons, ih, spell_cons, Piece.text_char, singleton_append]
    | claimed e t =>
      rw [markedPieces_claimed, map_append, map_map, ih, spell_cons, Piece.text_claimed]
      simp [Function.comp_def]

theorem exists_marked_of_lexes (hlexes : Lexes u.reverse ps v) (hne : spell ps ≠ [])
    (hcode : inCode (u ++ (spell ps ++ v)) u.length = true) :
    ∃ U V, marked (u ++ (spell ps ++ v)) = U ++ (markedPieces ps ++ V) ∧ U.map (·.1) = u ∧
    V.map (·.1) = v := by
  have hlt : u.length < (u ++ (spell ps ++ v)).length := by
    have := length_pos_of_ne_nil hne
    simp only [length_append]
    omega
  have hmark := getElem?_marked _ hlt
  rw [hcode, marked_eq] at hmark
  obtain ⟨qs, c, rs, hps, hlen⟩ := exists_piece_of_code hmark
  have hspell := spell_pieces (u ++ (spell ps ++ v))
  rw [hps, spell_append] at hspell
  obtain ⟨hu, hwv⟩ := List.append_inj hspell hlen
  have hall := lexes_pieces (u ++ (spell ps ++ v))
  rw [hps] at hall
  have hscan := scan_of_lexes (lexes_append.1 hall).2
  have hlexed := scan_of_lexes hlexes
  rw [hu, hwv, append_nil, append_nil] at hscan
  rw [hscan] at hlexed
  have hmarked : marked (u ++ (spell ps ++ v)) = markedPieces qs ++ (markedPieces ps ++
      markedPieces (Text.scan sealedClaim 0 ((spell ps).reverse ++ u.reverse) v)) := by
    rw [marked_eq, hps, markedPieces_append, ← markedPieces_append ps, ← hlexed]
    simp [Text.scan]
  have hfst := map_fst_marked (u ++ (spell ps ++ v))
  rw [hmarked, map_append, map_append] at hfst
  obtain ⟨hleft, hright⟩ := List.append_inj hfst (by rw [length_map, length_markedPieces, hlen])
  rw [map_fst_markedPieces] at hright
  exact ⟨_, _, hmarked, hleft, append_cancel_left hright⟩

theorem exists_marked_of_plain (hw : Plain w) (hne : w ≠ [])
    (hcode : inCode (u ++ (w ++ v)) u.length = true) :
    ∃ U V, marked (u ++ (w ++ v)) = U ++ (w.map (fun x => (x, true)) ++ V) ∧ U.map (·.1) = u ∧
    V.map (·.1) = v := by
  have hlexes : Lexes u.reverse (chars w) v := lexes_plain hw
  have hmarked := exists_marked_of_lexes hlexes
  rw [spell_chars, markedPieces_chars] at hmarked
  exact hmarked hne hcode

end Source

namespace Lowering

/-! ## The text of a call -/

/-- The two names of a call are names, and differ. -/
structure CallNames (program function : Text) : Prop where
  first : IsName program
  second : IsName function
  ne : program ≠ function

/-- The two names of a call with a double colon between them. -/
def IsCore (program function u : Text) : Prop :=
  ∃ g g', (∀ x ∈ g, isBlank x = true) ∧ (∀ x ∈ g', isBlank x = true) ∧
    u = program ++ (g ++ ("::".toList ++ (g' ++ function)))

/-- The two names of a call and the bracket that opens its arguments. -/
def IsShape (program function u : Text) : Prop :=
  ∃ core g, IsCore program function core ∧ (∀ x ∈ g, isBlank x = true) ∧ u = core ++ (g ++ ['('])

section

variable {program function : Text}

theorem isName_head? (h : IsName name) (t : Text) : (name ++ t).head?.any isWord = true := by
  rw [head?_append_of_ne_nil _ h.ne_nil, h.head?]

theorem isName_head?_blank (h : IsName name) (t : Text) :
    (name ++ t).head?.any isBlank = false := by
  obtain ⟨x, name, rfl⟩ := exists_cons_of_ne_nil h.ne_nil
  exact isBlank_of_isWord (h.word x mem_cons_self)

theorem way_tokens_core :
    Way (tokens [program, "::", function]) before () u rest ↔ IsCore program function u := by
  simp only [tokens, blanks, way_bind, way_lit, way_many, IsCore]
  constructor
  · rintro ⟨-, _, _, rfl, rfl, -, g, _, rfl, hg, -, _, _, rfl, rfl, -, g', _, rfl, hg', rfl⟩
    exact ⟨g, g', hg, hg', rfl⟩
  · rintro ⟨g, g', hg, hg', rfl⟩
    exact ⟨(), _, _, rfl, rfl, (), g, _, rfl, hg, (), _, _, rfl, rfl, (), g', _, rfl, hg', rfl⟩

theorem way_tokens_shape :
    Way (tokens [program, "::", function, "("]) before () u rest ↔ IsShape program function u := by
  simp only [tokens, blanks, way_bind, way_lit, way_many, IsShape, IsCore]
  constructor
  · rintro ⟨-, _, _, rfl, rfl, -, g, _, rfl, hg, -, _, _, rfl, rfl, -, g', _, rfl, hg', -, _,
      _, rfl, rfl, -, k, _, rfl, hk, rfl⟩
    exact ⟨_, k, ⟨g, g', hg, hg', rfl⟩, hk, by simp⟩
  · rintro ⟨_, k, ⟨g, g', hg, hg', rfl⟩, hk, rfl⟩
    exact ⟨(), program, g ++ ("::".toList ++ (g' ++ (function ++ (k ++ ['('])))),
      by simp, rfl, (), g, _, rfl, hg, (), _, _,
      rfl, rfl, (), g', _, rfl, hg', (), _, _, rfl, rfl, (), k, _, rfl, hk, rfl⟩

end

/-! ## Paths -/

/-- A name before a path's last part, with its double colon. -/
def pathLink : Pattern Unit := do
  wordBoundary
  word
  spaced "::"

theorem pathLinks_eq : pathLinks = star pathLink := rfl

theorem pathLink_of_way {a : Unit} (h : Way pathLink before a u rest) :
    before.head?.any isWord = false ∧ ∃ w g g', IsName w ∧ Blank g ∧ Blank g' ∧
    u = w ++ (g ++ ("::".toList ++ g')) := by
  simp only [pathLink, word, way_bind, way_wordBoundary, way_many1, way_spaced] at h
  obtain ⟨-, _, _, rfl, ⟨rfl, hne⟩, -, w, _, rfl, ⟨hw, hword⟩, g, g', rfl, hg, hg'⟩ := h
  refine ⟨?_, w, g, g', ⟨hw, hword⟩, hg, hg', rfl⟩
  rw [append_assoc, isName_head? ⟨hw, hword⟩] at hne
  exact Bool.eq_false_iff.2 hne

theorem way_head (hprogram : IsName t.program.toList) (hfunction : IsName t.function.toList)
    : Way t.head before () u rest ↔ ∃ l core, u = l ++ core ∧
    Repeats pathLink before l (core ++ rest) ∧
        IsCore t.program.toList t.function.toList core ∧ (l.reverse ++ before).head?.any isWord =
        false ∧
        rest.head?.any isWord = false := by
  have hlast : ∀ {core before : Text}, IsCore t.program.toList t.function.toList core →
      (core.reverse ++ before).head?.any isWord = true := by
    rintro core before ⟨g, g', -, -, rfl⟩
    have hne : t.function.toList.reverse ≠ [] := by simpa using hfunction.ne_nil
    simp only [reverse_append, append_assoc]
    rw [head?_append_of_ne_nil _ hne, head?_reverse, hfunction.getLast?]
  have hfirst : ∀ {core : Text} (r : Text), IsCore t.program.toList t.function.toList core →
      (core ++ r).head?.any isWord = true := by
    rintro core r ⟨g, g', -, -, rfl⟩
    rw [append_assoc]
    exact isName_head? hprogram _
  rw [CallTarget.head, pathLinks_eq]
  simp only [way_bind, way_star, way_wordBoundary]
  constructor
  · rintro ⟨-, l, _, rfl, hlinks, -, _, _, rfl, ⟨rfl, hbefore⟩, _, core, _, rfl,
      htokens, rfl, hrest⟩
    have hcore := way_tokens_core.1 htokens
    rw [append_nil, hfirst _ hcore] at hbefore
    rw [hlast hcore] at hrest
    refine ⟨l, core, by simp, by simpa using hlinks, hcore, Bool.eq_false_iff.2 hbefore, ?_⟩
    exact Bool.eq_false_iff.2 (Ne.symm hrest)
  · rintro ⟨l, core, rfl, hlinks, hcore, hbefore, hrest⟩
    refine ⟨(), l, core, rfl, hlinks, (), [], core, rfl, ⟨rfl, ?_⟩, (), core, [],
      by simp, way_tokens_core.2 hcore, rfl, ?_⟩
    · rw [hfirst _ hcore, hbefore]
      exact Bool.noConfusion
    · rw [hlast hcore, hrest]
      exact Bool.noConfusion

/-! ## Heads that cover a call -/

section

variable {program function a b r : Text}

/-- A place in a text where no name ends lies before its first name or after it. -/
theorem exists_after_name (hname : IsName name) (ha : a ≠ [])
    (hlast : a.getLast?.any isWord = false)
    (h : a ++ b = name ++ r) : ∃ a', a = name ++ a' ∧ a' ++ b = r := by
  rcases append_eq_append_iff.1 h with ⟨k, hk, hb⟩ | ⟨k, hk, hr⟩
  · rw [getLast?_eq_some_getLast ha, Option.any_some,
      hname.word _ (by rw [hk]; exact mem_append_left k (getLast_mem ha))] at hlast
    cases hlast
  · exact ⟨k, hk, hr.symm⟩

/-- A place where a name starts lies after the marks at the start of a text. -/
theorem exists_after_marks {marks : Text} (hmarks : ∀ x ∈ marks, isWord x = false)
    (hb : b.head?.any isWord = true)
    (h : a ++ b = marks ++ r) : ∃ a', a = marks ++ a' ∧ a' ++ b = r := by
  rcases append_eq_append_iff.1 h with ⟨k, hk, hsplit⟩ | ⟨k, hk, hr⟩
  · cases k with
    | nil => exact ⟨[], by simpa using hk.symm, by simpa using hsplit⟩
    | cons x k =>
      rw [hsplit, cons_append, head?_cons, Option.any_some, hmarks x (by rw [hk]; simp)] at hb
      cases hb
  · exact ⟨k, hk, hr.symm⟩

theorem isWord_of_mem_marks {g' : Text} (hg : Blank g) (hg' : Blank g') :
    ∀ x ∈ g ++ ("::".toList ++ g'), isWord x = false := by
  simp only [forall_mem_append]
  exact ⟨fun x hx => isWord_of_isBlank (hg x hx),
    by decide, fun x hx => isWord_of_isBlank (hg' x hx)⟩

theorem head?_marks (hg : Blank g) (t : Text) :
    (g ++ ("::".toList ++ t)).head?.any isWord = false := head?_gap hg (by decide) _

/-- The text of a call splits in one way into its names, its blanks and the rest. -/
theorem core_unique (hnames : CallNames program function) (hcore : IsCore program function core)
    (hcore' : IsCore program function core') {s s' : Text} (h : core ++ s = core' ++ s') :
    core = core' := by
  obtain ⟨g, k, hg, hk, rfl⟩ := hcore
  obtain ⟨g', k', hg', hk', rfl⟩ := hcore'
  simp only [append_assoc] at h
  have hafter := append_cancel_left h
  obtain ⟨rfl, hcolons⟩ := append_inj_of_class hg hg' rfl rfl hafter
  have hnext := append_cancel_left hcolons
  obtain ⟨rfl, -⟩ := append_inj_of_class hk hk' (isName_head?_blank hnames.second _)
    (isName_head?_blank hnames.second _) hnext
  rfl

theorem eq_of_core {core name s : Text} (hnames : CallNames program function)
    (hcore : IsCore program function core)
    (hname : IsName name) (hr : r.head?.any isWord = false) (h : core ++ s = name ++ r) :
    program = name := by
  obtain ⟨g, k, hg, hk, rfl⟩ := hcore
  simp only [append_assoc] at h
  exact (append_inj_of_class hnames.first.word hname.word (head?_marks hg _) hr h).1

/-- A call that starts after a place within another one starts after its second name. -/
theorem exists_after_core {core s : Text} (hnames : CallNames program function)
    (hcore : IsCore program function core) (hcore' : IsCore program function core') (ha : a ≠ [])
    (hlast : a.getLast?.any isWord = false) (hr : r.head?.any isWord = false)
    (h : a ++ (core ++ s) = core' ++ r) :
    ∃ a', a = core' ++ a' ∧ a' ++ (core ++ s) = r := by
  have hstart : (core ++ s).head?.any isWord = true := by
    obtain ⟨k, k', -, -, rfl⟩ := hcore
    rw [append_assoc]
    exact isName_head? hnames.first _
  obtain ⟨k, k', hk, hk', rfl⟩ := hcore'
  have hsplit : a ++ (core ++ s) = program ++ ((k ++ ("::".toList ++ k')) ++ (function ++ r)) := by
    simpa using h
  obtain ⟨a₁, rfl, hsplit₁⟩ := exists_after_name hnames.first ha hlast hsplit
  obtain ⟨a₂, rfl, hsplit₂⟩ := exists_after_marks (isWord_of_mem_marks hk hk') hstart hsplit₁
  by_cases hnil : a₂ = []
  · subst hnil
    exact absurd (eq_of_core hnames hcore hnames.second hr hsplit₂) hnames.ne
  · have hlast₂ : a₂.getLast?.any isWord = false := by
      rwa [← append_assoc, getLast?_append_of_ne_nil _ hnil] at hlast
    obtain ⟨a₃, rfl, hsplit₃⟩ := exists_after_name hnames.second hnil hlast₂ hsplit₂
    exact ⟨a₃, by simp, hsplit₃⟩

/-- A name with a bracket after it starts no path, and no call if it is not the call's first
name. -/
theorem not_bracket_of_repeats (hnames : CallNames program function) (hname : IsName name)
    (hne : program ≠ name) (hg : Blank g) (hcore : IsCore program function core)
    (hlinks : Repeats pathLink before l (core ++ rest)) (h : l ++ (core ++ rest) =
      name ++ (g ++ '(' :: v)) :
    False := by
  have hopen : (g ++ '(' :: v).head?.any isWord = false := head?_gap hg (by decide) v
  cases hlinks with
  | nil => exact hne (eq_of_core hnames hcore hname hopen h)
  | cons _ hlink hlinks =>
    obtain ⟨-, y, k, k', hy, hk, hk', rfl⟩ := pathLink_of_way hlink
    simp only [append_assoc] at h
    obtain ⟨-, hafter⟩ := append_inj_of_class hy.word hname.word (head?_marks hk _) hopen h
    obtain ⟨-, hmark⟩ := append_inj_of_class hk hg rfl rfl hafter
    exact absurd (cons.inj hmark).1 (by decide)

theorem head?_of_repeats (hnames : CallNames program function)
    (hcore : IsCore program function core) (hlinks : Repeats pathLink before l (core ++ rest)) :
    ∃ x t, l ++ (core ++ rest) = x :: t ∧ isWord x = true := by
  have hname : ∀ {name : Text} (t : Text), IsName name → ∃ x t', name ++ t = x :: t' ∧
      isWord x = true := by
    intro name t hname
    obtain ⟨x, name, rfl⟩ := exists_cons_of_ne_nil hname.ne_nil
    exact ⟨x, name ++ t, rfl, hname.word x mem_cons_self⟩
  cases hlinks with
  | nil =>
    obtain ⟨g, k, -, -, rfl⟩ := hcore
    simp only [nil_append, append_assoc]
    exact hname _ hnames.first
  | cons hne hlink hlinks =>
    obtain ⟨-, y, k, k', hy, hk, hk', rfl⟩ := pathLink_of_way hlink
    simp only [append_assoc]
    exact hname _ hy

/-- **A head that covers the first name of a call ends with the second one.** What stands before the
call in the head is a path. -/
theorem eq_append_of_repeats (hnames : CallNames program function)
    (hcore : IsCore program function core)
    (hg : Blank g) (hcore' : IsCore program function core') (hrest : rest.head?.any isWord = false)
    (hlinks : Repeats pathLink before l (core' ++ rest))
    (hu : (u.reverse ++ before).head?.any isWord = false)
    (hlt : u.length < (l ++ core').length) (h : l ++ (core' ++ rest) =
      u ++ (core ++ (g ++ '(' :: v))) :
    Repeats pathLink before u (core ++ (g ++ '(' :: v)) ∧ l ++ core' = u ++ core := by
  have hstart : (core ++ (g ++ '(' :: v)).head?.any isWord = true := by
    obtain ⟨k, k', -, -, rfl⟩ := hcore
    rw [append_assoc]
    exact isName_head? hnames.first _
  have hlast : ∀ {w before : Text}, w ≠ [] → (w.reverse ++ before).head?.any isWord = false →
      w.getLast?.any isWord = false := by
    intro w before hne hw
    rwa [head?_append_of_ne_nil _ (by simpa using hne), head?_reverse] at hw
  -- the induction goes along the path: the call starts at a name, so each link lies before it as a
  -- whole
  generalize htail : core' ++ rest = tail at hlinks h
  induction hlinks generalizing u with
  | nil =>
    subst htail
    by_cases hnil : u = []
    · subst hnil
      exact ⟨.nil, core_unique hnames hcore' hcore h⟩
    · exfalso
      obtain ⟨u', rfl, -⟩ := exists_after_core hnames hcore hcore' hnil (hlast hnil hu) hrest h.symm
      simp only [nil_append, length_append] at hlt
      omega
  | @cons before w l' tail a hne hlink hlinks ih =>
    subst htail
    obtain ⟨hbefore, y, k, k', hy, hk, hk', rfl⟩ := pathLink_of_way hlink
    by_cases hnil : u = []
    · subst hnil
      exfalso
      obtain ⟨x, t, hxt, hx⟩ := head?_of_repeats hnames hcore' hlinks
      obtain ⟨j, j', hj, hj', rfl⟩ := hcore
      simp only [append_assoc, nil_append] at h
      obtain ⟨-, hafter⟩ :=
        append_inj_of_class hy.word hnames.first.word (head?_marks hk _) (head?_marks hj _) h
      obtain ⟨-, hcolons⟩ := append_inj_of_class hk hj rfl rfl hafter
      obtain ⟨-, hfunction⟩ := append_inj_of_class hk' hj'
        (by rw [hxt]; exact isBlank_of_isWord hx) (isName_head?_blank hnames.second _)
        (append_cancel_left hcolons)
      exact not_bracket_of_repeats hnames hnames.second hnames.ne hg hcore' hlinks hfunction
    · have hsplit : u ++ (core ++ (g ++ '(' :: v)) =
          y ++ ((k ++ ("::".toList ++ k')) ++ (l' ++ (core' ++ rest))) := by simpa using h.symm
      obtain ⟨u₁, rfl, hsplit₁⟩ := exists_after_name hy hnil (hlast hnil hu) hsplit
      obtain ⟨u₂, rfl, hsplit₂⟩ := exists_after_marks (isWord_of_mem_marks hk hk') hstart hsplit₁
      have hlt₂ : u₂.length < (l' ++ core').length := by
        simp only [length_append] at hlt ⊢
        omega
      obtain ⟨hpath, heq⟩ := ih (by simpa using hu) hlt₂ rfl hsplit₂.symm
      constructor
      · have hlonger : Repeats pathLink before ((y ++ (k ++ ("::".toList ++ k'))) ++ u₂)
            (core ++ (g ++ '(' :: v)) :=
          .cons hne (by rw [hsplit₂]; exact hlink) hpath
        simpa using hlonger
      · simp only [append_assoc] at heq ⊢
        rw [heq]

end

/-! ## Recognised calls -/

open Facts

theorem callNames_of_mem (h : s ∈ callShapes) : CallNames s.program.toList s.function.toList := by
  have hall : ∀ s ∈ callShapes, IsName s.program.toList ∧ IsName s.function.toList ∧
      s.program.toList ≠ s.function.toList := by decide
  obtain ⟨hprogram, hfunction, hne⟩ := hall s h
  exact ⟨hprogram, hfunction, hne⟩

theorem exists_target_of_mem (h : s ∈ callShapes) :
    ∃ t ∈ callTargets, t.program = s.program ∧ t.function = s.function := by
  have hall : ∀ s ∈ callShapes, ∃ t ∈ callTargets, t.program = s.program ∧
      t.function = s.function := by decide
  exact hall s h

section

variable {program function : Text}

/-- The text of a call has no character that opens a comment or a literal. -/
theorem plain_of_isShape (hnames : CallNames program function) (h : IsShape program function u) :
    Plain u := by
  obtain ⟨_, k, ⟨g, g', hg, hg', rfl⟩, hk, rfl⟩ := h
  constructor
  · intro x hx
    simp only [append_assoc, mem_append] at hx
    rcases hx with hx | hx | hx | hx | hx | hx | hx
    · exact isPlain_of_isWord (hnames.first.word x hx)
    · exact isPlain_of_isBlank (hg x hx)
    · rcases mem_cons.1 hx with rfl | hx
      · decide
      · rw [mem_singleton.1 hx]
        decide
    · exact isPlain_of_isBlank (hg' x hx)
    · exact isPlain_of_isWord (hnames.second.word x hx)
    · exact isPlain_of_isBlank (hk x hx)
    · rw [mem_singleton.1 hx]
      decide
  · intro x hx
    rw [← append_assoc, List.getLast?_concat] at hx
    obtain rfl := Option.some.inj hx
    decide

theorem way_callPattern (hprogram : IsName s.program.toList) : Way s.pattern before () u rest ↔
      before.head?.any isWord = false ∧ IsShape s.program.toList s.function.toList u := by
  have hfirst : ∀ {u : Text} (r : Text), IsShape s.program.toList s.function.toList u →
      (u ++ r).head?.any isWord = true := by
    rintro u r ⟨_, k, ⟨g, g', -, -, rfl⟩, -, rfl⟩
    simp only [append_assoc]
    exact isName_head? hprogram _
  rw [CallShape.pattern]
  simp only [way_bind, way_wordBoundary]
  constructor
  · rintro ⟨-, _, u, rfl, ⟨rfl, hbefore⟩, htokens⟩
    have hshape := way_tokens_shape.1 htokens
    rw [hfirst _ hshape] at hbefore
    exact ⟨Bool.eq_false_iff.2 hbefore, hshape⟩
  · rintro ⟨hbefore, hshape⟩
    refine ⟨(), [], u, rfl, ⟨rfl, ?_⟩, way_tokens_shape.2 hshape⟩
    rw [hfirst _ hshape, hbefore]
    exact Bool.noConfusion

theorem bounded_callPattern (s : CallShape) : Bounded s.pattern :=
  Takes.wordBoundary.bind fun _ => Bounded.tokens

/-- A recognised call in a marked text: all of it is code, and no name runs into it. -/
def CallAt (ms : Marked) (i : Nat) : Prop :=
  ∃ s ∈ callShapes, ∃ u w v, ms = u ++ (w ++ v) ∧ u.length = i ∧
    IsShape s.program.toList s.function.toList (w.map (·.1)) ∧ (∀ m ∈ w, m.2 = true) ∧
    u.getLast?.any wordMark = false

theorem CallAt.lt_length {ms : Marked} (h : CallAt ms i) : i < ms.length := by
  obtain ⟨s, -, u, w, v, rfl, rfl, ⟨core, g, -, -, hw⟩, -⟩ := h
  have hlen := congrArg List.length hw
  simp only [length_map, length_append, length_singleton] at hlen ⊢
  omega

theorem mem_locateCalls {t : Text} :
    (i, s) ∈ locateCalls t ↔ s ∈ callShapes ∧ ∃ m ∈ Source.findAll s.pattern t, m.start = i := by
  simp only [locateCalls, mem_mergeSort, mem_flatMap, mem_map, Prod.mk.injEq]
  constructor
  · rintro ⟨s', hs', m, hm, hi, rfl⟩
    exact ⟨hs', m, hm, hi⟩
  · rintro ⟨hs, m, hm, hi⟩
    exact ⟨s, hs, m, hm, hi, rfl⟩

/-- **Calls do not overlap**, so a search finds all of them. -/
theorem exists_mem_matchesFrom_call (hs : s ∈ callShapes) (hu : u.getLast?.any isWord = false)
    (hw : IsShape s.program.toList s.function.toList w) :
    ∃ m ∈ matchesFrom s.pattern 0 [] (u ++ (w ++ v)), m.start = u.length := by
  have hnames := callNames_of_mem hs
  have hway : Way s.pattern u.reverse () w v :=
    (way_callPattern hnames.first).2 ⟨by rwa [head?_reverse], hw⟩
  have hread : ∀ {before t : Text} {r : Unit × Nat}, s.pattern.firstAt ⟨before, t⟩ = some r →
      ∃ w' rest, t = w' ++ rest ∧ r.2 = w'.length ∧
      IsShape s.program.toList s.function.toList w' := by
    intro before t r hfirst
    obtain ⟨w', rest, ht, hlen, hway⟩ :=
      (mem_iff_way (bounded_callPattern s)).1 (mem_of_mem_head? hfirst)
    exact ⟨w', rest, ht, hlen, ((way_callPattern hnames.first).1 hway).2⟩
  have hne : w ≠ [] := by
    obtain ⟨_, k, -, -, rfl⟩ := hw
    simp
  obtain ⟨⟨a, n⟩, hfirst⟩ := exists_firstAt_of_way hway
  obtain ⟨n, rfl⟩ : ∃ k, n = k + 1 := by
    obtain ⟨_, _, -, hlen, _, k, -, -, rfl⟩ := hread hfirst
    exact ⟨n - 1, by simp only [length_append, length_singleton] at hlen; omega⟩
  obtain ⟨u₁, u₂, b, j, rfl, hcover, hlt, hmem⟩ := exists_match_covering hfirst (by simp [hne])
  refine ⟨_, hmem, ?_⟩
  by_cases hnil : u₂ = []
  · rw [hnil, append_nil]
  · exfalso
    obtain ⟨w', rest, hsplit, hlen, core', g', hcore', hg', rfl⟩ := hread hcover
    obtain ⟨core, g, hcore, hg, rfl⟩ := hw
    rw [getLast?_append_of_ne_nil _ hnil] at hu
    simp only [append_assoc] at hsplit
    have hopen : (g' ++ (['('] ++ rest)).head?.any isWord = false := head?_gap hg' (by decide) rest
    obtain ⟨u₃, rfl, hsplit₃⟩ := exists_after_core hnames hcore hcore' hnil hu hopen hsplit
    have hmarks : ∀ x ∈ g' ++ ['('], isWord x = false :=
      forall_mem_append.2 ⟨fun x hx => isWord_of_isBlank (hg' x hx), by decide⟩
    have hstart : (core ++ (g ++ (['('] ++ v))).head?.any isWord = true := by
      obtain ⟨k, k', -, -, rfl⟩ := hcore
      rw [append_assoc]
      exact isName_head? hnames.first _
    obtain ⟨u₄, rfl, -⟩ := exists_after_marks hmarks hstart
      (show u₃ ++ (core ++ (g ++ (['('] ++ v))) = (g' ++ ['(']) ++ rest by simpa using hsplit₃)
    simp only [length_append] at hlt hlen
    omega

/-- **The calls that a search locates are those that stand in code.** -/
theorem exists_mem_locateCalls {t : Text} :
    (∃ s, (i, s) ∈ locateCalls t) ↔ CallAt (marked t) i := by
  simp only [mem_locateCalls]
  constructor
  · rintro ⟨s, hs, m, hm, rfl⟩
    have hnames := callNames_of_mem hs
    obtain ⟨hmem, hcode⟩ := mem_filter.1 hm
    obtain ⟨u, v, n, rfl, hstart, -, hfirst⟩ := mem_matchesFrom hmem
    rw [length_nil, Nat.zero_add] at hstart
    obtain ⟨w, rest, rfl, -, hway⟩ :=
      (mem_iff_way (bounded_callPattern s)).1 (mem_of_mem_head? hfirst)
    obtain ⟨hbefore, hshape⟩ := (way_callPattern hnames.first).1 hway
    rw [append_nil, head?_reverse] at hbefore
    have hne : w ≠ [] := by
      obtain ⟨_, k, -, -, rfl⟩ := hshape
      simp
    rw [hstart] at hcode
    obtain ⟨U, V, hmarked, hU, hV⟩ :=
      exists_marked_of_plain (plain_of_isShape hnames hshape) hne hcode
    refine ⟨s, hs, U, _, V, hmarked, ?_, ?_, ?_, ?_⟩
    · rw [hstart, ← hU, length_map]
    · simpa [Function.comp_def] using hshape
    · simp
    · rw [← getLast?_map_fst, hU, hbefore]
  · rintro ⟨s, hs, U, W, V, hmarked, rfl, hshape, hcode, hlast⟩
    have ht : t = U.map (·.1) ++ (W.map (·.1) ++ V.map (·.1)) := by
      have := congrArg (List.map (·.1)) hmarked
      rwa [map_fst_marked, map_append, map_append] at this
    obtain ⟨m, hm, hstart⟩ := exists_mem_matchesFrom_call hs (u := U.map (·.1)) (v := V.map (·.1))
      (by rw [getLast?_map_fst, hlast]) hshape
    rw [← ht] at hm
    rw [length_map] at hstart
    refine ⟨s, hs, m, mem_filter.2 ⟨hm, ?_⟩, hstart⟩
    have hne : W ≠ [] := by
      rintro rfl
      obtain ⟨_, k, -, -, hW⟩ := hshape
      simpa using congrArg List.length hW
    obtain ⟨w, W, rfl⟩ := exists_cons_of_ne_nil hne
    rw [hstart]
    exact (inCode_of_marked hmarked hne).trans (hcode w mem_cons_self)

end

/-! ## Calls that are found -/

theorem bounded_pathLink : Bounded pathLink :=
  Takes.wordBoundary.bind fun _ => Bounded.many1.bind fun _ => Bounded.spaced

theorem bounded_head (t : CallTarget) : Bounded t.head :=
  bounded_pathLink.star.bind fun _ => Takes.wordBoundary.bind fun _ => Bounded.tokens.bind fun _ =>
    .wordBoundary

/-- A path that starts in a comment or a literal runs up to the place. -/
def RunsFromSealed (t : Text) (place : Nat) : Prop :=
  ∃ u₁ u₂ v, t = u₁ ++ (u₂ ++ v) ∧ (u₁ ++ u₂).length = place ∧ inCode t u₁.length = false ∧
    Way pathLinks u₁.reverse () u₂ v

/-- A place where a head matches is in a call that is found, or in a head that makes no call. -/
theorem exists_call_or_head {α : Type} {head : Pattern α} {r : α × Nat}
    (hr : head.firstAt ⟨u.reverse, v⟩ = some r)
    (hpos : 0 < r.2) (hv : v ≠ []) :
    (∃ call ∈ findCallsWith takeSuffix head (u ++ v), call.start ≤ u.length ∧
      u.length < call.stop) ∨
      ∃ u₁ u₂ r', u = u₁ ++ u₂ ∧ head.firstAt ⟨u₁.reverse, u₂ ++ v⟩ = some r' ∧ u₂.length < r'.2 ∧
        (inCode (u ++ v) u₁.length = true → callWithHead? (u ++ v) takeSuffix u₁.length
          (u₁.length + r'.2) = none) := by
  have hclaim : ∀ {u' v' : Text} {r : α × Nat}, head.firstAt ⟨u'.reverse, v'⟩ = some r →
      callClaim (u ++ v) head takeSuffix ⟨u'.reverse, v'⟩ =
        let call? := if inCode (u ++ v) u'.length then callWithHead? (u ++ v) takeSuffix u'.length
          (u'.length + r.2)
          else none
        some (call?, call?.elim r.2 fun call => call.stop - u'.length) := by
    intro u' v' r hr
    simp only [callClaim, hr, Option.map_some, Cursor.position, length_reverse]
    rfl
  obtain ⟨call?, n, hfirst⟩ : ∃ call? n, callClaim (u ++ v) head takeSuffix ⟨u.reverse ++ [], v⟩ =
      some (call?, n + 1) := by
    rw [append_nil, hclaim hr]
    dsimp only
    cases hcall : (if inCode (u ++ v) u.length = true then
        callWithHead? (u ++ v) takeSuffix u.length (u.length + r.2) else none) with
    | none => exact ⟨none, r.2 - 1, by rw [Option.elim_none, Nat.sub_add_cancel hpos]⟩
    | some call =>
      have hlt : u.length < call.stop := by
        split at hcall
        · have := lt_stop_of_callWithHead? hcall
          omega
        · cases hcall
      exact ⟨some call, call.stop - u.length - 1,
        by rw [Option.elim_some, Nat.sub_add_cancel (by omega)]⟩
  rcases exists_claimed_covering hv u 0 [] hfirst with hlt | ⟨u₁, u₂, call?', k, w, rfl, hcover,
    hlt, hmem⟩
  · cases hlt
  · rw [append_nil] at hcover
    obtain ⟨r', hr', -⟩ := Option.map_eq_some_iff.1 hcover
    have heq := (hclaim hr').symm.trans hcover
    dsimp only at heq
    obtain ⟨hcall, hk⟩ := Prod.mk.inj (Option.some.inj heq)
    rw [hcall] at hk
    cases call?' with
    | some call =>
      left
      refine ⟨call, mem_filterMap.2 ⟨_, hmem, rfl⟩, ?_⟩
      split at hcall
      · have hstart := (lt_stop_of_callWithHead? hcall).1
        rw [Option.elim_some] at hk
        rw [length_append]
        omega
      · cases hcall
    | none =>
      right
      rw [Option.elim_none] at hk
      refine ⟨u₁, u₂, r', rfl, hr', by rwa [hk], fun hcode => ?_⟩
      rwa [if_pos hcode] at hcall

theorem callWithHead?_ne_none {a : Text} {start : Nat} (hg : Blank g)
    (hclose : matchingClose (a ++ (g ++ '(' :: v)) (a.length + g.length) ≠ none) :
    callWithHead? (a ++ (g ++ '(' :: v)) takeSuffix start a.length ≠ none := by
  have hskip : skipBlanks (a ++ (g ++ '(' :: v)) a.length = a.length + g.length := by
    rw [skipBlanks_append, Text.blankCount, Text.takeWhile_append_of_head? hg rfl]
  have hopen : (a ++ (g ++ '(' :: v))[a.length + g.length]? = some '(' := by
    rw [getElem?_append_right (by omega), Nat.add_sub_cancel_left,
      getElem?_append_right (Nat.le_refl _), Nat.sub_self]
    rfl
  obtain ⟨close, hclose⟩ := Option.ne_none_iff_exists'.1 hclose
  simp only [callWithHead?, hskip, hopen, hclose]
  exact Option.some_ne_none _

/-- A head that covers a call is a path that runs up to the call, and the call. -/
theorem eq_add_of_firstAt_head (hnames : CallNames t.program.toList t.function.toList)
    {core u₁ u₂ : Text} (hcore : IsCore t.program.toList t.function.toList core) (hg : Blank g)
    (hu : (u₁ ++ u₂).getLast?.any isWord = false) {r : Unit × Nat} (hlt : u₂.length < r.2)
    (hr : t.head.firstAt ⟨u₁.reverse, u₂ ++ (core ++ (g ++ '(' :: v))⟩ = some r) :
    r.2 = u₂.length + core.length ∧ Way pathLinks u₁.reverse () u₂ (core ++ (g ++ '(' :: v)) := by
  obtain ⟨w, rest, hsplit, hlen, hway⟩ := (mem_iff_way (bounded_head t)).1 (mem_of_mem_head? hr)
  obtain ⟨l, core', rfl, hlinks, hcore', -, hrest⟩ := (way_head hnames.first hnames.second).1 hway
  rw [hlen] at hlt
  rw [← head?_reverse, reverse_append] at hu
  obtain ⟨hpath, heq⟩ :=
    eq_append_of_repeats hnames hcore hg hcore' hrest hlinks hu hlt (by simpa using hsplit.symm)
  exact ⟨by rw [hlen, heq, length_append], way_star.2 hpath⟩

section

variable {c : Context} {body : Text}

/-- **A recognised call that is not found has a path before it that starts in a comment or a
literal.** -/
theorem runsFromSealed_of_kept (hnested : Nested body) (h : CallAt (marked body) i)
    (hkept : Kept (callEdits c body) i) : RunsFromSealed body i := by
  obtain ⟨s, hs, U, W, V, hmarked, rfl, ⟨core, g, hcore, hg, hW⟩, hcode, hlast⟩ := h
  obtain ⟨t, ht, hprogram, hfunction⟩ := exists_target_of_mem hs
  have hnames := callNames_of_mem hs
  rw [← hprogram, ← hfunction] at hcore hnames
  -- the text before the call, and the call
  have hbody : body = U.map (·.1) ++ (core ++ (g ++ '(' :: V.map (·.1))) := by
    have := congrArg (List.map (·.1)) hmarked
    rw [map_fst_marked, map_append, map_append, hW] at this
    rw [this]
    simp
  have hclose : matchingClose body ((U.map (·.1) ++ core).length + g.length) ≠ none := by
    obtain ⟨W₁, W₂, rfl, hW₁, hW₂⟩ := map_eq_append_iff.1 (hW.trans (append_assoc _ _ _).symm)
    obtain ⟨m, rfl⟩ := length_eq_one_iff.1 (by simpa using congrArg List.length hW₂ : W₂.length = 1)
    have hm : m = ('(', true) := Prod.ext (cons.inj hW₂).1 (hcode m (by simp))
    have hplace : (U.map (·.1) ++ core).length + g.length = (U ++ W₁).length := by
      have := congrArg List.length hW₁
      simp only [length_append, length_map] at this ⊢
      omega
    have hopen : (marked body)[(U.map (·.1) ++ core).length + g.length]? = some ('(', true) := by
      rw [hplace, hmarked, ← hm, append_assoc, ← append_assoc U,
        getElem?_append_right (Nat.le_refl _), Nat.sub_self]
      rfl
    obtain ⟨close, hclose⟩ := exists_matchingClose hnested (by decide) hopen
    rw [hclose]
    exact Option.some_ne_none _
  have hu : (U.map (·.1)).getLast?.any isWord = false := by rw [getLast?_map_fst, hlast]
  have hlen : U.length = (U.map (·.1)).length := (length_map _).symm
  rw [hlen] at hkept ⊢
  generalize U.map (·.1) = u at hbody hclose hu hkept ⊢
  generalize V.map (·.1) = v at hbody
  have hway : Way t.head u.reverse () core (g ++ '(' :: v) :=
    (way_head hnames.first hnames.second).2 ⟨[], core, rfl, .nil, hcore,
      by simpa [head?_reverse] using hu, head?_gap hg (by decide) v⟩
  obtain ⟨r, hr⟩ := exists_firstAt_of_way hway
  have hpos : 0 < r.2 := by
    obtain ⟨w, rest, -, hlen, hway⟩ := (mem_iff_way (bounded_head t)).1 (mem_of_mem_head? hr)
    obtain ⟨l, core', rfl, -, ⟨_, _, -, -, rfl⟩, -⟩ := (way_head hnames.first hnames.second).1 hway
    have := length_pos_of_ne_nil hnames.first.ne_nil
    rw [hlen]
    simp only [length_append]
    omega
  subst hbody
  have hne : core ++ (g ++ '(' :: v) ≠ [] := by simp
  rcases exists_call_or_head hr hpos hne with ⟨call, hcall, hspan⟩ | ⟨u₁, u₂, r', rfl, hr',
    hlt, hnone⟩
  · -- the call is found, so its edit replaces the place
    have hmem : (call, t) ∈ findTargetCalls (u ++ (core ++ (g ++ '(' :: v))) := by
      rw [findTargetCalls, mem_mergeSort]
      exact mem_flatMap.2 ⟨t, ht, mem_map_of_mem hcall⟩
    obtain ⟨k, hk⟩ := exists_mem_lowerCalls (c := c) (n := 0) hmem
    exact absurd hspan (hkept _ (mem_callEdits_of_call hk))
  · obtain ⟨hlen, hpath⟩ := eq_add_of_firstAt_head hnames hcore hg hu hlt hr'
    refine ⟨u₁, u₂, _, by simp, rfl, ?_, hpath⟩
    by_contra hcode
    rw [Bool.not_eq_false] at hcode
    have hstop : u₁.length + r'.2 = (u₁ ++ u₂ ++ core).length := by
      rw [hlen, length_append, length_append]
      omega
    have hnone := hnone hcode
    rw [hstop, ← append_assoc (u₁ ++ u₂)] at hnone
    rw [← append_assoc (u₁ ++ u₂)] at hclose
    exact callWithHead?_ne_none hg hclose hnone

end

end Lowering

end AnchorLowering
