import AnchorLowering.Proofs.NestedCall

/-!
# Templates and the texts put into them

A lowering step writes a template with parts of the source in it. A part is *closed* if it leaves no
comment or literal open (`Closed`). A template around closed parts is read as its own characters, as
code, and each part as it is read alone (`Woven`); so its brackets are paired if those of the parts
are and those of the template are.
-/

namespace AnchorLowering.Source

open List

variable {k : Char} {edits : List Edit} {g g' m : Text}

/-! ## Closed texts -/

/-- The text leaves no comment or literal open: a mark after it is code. -/
def Closed (t : Text) : Prop := inCode (t ++ [';']) t.length = true

instance (t : Text) : Decidable (Closed t) := inferInstanceAs (Decidable (_ = _))

theorem getElem?_of_inCode {x : Char} (h : inCode (u ++ x :: v) u.length = true) :
    (marked (u ++ x :: v))[u.length]? = some (x, true) :=
  getElem?_marked_eq_some_iff.2 ⟨by simp, h⟩

variable {t u v w : Text} {a b : Marked}

/-- A closed text is read as it is read alone, where no name runs into it and what follows starts
afresh. -/
theorem Closed.lexes (h : Closed t) {before rest : Text} (hbefore : before.head?.any isWord = false)
    (hrest : StartsAfresh t.getLast? rest) : Lexes before (Text.pieces sealedClaim t) rest := by
  obtain ⟨R, hps, hR⟩ := pieces_before (getElem?_of_inCode h)
  have hlexes := lexes_pieces (t ++ [';'])
  rw [hps, lexes_append, spell_cons, hR] at hlexes
  refine hlexes.1.transfer (by rw [hbefore]; rfl) (fun hnil => by simp at hnil) ?_ fun _ => ?_
  · intro e s hlast hline
    obtain hnil | hbreak := hlexes.1.line_end hlast hline
    · simp at hnil
    · simp at hbreak
  · rw [spell_pieces]
    exact .inr ⟨[], [';'], rest, rfl, rfl, hrest⟩

/-! ## Templates -/

/-- The text is read as `a`, where no name runs into it and what follows starts afresh. -/
def Woven (t : Text) (a : Marked) : Prop :=
  ∀ before rest, before.head?.any isWord = false → StartsAfresh t.getLast? rest →
    ∃ ps, spell ps = t ∧ markedPieces ps = a ∧ Lexes before ps rest

/-- The text is read as `a`, also after a name. -/
def Firm (t : Text) (a : Marked) : Prop :=
  ∀ before rest, StartsAfresh t.getLast? rest → ∃ ps, spell ps = t ∧ markedPieces ps = a ∧
  Lexes before ps rest

/-- The text completes nothing that stands before it. -/
def Afresh (t : Text) : Prop := t ≠ [] ∧ ∀ prev rest, StartsAfresh t.getLast? rest →
    StartsAfresh prev (t ++ rest)

/-- A text as code. -/
abbrev asCode (t : Text) : Marked := t.map fun x => (x, true)

theorem Firm.woven (h : Firm t a) : Woven t a := fun before rest _ hrest => h before rest hrest

theorem Woven.marked_eq (h : Woven t a) : marked t = a := by
  obtain ⟨ps, hspell, rfl, hlexes⟩ := h [] [] rfl .nil
  rw [Source.marked_eq, pieces_eq_iff.2 ⟨hspell, hlexes⟩]

theorem Closed.woven (h : Closed t) : Woven t (marked t) := fun _ _ hbefore hrest =>
  ⟨_, spell_pieces t, (Source.marked_eq t).symm, h.lexes hbefore hrest⟩

theorem firm_plain (h : Plain t) : Firm t (asCode t) := fun _ _ _ =>
  ⟨_, spell_chars t, markedPieces_chars t, lexes_plain h⟩

theorem StartsAfresh.congr {prev prev' : Option Char} (h : StartsAfresh prev t)
    (hprev : prev.any isWord = false → prev'.any isWord = false) : StartsAfresh prev' t := by
  cases h with
  | nil => exact .nil
  | mark hk hrest => exact .mark hk hrest
  | name hne hword hh hk => exact .name hne (hprev hword) hh hk

/-- A template before a text. -/
theorem Woven.after (hw : Woven w b) (ht : Plain t) (hne : t ≠ [])
    (hlast : t.getLast?.any isWord = false) :
    Firm (t ++ w) (asCode t ++ b) := by
  intro before rest hrest
  have hrest' : StartsAfresh w.getLast? rest := by
    refine hrest.congr fun hword => ?_
    cases hw : w.getLast? with
    | none => rfl
    | some x =>
      rw [getLast?_append, hw] at hword
      exact hword
  obtain ⟨ps, rfl, rfl, hlexes⟩ :=
    hw (t.reverse ++ before) rest (by rw [any_head?_reverse_append hne, hlast]) hrest'
  refine ⟨chars t ++ ps, by rw [spell_append, spell_chars], ?_, lexes_append.2 ⟨lexes_plain ht, ?_⟩⟩
  · rw [markedPieces_append, markedPieces_chars]
  · rwa [spell_chars]

/-- A text before a template. -/
theorem Woven.append (hu : Woven u a) (hv : Firm v b) (hafresh : Afresh v) :
    Woven (u ++ v) (a ++ b) := by
  intro before rest hbefore hrest
  have hrest' : StartsAfresh v.getLast? rest := by
    rwa [getLast?_append_of_ne_nil _ hafresh.1] at hrest
  obtain ⟨ps, rfl, rfl, hlexes⟩ := hu before (v ++ rest) hbefore (hafresh.2 _ _ hrest')
  obtain ⟨qs, rfl, rfl, hlexes'⟩ := hv ((spell ps).reverse ++ before) rest hrest'
  refine ⟨ps ++ qs, spell_append ps qs, markedPieces_append ps qs, lexes_append.2 ⟨hlexes, hlexes'⟩⟩

theorem afresh_cons (hk : isMark k = true) (hquote : t.head? ≠ some '\'') : Afresh (k :: t) := by
  refine ⟨cons_ne_nil _ _, fun prev rest hrest => .mark hk ?_⟩
  cases t with
  | nil => exact hrest.head_ne (by decide) (by decide) (by decide)
  | cons x t => exact hquote

theorem plain_blanks (hg : Blank g) : Plain g where
  all x hx := isPlain_of_isBlank (hg x hx)
  last x hx := by
    have hblank := hg x (mem_of_getLast? hx)
    constructor <;> rintro rfl <;> exact absurd hblank (by decide)

theorem Plain.append (ht : Plain t) (hu : Plain u) : Plain (t ++ u) where
  all x hx := (mem_append.1 hx).elim (ht.all x) (hu.all x)
  last x hx := by
    rw [getLast?_append] at hx
    cases hlast : u.getLast? with
    | none =>
      rw [hlast] at hx
      exact ht.last x hx
    | some y =>
      rw [hlast] at hx
      exact hu.last x (hlast.trans hx)

/-! ## Bracketed parts -/

/-- The text may be put into a template: it is read there as here, and its brackets are paired. -/
def Fits (t : Text) : Prop := ∃ a, Woven t a ∧ Bracketed (codeText a)

theorem Fits.nested (h : Fits t) : Nested t := by
  obtain ⟨a, ha, hcode⟩ := h
  rwa [Nested, ha.marked_eq]

theorem Closed.fits (h : Closed t) (hnested : Nested t) : Fits t := ⟨_, h.woven, hnested⟩

theorem fits_plain (h : Plain t) (hbracketed : Bracketed t) : Fits t :=
  ⟨_, (firm_plain h).woven, by rwa [codeText_map_code]⟩

/-- A plain text that no name runs out of, for the start of a template. -/
@[mk_iff]
structure Opening (t : Text) : Prop where
  ne_nil : t ≠ []
  plain : Plain t
  last : t.getLast?.any isWord = false

/-- A plain text that completes nothing, for the rest of a template. -/
structure Ending (t : Text) : Prop where
  plain : Plain t
  afresh : Afresh t

instance (t : Text) : Decidable (Plain t) :=
  decidable_of_iff (t.all isPlain = true ∧ t.getLast?.all (fun x => x != 'b' && x != 'r') = true)
    ⟨fun h => ⟨all_eq_true.1 h.1, fun x hx => by simpa [hx] using h.2⟩,
      fun h => ⟨all_eq_true.2 h.all, (Option.all_eq_true ..).2 fun x hx =>
        by simpa using h.last x hx⟩⟩

instance (t : Text) : Decidable (Opening t) := decidable_of_iff _ (opening_iff ..).symm

theorem ending_cons (hk : isMark k = true) (hquote : t.head? ≠ some '\'')
    (hplain : Plain (k :: t)) :
    Ending (k :: t) := ⟨hplain, afresh_cons hk hquote⟩

theorem Fits.after (h : Fits t) (hu : Opening u) (hbracketed : Bracketed u) : Fits (u ++ t) := by
  obtain ⟨a, ha, hcode⟩ := h
  refine ⟨_, (ha.after hu.plain hu.ne_nil hu.last).woven, ?_⟩
  rw [codeText_append, codeText_map_code]
  exact hbracketed.append hcode

theorem Fits.before (h : Fits t) (hv : Ending v) (hbracketed : Bracketed v) : Fits (t ++ v) := by
  obtain ⟨a, ha, hcode⟩ := h
  refine ⟨_, ha.append (firm_plain hv.plain) hv.afresh, ?_⟩
  rw [codeText_append, codeText_map_code]
  exact hcode.append hbracketed

/-- A template around a text that leaves nothing open. -/
theorem Closed.enclose (h : Closed t) (hu : Opening u) (hv : Ending v)
    (hbracketed : Bracketed (u ++ (codeText (marked t) ++ v))) : Fits (u ++ (t ++ v)) := by
  refine ⟨_, ((h.woven.append (firm_plain hv.plain) hv.afresh).after hu.plain hu.ne_nil
    hu.last).woven, ?_⟩
  simpa only [codeText_append, codeText_map_code] using hbracketed

/-- A template around one part. -/
theorem Fits.around (h : Fits t) (hu : Opening u) (hv : Ending v)
    (hbracketed : Bracketed (u ++ v)) :
    Fits (u ++ (t ++ v)) := by
  obtain ⟨a, ha, hcode⟩ := h
  refine ⟨_, ((ha.append (firm_plain hv.plain) hv.afresh).after hu.plain hu.ne_nil hu.last).woven,
    ?_⟩
  simp only [codeText_append, codeText_map_code]
  exact ((SameBrackets.refl u).append (SameBrackets.bracketed_append hcode)).bracketed hbracketed

/-- The text has neither brackets nor the start of a comment or literal in it. -/
def Inert (t : Text) : Prop := ∀ x ∈ t, isPlain x = true ∧ isBracket x = false

instance (t : Text) : Decidable (Inert t) := inferInstanceAs (Decidable (∀ _ ∈ _, _))

theorem Inert.append (ht : Inert t) (hu : Inert u) : Inert (t ++ u) := fun x hx =>
  (mem_append.1 hx).elim (ht x) (hu x)

theorem Inert.brackets_eq_nil (h : Inert t) : brackets t = [] :=
  Source.brackets_eq_nil fun x hx => (h x hx).2

theorem Opening.prepend (hu : Opening u) (ht : ∀ x ∈ t, isPlain x = true) : Opening (t ++ u) where
  ne_nil := by simp [hu.ne_nil]
  plain := ⟨fun x hx => (mem_append.1 hx).elim (ht x) (hu.plain.all x), fun x hx => by
    rw [getLast?_append_of_ne_nil _ hu.ne_nil] at hx
    exact hu.plain.last x hx⟩
  last := by rw [getLast?_append_of_ne_nil _ hu.ne_nil, hu.last]

/-- Plain text before another is code, if no name runs out of it, and the other is read as it is
read alone. -/
theorem marked_opening (hu : Opening u) (t : Text) : marked (u ++ t) = asCode u ++ marked t := by
  have hlexes : Lexes [] (chars u ++ Text.pieces sealedClaim t) [] := by
    refine lexes_append.2 ⟨lexes_plain hu.plain, lexes_alone (lexes_pieces t) ?_⟩
    rw [spell_chars, any_head?_reverse_append hu.ne_nil, hu.last]
    rfl
  have hpieces : Text.pieces sealedClaim (u ++ t) = chars u ++ Text.pieces sealedClaim t :=
    pieces_eq_iff.2 ⟨by rw [spell_append, spell_chars, spell_pieces], hlexes⟩
  rw [marked_eq, hpieces, markedPieces_append, markedPieces_chars, ← marked_eq]

theorem nested_prepend (hu : Opening u) (hbracketed : Bracketed u) (hnested : Nested t) :
    Nested (u ++ t) := by
  rw [Nested, marked_opening hu, codeText_append, codeText_map_code]
  exact hbracketed.append hnested

/-- A plain text between two parts: it completes nothing, whatever follows, and no name runs out of
it. -/
structure Joint (t : Text) : Prop extends Opening t where
  afresh : ∀ prev rest, StartsAfresh prev (t ++ rest)

theorem joint_cons (h : Opening (k :: t)) (hk : isMark k = true) (hne : t ≠ [])
    (hquote : t.head? ≠ some '\'') : Joint (k :: t) :=
  ⟨h, fun _ rest => .mark hk (show (t ++ rest).head? ≠ _ by rwa [head?_append_of_ne_nil _ hne])⟩

/-- Two texts with a template between them. -/
theorem Woven.link (hu : Woven u a) (hv : Woven v b) (hm : Opening m) (hafresh : Afresh (m ++ v)) :
    Woven (u ++ (m ++ v)) (a ++ (asCode m ++ b)) :=
  hu.append (hv.after hm.plain hm.ne_nil hm.last) hafresh

theorem Joint.afresh_append (hm : Joint m) : Afresh (m ++ v) := by
  refine ⟨by simp [hm.ne_nil], fun prev rest _ => ?_⟩
  rw [append_assoc]
  exact hm.afresh prev _

theorem Fits.link (hu : Fits u) (hv : Fits v) (hm : Opening m) (hafresh : Afresh (m ++ v))
    (hbracketed : Bracketed m) : Fits (u ++ (m ++ v)) := by
  obtain ⟨a, ha, hcode⟩ := hu
  obtain ⟨b, hb, hcode'⟩ := hv
  refine ⟨_, ha.link hb hm hafresh, ?_⟩
  rw [codeText_append, codeText_append, codeText_map_code]
  exact hcode.append (hbracketed.append hcode')

theorem Fits.join (hu : Fits u) (hv : Fits v) (hm : Joint m) (hbracketed : Bracketed m) :
    Fits (u ++ (m ++ v)) := hu.link hv hm.toOpening hm.afresh_append hbracketed

/-- A template around two parts. -/
theorem Fits.around₂ {t' : Text} (h : Fits t) (h' : Fits t') (hu : Opening u) (hm : Joint m)
    (hv : Ending v)
    (hbracketed : Bracketed (u ++ (m ++ v))) : Fits (u ++ (t ++ (m ++ (t' ++ v)))) := by
  obtain ⟨a, ha, hcode⟩ := h
  obtain ⟨b, hb, hcode'⟩ := h'
  have hrest := ha.link (hb.append (firm_plain hv.plain) hv.afresh) hm.toOpening hm.afresh_append
  refine ⟨_, (hrest.after hu.plain hu.ne_nil hu.last).woven, ?_⟩
  simp only [codeText_append, codeText_map_code]
  refine SameBrackets.bracketed ((SameBrackets.refl u).append ?_) hbracketed
  exact (((SameBrackets.refl m).append (SameBrackets.bracketed_append hcode')).trans
    (SameBrackets.bracketed_append hcode))

/-! ## Trimmed and collapsed texts -/

theorem opening_blanks (hg : Blank g) (hne : g ≠ []) : Opening g := by
  refine ⟨hne, plain_blanks hg, ?_⟩
  rw [getLast?_eq_some_getLast hne]
  cases hword : isWord (g.getLast hne) with
  | false => exact hword
  | true =>
    have hblank := hg _ (getLast_mem hne)
    rw [isBlank_of_isWord hword] at hblank
    cases hblank

theorem isMark_of_isBlank {k : Char} (h : isBlank k = true) : isMark k = true :=
  of_isBlank isMark h (by decide +kernel)

theorem ending_blanks (hg : Blank g) (hne : g ≠ []) : Ending g := by
  cases g with
  | nil => exact absurd rfl hne
  | cons k g =>
    refine ending_cons (isMark_of_isBlank (hg k mem_cons_self)) (fun hquote => ?_) (plain_blanks hg)
    exact absurd (hg _ (mem_cons_of_mem _ (mem_of_mem_head? hquote))) (by decide)

theorem Opening.append_blanks (hu : Opening u) (hg : Blank g) : Opening (u ++ g) := by
  by_cases hnil : g = []
  · rw [hnil, append_nil]
    exact hu
  · exact (opening_blanks hg hnil).prepend hu.plain.all

theorem Ending.prepend_blanks (hv : Ending v) (hquote : v.head? ≠ some '\'') (hg : Blank g) :
    Ending (g ++ v) := by
  cases g with
  | nil => exact hv
  | cons k g =>
    refine ending_cons (isMark_of_isBlank (hg k mem_cons_self)) ?_
      ((plain_blanks hg).append hv.plain)
    cases g with
    | nil => exact hquote
    | cons x g =>
      intro hx
      obtain rfl := Option.some.inj hx
      exact absurd (hg _ (mem_cons_of_mem _ mem_cons_self)) (by decide)

/-- A text is read as it is read alone, with plain text around it. -/
theorem Woven.marked_between (h : Woven t a) (hg : g ≠ [] → Opening g) (hg' : g' ≠ [] → Ending g') :
    marked (g ++ (t ++ g')) = asCode g ++ (a ++ asCode g') := by
  have hinner : Woven (t ++ g') (a ++ asCode g') := by
    by_cases hnil : g' = []
    · subst hnil
      simpa using h
    · exact h.append (firm_plain (hg' hnil).plain) (hg' hnil).afresh
  by_cases hnil : g = []
  · subst hnil
    exact hinner.marked_eq
  · exact (hinner.after (hg hnil).plain hnil (hg hnil).last).woven.marked_eq

theorem codeText_between (h : Closed t) (hg : g ≠ [] → Opening g) (hg' : g' ≠ [] → Ending g') :
    codeText (marked (g ++ (t ++ g'))) = g ++ (codeText (marked t) ++ g') := by
  rw [h.woven.marked_between hg hg', codeText_append, codeText_append, codeText_map_code,
    codeText_map_code]

/-- A part of a nested text is nested, if it leaves nothing open and the rest is plain and
bracketed. -/
theorem nested_between (h : Nested (g ++ (t ++ g'))) (hclosed : Closed t) (hg : g ≠ [] → Opening g)
    (hg' : g' ≠ [] → Ending g') (hbracketed : Bracketed g) (hbracketed' : Bracketed g') :
    Nested t := by
  rw [Nested, codeText_between hclosed hg hg'] at h
  refine SameBrackets.bracketed (SameBrackets.symm ?_) h
  exact (SameBrackets.append_bracketed hbracketed').trans (SameBrackets.bracketed_append hbracketed)

/-- A nested text is nested without the blanks around it, if it then leaves nothing open. -/
theorem nested_trim (h : Nested t) (hclosed : Closed (Text.trim t)) : Nested (Text.trim t) := by
  obtain ⟨g, g', ht, hg, hg', -⟩ := Lowering.exists_trim t
  rw [ht] at h
  exact nested_between h hclosed (opening_blanks hg) (ending_blanks hg')
    (.of_brackets_eq_nil (brackets_of_blank hg))
    (.of_brackets_eq_nil (brackets_of_blank hg'))

theorem mem_of_mem_dropEmptyLast {part : Text} {parts : List Text}
    (h : part ∈ dropEmptyLast parts) : part ∈ parts := by
  fun_induction dropEmptyLast parts with
  | case1 => exact h
  | case2 => cases h
  | case3 => exact h
  | case4 t rest hrest ih =>
    rcases mem_cons.1 h with rfl | h
    · exact mem_cons_self
    · exact mem_cons_of_mem _ (ih h)

/-- **The arguments of a nested list are nested**, if they leave nothing open. -/
theorem nested_argument {arg : Text} (h : Nested t) (harg : arg ∈ arguments t)
    (hclosed : Closed arg) : Nested arg := by
  obtain ⟨part, hpart, rfl⟩ := mem_map.1 (mem_of_mem_dropEmptyLast harg)
  exact nested_trim (nested_part (by decide) (by decide) h hpart) hclosed

/-- The rule that writes blanks as one. -/
def oneBlank : Pattern Text := do
  Pattern.blanks1
  pure " ".toList

/-- The text is still read alike when its blanks are collapsed, and leaves nothing open. -/
@[mk_iff]
structure Collapses (t : Text) : Prop where
  recodes : Recodes oneBlank.replaceAll t
  closed : Closed (collapseBlanks t)

instance (t : Text) : Decidable (Collapses t) := decidable_of_iff _ (collapses_iff ..).symm

theorem keepsBrackets_oneBlank : KeepsBrackets oneBlank :=
  .pass Pattern.TakesNoBracket.blanks1 fun _ => .pure (.of_brackets_eq rfl) trivial

theorem Collapses.nested (h : Collapses t) (hnested : Nested t) : Nested (collapseBlanks t) :=
  nested_trim (nested_replaceInCode keepsBrackets_oneBlank h.recodes hnested) h.closed

theorem Collapses.fits (h : Collapses t) (hnested : Nested t) : Fits (collapseBlanks t) :=
  h.closed.fits (h.nested hnested)

/-! ## Edits -/

/-- The result has the property, if there is one. -/
def OnSuccess {ε α : Type} (r : Except ε α) (P : α → Prop) : Prop := ∀ a, r = .ok a → P a

instance {ε α : Type} (r : Except ε α) (P : α → Prop) [DecidablePred P] :
    Decidable (OnSuccess r P) :=
  match r with
  | .ok a => decidable_of_iff (P a) ⟨fun h _ hb => Except.ok.inj hb ▸ h, fun h => h a rfl⟩
  | .error _ => isTrue fun _ h => nomatch h

theorem OnSuccess.bind {ε α β : Type} {r : Except ε α} {f : α → Except ε β} {P : β → Prop}
    (h : OnSuccess r fun a => OnSuccess (f a) P) : OnSuccess (r >>= f) P := by
  cases r with
  | ok a => exact h a rfl
  | error e => exact fun _ hb => nomatch hb

theorem sameBrackets_spliceMarked {ms : Marked} (h : Descends ms.length edits)
    (hspans : ∀ e ∈ edits, Bracketed (codeText ((ms.take e.stop).drop e.start)))
    (hnew : ∀ e ∈ edits, Nested e.replacement) :
    SameBrackets (codeText ms) (codeText (spliceMarked ms edits)) := by
  induction edits generalizing ms with
  | nil => exact .refl _
  | cons e edits ih =>
    have hstart : e.start ≤ ms.length := h.2.1.le.trans h.1
    have hlen : (ms.take e.start).length = e.start := length_take_of_le hstart
    have hsplit : codeText ms = codeText (ms.take e.start) ++
        (codeText ((ms.take e.stop).drop e.start) ++
        codeText (ms.drop e.stop)) := by
      have htake : ms.take e.start = (ms.take e.stop).take e.start := by
        rw [take_take, Nat.min_eq_left h.2.1.le]
      rw [← codeText_append, ← codeText_append, ← append_assoc, htake, take_append_drop,
        take_append_drop]
    have hbefore := @ih (ms.take e.start) (by rw [hlen]; exact h.2.2) (fun d hd => by
      rw [take_take, Nat.min_eq_left (h.2.2.stop_le d hd)]
      exact hspans d (mem_cons_of_mem _ hd)) fun d hd => hnew d (mem_cons_of_mem _ hd)
    rw [spliceMarked_cons h, codeText_append, codeText_append, hsplit]
    refine hbefore.append (SameBrackets.append ?_ (.refl _))
    exact .of_bracketed (hspans e mem_cons_self) (hnew e mem_cons_self)

/-- An edit of a bracketed stretch that writes nested code. -/
structure KeepsNested (t : Text) (e : Edit) : Prop where
  start_lt_stop : e.start < e.stop
  stop_le : e.stop ≤ t.length
  span : Bracketed (codeText (((marked t).take e.stop).drop e.start))
  written : Nested e.replacement

/-- **Edits of bracketed stretches keep a text nested**, if nothing is read otherwise where the
parts meet. -/
theorem nested_apply {out : Text} (h : Edit.apply t edits = .ok out) (hseam : Seamless t edits out)
    (hedits : ∀ e ∈ edits, KeepsNested t e) (hnested : Nested t) : Nested out := by
  have hordered : ∀ e ∈ Edit.ordered edits, KeepsNested t e :=
    fun e he => hedits e (Edit.mem_ordered.1 he)
  have hdescends : Descends (marked t).length (Edit.ordered edits) :=
    (descends_of_applyOrdered (fun e he => (hordered e he).start_lt_stop) h).of_stop_le
      fun e he => by
      rw [length_marked]
      exact (hordered e he).stop_le
  rw [Nested, hseam]
  exact (sameBrackets_spliceMarked hdescends (fun e he => (hordered e he).span)
    fun e he => (hordered e he).written).bracketed hnested

end AnchorLowering.Source
