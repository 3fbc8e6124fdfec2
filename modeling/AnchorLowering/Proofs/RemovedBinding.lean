import AnchorLowering.Proofs.CallEdit
import AnchorLowering.Proofs.StateRule

/-!
# Bindings that go with a call

A call of another program takes the binding of its call context with it, and the bindings of the
seeds that it resolves. The two are not treated alike. A binding of seeds goes only if its name
stands nowhere else in code (`deadBindings`). The binding of the call context goes in any case: a
name that is read once more, by a second statement, is then left without a binding. And no check
looks at what is written for the calls, where an amount or a seed may repeat the name.
-/

namespace AnchorLowering

open List Pattern

variable {i : Nat} {before name rest u : Text} {b : Binding}

namespace Source.Binding

/-! ## The name that a binding binds -/

/-- The name that is declared by a text that starts with a binding. -/
def declared (t : Text) : Text :=
  let t := (t.drop 3).dropWhile isBlank
  let rest := (t.dropWhile isWord).dropWhile isBlank
  if t.takeWhile isWord = "mut".toList ∧ rest.head?.any isWord = true then rest.takeWhile isWord
  else t.takeWhile isWord

theorem way_head (h : Way (head name) before () u rest) :
    ∃ g m g' z w, u = "let".toList ++ (g ++ (m ++ (name ++ (g' ++ z :: w)))) ∧ g ≠ [] ∧ Blank g ∧
      Blank g' ∧ (z = ':' ∨ z = '=') ∧
      (m = [] ∨ ∃ k, m = "mut".toList ++ k ∧ k ≠ [] ∧ Blank k) := by
  obtain ⟨_, _, _, rfl, hboundary, h⟩ := way_bind.1 h
  obtain ⟨rfl, -⟩ := way_wordBoundary.1 hboundary
  obtain ⟨_, _, _, rfl, hlet, h⟩ := way_bind.1 h
  obtain ⟨_, g, _, rfl, hg, h⟩ := way_bind.1 h
  obtain ⟨_, m, _, rfl, hm, h⟩ := way_bind.1 h
  obtain ⟨_, _, _, rfl, hword, h⟩ := way_bind.1 h
  obtain ⟨_, g', _, rfl, hg', h⟩ := way_bind.1 h
  obtain ⟨_, ty, _, rfl, hty, h⟩ := way_bind.1 h
  obtain ⟨_, _, w, rfl, hequals, -⟩ := way_bind.1 h
  obtain rfl := way_lit.1 hlet
  obtain ⟨hne, hblank⟩ := way_many1.1 hg
  obtain rfl := way_lit.1 hword
  obtain rfl := way_lit.1 hequals
  have hmut : m = [] ∨ ∃ k, m = "mut".toList ++ k ∧ k ≠ [] ∧ Blank k := by
    rcases way_opt.1 hm with ⟨_, -, hm⟩ | ⟨-, rfl⟩
    · obtain ⟨_, _, k, rfl, hmut, hk⟩ := way_bind.1 hm
      obtain rfl := way_lit.1 hmut
      exact .inr ⟨k, rfl, way_many1.1 hk⟩
    · exact .inl rfl
  rcases way_opt.1 hty with ⟨_, -, hty⟩ | ⟨-, rfl⟩
  · obtain ⟨_, _, ty, rfl, hcolon, -⟩ := way_bind.1 hty
    obtain rfl := way_lit.1 hcolon
    exact ⟨g, m, g', ':', _, rfl, hne, hblank, way_many.1 hg', .inl rfl, hmut⟩
  · exact ⟨g, m, g', '=', _, rfl, hne, hblank, way_many.1 hg', .inr rfl, hmut⟩

theorem declared_of_way (hname : IsName name) (h : Way (head name) before () u rest) :
    declared (u ++ rest) = name := by
  obtain ⟨g, m, g', z, w, rfl, -, hg, hg', hz, hm⟩ := way_head h
  have hzword : isWord z = false := by rcases hz with rfl | rfl <;> decide
  have hzblank : isBlank z = false := by rcases hz with rfl | rfl <;> decide
  have hgap : (g' ++ z :: (w ++ rest)).head?.any isWord = false := Lowering.head?_gap hg' hzword _
  have hfirst : ∀ v : Text, (name ++ v).head?.any isBlank = false := by
    intro v
    obtain ⟨x, name', rfl⟩ := exists_cons_of_ne_nil hname.ne_nil
    simpa using isBlank_of_isWord (hname.word x mem_cons_self)
  rcases hm with rfl | ⟨k, rfl, hne, hk⟩
  · have hdrop : ("let".toList ++ (g ++ ([] ++ (name ++ (g' ++ z :: w)))) ++ rest).drop 3 =
        g ++ (name ++ (g' ++ z :: (w ++ rest))) := by simp
    have htail : ((g' ++ z :: (w ++ rest)).dropWhile isBlank).head?.any isWord = false := by
      rw [Text.dropWhile_append_of_head? hg' (by simpa using hzblank)]
      simpa using hzword
    simp only [declared, hdrop, Text.dropWhile_append_of_head? hg (hfirst _),
      Text.takeWhile_append_of_head? hname.word hgap,
      Text.dropWhile_append_of_head? hname.word hgap, htail, Bool.false_eq_true, and_false,
      if_false]
  · obtain ⟨x, k', rfl⟩ := exists_cons_of_ne_nil hne
    have hdrop : ("let".toList ++ (g ++ ("mut".toList ++ (x :: k') ++ (name ++ (g' ++ z :: w)))) ++
        rest).drop 3 =
        g ++ ("mut".toList ++ (x :: k' ++ (name ++ (g' ++ z :: (w ++ rest))))) := by simp
    have hword : (x :: k' ++ (name ++ (g' ++ z :: (w ++ rest)))).head?.any isWord = false := by
      simpa using isWord_of_isBlank (hk x mem_cons_self)
    have hnext : (name ++ (g' ++ z :: (w ++ rest))).head?.any isWord = true := by
      rw [head?_append_of_ne_nil _ hname.ne_nil, hname.head?]
    have hmut : ∀ x ∈ "mut".toList, isWord x = true := by decide
    have hstart : ∀ v : Text, ("mut".toList ++ v).head?.any isBlank = false := fun _ => rfl
    simp only [declared, hdrop, Text.dropWhile_append_of_head? hg (hstart _),
      Text.takeWhile_append_of_head? hmut hword,
      Text.dropWhile_append_of_head? hmut hword, Text.dropWhile_append_of_head? hk (hfirst _),
      hnext, and_self, if_true, Text.takeWhile_append_of_head? hname.word hgap]

theorem bounded_head (name : Text) : Bounded (head name) :=
  Takes.wordBoundary.bind fun _ => Bounded.lit.bind fun _ => Bounded.many1.bind fun _ =>
    (Takes.opt (Bounded.lit.bind fun _ => Bounded.many1)).bind fun _ => Bounded.lit.bind fun _ =>
      Bounded.many.bind fun _ =>
      (Takes.opt (Bounded.lit.bind fun _ => Bounded.many1)).bind fun _ => Bounded.lit.bind fun _ =>
        .notAhead

/-- **A statement binds one name**: bindings that start at one place are the same. -/
theorem eq_of_start_eq {t : Text} {d : Binding} (hbname : IsName b.name) (hdname : IsName d.name)
    (hb : b ∈ all t b.name) (hd : d ∈ all t d.name) (h : b.start = d.start) : b = d := by
  obtain ⟨m, hm, hbm⟩ := mem_filterMap.1 hb
  obtain ⟨m', hm', hdm⟩ := mem_filterMap.1 hd
  obtain ⟨u, v, n, rfl, hstart, hstop, hfirst⟩ := mem_matchesFrom (mem_filter.1 hm).1
  obtain ⟨u', v', n', hsplit, hstart', hstop', hfirst'⟩ := mem_matchesFrom (mem_filter.1 hm').1
  have hplace : m.start = m'.start := by
    rw [← (ofHead?_eq_some hbm).1, h, (ofHead?_eq_some hdm).1]
  have hlen : u.length = u'.length := by
    rw [hstart, hstart'] at hplace
    simpa using hplace
  obtain ⟨rfl, rfl⟩ := List.append_inj hsplit hlen
  have hdeclared : ∀ {name : Text} {n : Nat}, IsName name →
      (head name).firstAt ⟨u.reverse ++ [], v⟩ = some ((), n) → declared v = name := by
    intro name n hname hfirst
    obtain ⟨w, rest, rfl, -, hway⟩ := (mem_iff_way (bounded_head name)).1 (mem_of_mem_head? hfirst)
    exact declared_of_way hname hway
  have hnames : b.name = d.name := (hdeclared hbname hfirst).symm.trans (hdeclared hdname hfirst')
  rw [← hnames] at hfirst' hdm
  have hn : n + 1 = n' + 1 := congrArg Prod.snd (Option.some.inj (hfirst.symm.trans hfirst'))
  have hmatch : m = m' := by
    cases m
    cases m'
    simp_all
  rw [hmatch] at hbm
  exact Option.some.inj (hbm.symm.trans hdm)

end Source.Binding

namespace Lowering

open Source

/-! ## Bindings that nothing reads -/

section

variable {body : Text} {excluded : List Span} {bindings : List Binding} {s : Span}

theorem occurrences_of_mem_deadBindings (h : s ∈ deadBindings body excluded bindings) :
    ∃ b ∈ bindings, s = (b.start, b.stop) ∧ ∀ i ∈ occurrences body b.name,
      ∃ r ∈ excluded ++ deadBindings body excluded bindings, Span.holds r i = true := by
  induction bindings generalizing excluded with
  | nil => cases h
  | cons b bindings ih =>
    simp only [deadBindings] at h ⊢
    split at h
    · rename_i hkept
      rw [if_pos hkept]
      obtain ⟨d, hd, hs, hreads⟩ := ih h
      exact ⟨d, mem_cons_of_mem b hd, hs, hreads⟩
    · rename_i hdead
      rw [if_neg hdead]
      rcases mem_cons.1 h with rfl | h
      · refine ⟨b, mem_cons_self, rfl, fun i hi => ?_⟩
        simp only [Bool.or_eq_true, not_or, Bool.not_eq_true, any_eq_false, Bool.not_eq_true']
          at hdead
        have hheld := hdead.2 i hi
        push Not at hheld
        obtain ⟨r, hr, hri⟩ := hheld
        rw [Bool.ne_false_iff] at hri
        refine ⟨r, ?_, hri⟩
        rcases mem_append.1 hr with hr | hr
        · exact mem_append_left _ hr
        · rw [mem_singleton.1 hr]
          exact mem_append_right _ mem_cons_self
      · obtain ⟨d, hd, hs, hreads⟩ := ih h
        refine ⟨d, mem_cons_of_mem b hd, hs, fun i hi => ?_⟩
        obtain ⟨r, hr, hri⟩ := hreads i hi
        refine ⟨r, ?_, hri⟩
        rwa [append_assoc, singleton_append] at hr

theorem not_mem_of_mem_deadBindings (h : s ∈ deadBindings body excluded bindings) :
    s ∉ excluded := by
  induction bindings generalizing excluded with
  | nil => cases h
  | cons b bindings ih =>
    simp only [deadBindings] at h
    split at h
    · exact ih h
    · rename_i hdead
      rcases mem_cons.1 h with rfl | h
      · intro hmem
        simp [hmem] at hdead
      · exact fun hmem => ih h (mem_append_left _ hmem)

theorem stop_le_of_wordAt {ms : Marked} {k : Nat} {name : Text} (hname : IsName name)
    (h : WordAt ms i name) (hk : i < k)
    (hcut : (ms.take k).getLast?.any wordMark = false ∨ (ms.drop k).head?.any wordMark = false) :
    i + name.length ≤ k := by
  obtain ⟨u, w, v, rfl, rfl, rfl, -⟩ := h
  by_contra hlt
  rw [length_map] at hlt
  have hword : ∀ m ∈ w, wordMark m = true := fun m hm => hname.word _ (mem_map_of_mem hm)
  -- the place is inside the word, so a character of the word stands on both sides of it
  obtain ⟨a, b, rfl, ha⟩ : ∃ a b, w = a ++ b ∧ k = u.length + a.length :=
    ⟨w.take (k - u.length), w.drop (k - u.length), (take_append_drop ..).symm,
      by rw [length_take]; omega⟩
  obtain ⟨a, x, rfl⟩ := (eq_nil_or_concat' a).resolve_left fun hnil => by simp [hnil] at ha; omega
  obtain ⟨y, b, rfl⟩ := exists_cons_of_ne_nil (l := b) fun hnil => hlt (by simp [hnil, ha])
  rw [append_assoc, ← append_assoc, take_left' (by simpa using ha.symm),
    drop_left' (by simpa using ha.symm)] at hcut
  simp [hword] at hcut

/-- **A binding goes only if nothing that stays reads it.** Each stretch that goes is a binding's
and was not among the given ones, and every whole word of code that is the name of that binding
starts in one of the given stretches or in one that goes. It lies there as a whole if that stretch
does not end in the middle of a name. -/
theorem deadBindings_sound (body : Text) (spans : List Span) (bindings : List Binding)
    (hnames : ∀ b ∈ bindings, IsName b.name) (h : s ∈ deadBindings body spans bindings) :
    s ∉ spans ∧ ∃ b ∈ bindings, s = (b.start, b.stop) ∧ ∀ i, WordAt (marked body) i b.name →
      ∃ r ∈ spans ++ deadBindings body spans bindings, r.1 ≤ i ∧ i < r.2 ∧
        (((marked body).take r.2).getLast?.any wordMark = false ∨
          ((marked body).drop r.2).head?.any wordMark = false →
          i + b.name.length ≤ r.2) := by
  obtain ⟨b, hb, hs, hreads⟩ := occurrences_of_mem_deadBindings h
  refine ⟨not_mem_of_mem_deadBindings h, b, hb, hs, fun i hi => ?_⟩
  obtain ⟨r, hr, hheld⟩ := hreads i ((mem_occurrences (hnames b hb)).2 hi)
  obtain ⟨hstart, hstop⟩ : r.1 ≤ i ∧ i < r.2 := by simpa [Span.holds] using hheld
  exact ⟨r, hr, hstart, hstop, stop_le_of_wordAt (hnames b hb) hi hstop⟩

theorem deadBindings_sound_chain :
    deadBindings "let s = x; let t = s; f(t);" [(22, 27)] [⟨11, 21, "t", "s"⟩, ⟨0, 10, "s", "x"⟩] =
    [(11, 21), (0, 10)] ∧
    (0, 10) ∉ [((22, 27) : Span)] := by
  have hdead : deadBindings "let s = x; let t = s; f(t);" [(22, 27)] [⟨11, 21, "t", "s"⟩,
      ⟨0, 10, "s", "x"⟩] =
      [(11, 21), (0, 10)] := by decide +kernel
  exact ⟨hdead, (deadBindings_sound _ _ _ (by decide) (hdead ▸ mem_cons_of_mem _ mem_cons_self)).1⟩

/-- **A read may stick out of a given stretch.** Only where a read starts counts, so the binding
goes though the second character of its name is read outside of all stretches. -/
theorem deadBindings_of_cut_read :
    deadBindings "let ab = &[&[a]]; ab;" [(18, 19)] [⟨0, 17, "ab", "&[&[a]]"⟩] = [(0, 17)] ∧
      WordAt (marked "let ab = &[&[a]]; ab;") 18 "ab" ∧
      ∀ r ∈ [((18, 19) : Span), (0, 17)], ¬ (r.1 ≤ 19 ∧ 19 < r.2) := by
  refine ⟨by decide +kernel, ?_, by decide⟩
  exact (mem_occurrences (by decide)).1 (by decide +kernel)

end

/-- The stretch is removed with a call, as the binding of its call context. -/
def HoldsContext (c : Context) (body : Text) (s : Span) : Prop :=
  ∃ e ∈ loweredCalls c body, s ∈ e.2.removed ∧ ∃ expr amount context,
    e.1.args = [expr, amount] ∧ findCallContext? body expr = some (context, [s])

section

variable {c : Context} {body : Text}

/-- A binding that goes, but not as that of a call context, has a name that is read nowhere else. -/
theorem holdsContext_of_kept (hname : IsName b.name) (hb : b ∈ Binding.all body b.name)
    (hs : (b.start, b.stop) ∈ removedSpans c body) (hi : i ∈ occurrences body b.name)
    (hkept : Kept (callEdits c body) i) : HoldsContext c body (b.start, b.stop) := by
  obtain ⟨⟨call, lowered⟩, hlowered, hmem⟩ := mem_flatMap.1 hs
  obtain ⟨t, ht, k, hcall, hof⟩ := exists_target_of_mem_loweredCalls hlowered
  have hgone : ∀ r ∈ lowered.removed, Span.holds r i = false := by
    intro r hr
    have hout := hkept _ (mem_callEdits_of_removed (mem_flatMap.2 ⟨_, hlowered, hr⟩))
    rw [Span.holds, Bool.eq_false_iff]
    simpa using hout
  have hoff : Span.holds (call.start, call.stop) i = false := by
    have hout := hkept _ (mem_callEdits_of_call hlowered)
    rw [Span.holds, Bool.eq_false_iff]
    simpa using hout
  cases hlower : t.lower? c body call k with
  | none =>
    rw [hof, CallTarget.lowerOrMark, hlower] at hmem
    cases hmem
  | some result =>
    have hresult : lowered = result := by rw [hof, CallTarget.lowerOrMark, hlower, Option.getD_some]
    obtain ⟨expr, amount, context, removed, accounts, hargs, hcontext, -, -, used, hused,
        hremoved⟩ :=
      CallTarget.lower?_cases hlower
    rw [← hresult] at hremoved
    rw [hremoved] at hmem
    rcases mem_append.1 hmem with hmem | hmem
    · refine ⟨_, hlowered, by rw [hremoved]; exact mem_append_left _ hmem, expr, amount, context,
        hargs, ?_⟩
      rcases findCallContext?_cases hcontext with ⟨-, rfl⟩ | ⟨d, -, -, -, rfl⟩
      · cases hmem
      · rw [mem_singleton.1 hmem]
        exact hcontext
    · -- the binding of seeds is checked for readers, and a place that is kept would be one
      obtain ⟨d, hd, hspan, hreads⟩ := occurrences_of_mem_deadBindings hmem
      obtain ⟨hdname, hdfind⟩ := hused d hd
      obtain rfl := Binding.eq_of_start_eq hname hdname hb (Binding.mem_all_of_find? hdfind)
        (congrArg Prod.fst hspan)
      obtain ⟨r, hr, hri⟩ := hreads i hi
      have hfalse : Span.holds r i = false := by
        rcases mem_append.1 hr with hr | hr
        · rcases mem_append.1 hr with hr | hr
          · exact hgone r (by rw [hremoved]; exact mem_append_left _ hr)
          · rw [mem_singleton.1 hr]
            exact hoff
        · exact hgone r (by rw [hremoved]; exact mem_append_right _ hr)
      rw [hfalse] at hri
      cases hri

end

/-! ## Names that are left without a binding -/

/-- The name stands in code, and no statement binds it. -/
def Dangling (t name : Text) : Prop :=
  occurrences t name ≠ [] ∧ Source.find? (Binding.head name) t = none

/-- **When the name of a removed binding is still read.** Only the binding of a call context goes
while its name stands at a place that no edit replaces. Where the edits leave no seam, the name of a
removed binding is left without a binding exactly if no other statement of the result binds it and
it is still read, at such a place or in what is written for a call. -/
theorem dangling_iff {c : Context} {body out : Text} (h : lowerProgramCalls c body = .ok out)
    {b : Binding} (hname : IsName b.name) (hb : b ∈ Binding.all (lowerBalances body) b.name)
    (hremoved : (b.start, b.stop) ∈ removedSpans c (lowerBalances body)) :
    ((∃ i ∈ occurrences (lowerBalances body) b.name, Kept (callEdits c (lowerBalances body)) i) →
        HoldsContext c (lowerBalances body) (b.start, b.stop)) ∧
      (Seamless (lowerBalances body) (callEdits c (lowerBalances body)) out →
        (Dangling out b.name ↔ Source.find? (Binding.head b.name) out = none ∧
          ((∃ i ∈ occurrences (lowerBalances body) b.name,
            Kept (callEdits c (lowerBalances body)) i) ∨
            ∃ e ∈ callEdits c (lowerBalances body), occurrences e.replacement b.name ≠ []))) := by
  rw [lowerProgramCalls_eq] at h
  constructor
  · rintro ⟨i, hi, hkept⟩
    exact holdsContext_of_kept hname hb hremoved hi hkept
  · intro hseam
    rw [Dangling, occurrences_apply hname h (fun e he => cutsNoName_callEdits he) hseam, and_comm]

/-- A transfer whose call context is bound, and read by the transfer only. -/
def readOnce : Text := Text.concat [letContext "a" "b", transferBound]

theorem lowerBalances_readOnce : lowerBalances readOnce = readOnce := by decide +kernel

theorem loweredCalls_readOnce :
    ∃ lowered, loweredCalls bareContext readOnce = [(boundCall 49, lowered)] ∧
    lowered.replacement = transferIssued "a" "b" ∧ lowered.removed = [(0, 49)] := by
  have hcalls : (callTargets.flatMap fun t => (findCalls t.head readOnce).map fun call =>
      (call, t)) =
      [(boundCall 49, systemTransfer)] := by decide +kernel
  exact ⟨_, loweredCalls_of_single hcalls, by decide +kernel, by decide +kernel⟩

theorem removedSpans_readOnce : removedSpans bareContext readOnce = [(0, 49)] := by
  obtain ⟨lowered, hlowered, -, hgone⟩ := loweredCalls_readOnce
  simp only [removedSpans, hlowered, flatMap_cons, flatMap_nil, append_nil, hgone]

theorem callEdits_readOnce :
    callEdits bareContext readOnce = [⟨49, 81, transferIssued "a" "b"⟩, ⟨0, 49, []⟩] := by
  obtain ⟨lowered, hlowered, hwritten, -⟩ := loweredCalls_readOnce
  simp only [callEdits, removedSpans_readOnce, hlowered, map_cons, map_nil, hwritten]
  rfl

theorem ordered_readOnce : Edit.ordered (callEdits bareContext readOnce) =
    [⟨49, 81, transferIssued "a" "b"⟩, ⟨0, 49, []⟩] := by
  rw [callEdits_readOnce]
  exact Edit.ordered_of_pairwise (by decide +kernel) (by decide +kernel)

theorem lowerProgramCalls_readOnce :
    lowerProgramCalls bareContext readOnce = .ok (transferIssued "a" "b") := by
  rw [lowerProgramCalls_eq, lowerBalances_readOnce, Edit.apply, ordered_readOnce]
  decide +kernel

theorem seamless_readOnce :
    Seamless readOnce (callEdits bareContext readOnce) (transferIssued "a" "b") := by
  rw [Seamless, ordered_readOnce]
  decide +kernel

/-- No place of the transfer's text is kept: the binding and the transfer are the whole of it. -/
theorem not_kept_readOnce (hi : i < 81) : ¬Kept (callEdits bareContext readOnce) i := by
  intro hkept
  rw [callEdits_readOnce] at hkept
  have hcall := hkept _ mem_cons_self
  have hlet := hkept _ (mem_cons_of_mem _ mem_cons_self)
  dsimp only at hcall hlet
  omega

theorem not_dangling_readOnce :
    lowerProgramCalls bareContext readOnce = .ok (transferIssued "a" "b") ∧
      (0, 49) ∈ removedSpans bareContext readOnce ∧ ¬Dangling (transferIssued "a" "b") "c" := by
  have hremoved : (0, 49) ∈ removedSpans bareContext readOnce := by
    rw [removedSpans_readOnce]
    exact List.mem_singleton.2 rfl
  refine ⟨lowerProgramCalls_readOnce, hremoved, fun hdangling => ?_⟩
  obtain ⟨b, hb, hname, hspan⟩ : ∃ b ∈ Binding.all readOnce "c", b.name = "c".toList ∧
      (b.start, b.stop) = (0, 49) := by
    decide +kernel
  have hseam := seamless_readOnce
  rw [← hspan] at hremoved
  rw [← hname] at hb hdangling
  rw [← lowerBalances_readOnce] at hb hseam hremoved
  obtain ⟨-, ⟨i, hi, hkept⟩ | ⟨e, he, hreads⟩⟩ :=
    ((dangling_iff lowerProgramCalls_readOnce (by rw [hname]; decide) hb hremoved).2 hseam).1
      hdangling
  · have hplaces : ∀ i ∈ occurrences readOnce "c", i < 81 := by decide +kernel
    rw [lowerBalances_readOnce] at hi hkept
    rw [hname] at hi
    exact not_kept_readOnce (hplaces i hi) hkept
  · have hnone : ∀ e ∈ [(⟨49, 81, transferIssued "a" "b"⟩ : Edit), ⟨0, 49, []⟩],
        occurrences e.replacement "c" = [] := by
      decide +kernel
    rw [lowerBalances_readOnce, callEdits_readOnce] at he
    rw [hname] at hreads
    exact hreads (hnone e he)

/-- A transfer whose call context is read once more after it. -/
def readAfter : Text := Text.concat [letContext "a" "b", transferBound, "log(c);"]

/-- **The call context goes though it is read.** After the transfer a statement reads the call
context once more; the binding goes all the same, and the statement is left with a name that nothing
binds. -/
theorem context_removed_while_read :
    lowerProgramCalls bareContext readAfter =
    .ok (Text.concat [transferIssued "a" "b", "log(c);"]) ∧
      Dangling (Text.concat [transferIssued "a" "b", "log(c);"]) "c" := by
  have hcalls : (callTargets.flatMap fun t => (findCalls t.head readAfter).map fun call =>
      (call, t)) =
      [(boundCall 49, systemTransfer)] := by decide +kernel
  refine ⟨?_, by decide +kernel, by decide +kernel⟩
  rw [lowerProgramCalls_of_single (by decide +kernel) hcalls
    (by decide +kernel : _ = [⟨49, 81, transferIssued "a" "b"⟩, ⟨0, 49, []⟩]) (by decide +kernel)
    (by decide +kernel)]
  decide +kernel

end Lowering

end AnchorLowering
