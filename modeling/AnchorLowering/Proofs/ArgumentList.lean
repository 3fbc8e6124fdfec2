import AnchorLowering.Proofs.FoundCall

/-!
# Argument lists

An expression is *self-contained* if it can stand as one argument: it leaves nothing open, its
brackets pair, and it has no comma outside of them (`SelfContained`). Whatever comes after such an
expression is parted as if it stood alone (`Whole`), and so it is after an expression in brackets,
with whatever commas inside. Hence an argument list that is written with a comma and a blank between
its arguments is read as these arguments (`arguments_join`).
-/

namespace AnchorLowering.Source

open List

variable {x : Char} {ms ns : Marked} {e g g' u v : Text} {es : List Text}

/-! ## Parts that go on -/

theorem foldr_consToFirst (u part : Text) (parts : List Text) :
    u.foldr consToFirst (part :: parts) = (u ++ part) :: parts := by
  induction u with
  | nil => rfl
  | cons c u ih => rw [foldr_cons, ih]; rfl

/-- Characters in brackets, or none of which parts the text, are put before the first part of what
follows. -/
theorem partsAtDepth_append {depth : Int} (h : ∀ i, ¬ CutAt ',' depth ms i) (ns : Marked) :
    partsAtDepth ',' depth (ms ++ ns) = (ms.map (·.1)).foldr consToFirst
      (partsAtDepth ',' (depth + balance ms) ns) := by
  induction ms generalizing depth with
  | nil => simp
  | cons m ms ih =>
    have hnext : ∀ depth' : Int, (∀ r, depth + balance (m :: r) = depth' + balance r) →
        partsAtDepth ',' depth' (ms ++ ns) =
          (ms.map (·.1)).foldr consToFirst (partsAtDepth ',' (depth + balance (m :: ms)) ns) := by
      intro depth' hdepth
      rw [hdepth]
      refine ih fun i hcut => h (i + 1) ?_
      rwa [CutAt, getElem?_cons_succ, take_succ_cons, hdepth]
    obtain ⟨c, code⟩ := m
    rw [cons_append, partsAtDepth, map_cons, foldr_cons]
    cases code with
    | false =>
      simp only [Bool.false_and, Bool.false_eq_true, if_false]
      rw [hnext depth fun r => by rw [balance_sealed]]
    | true =>
      simp only [Bool.true_and]
      split
      · rename_i hopener
        rw [hnext (depth + 1) fun r => by rw [balance_opener hopener]; omega]
      · split
        · rename_i hcloser
          rw [hnext (depth - 1) fun r => by rw [balance_closer hcloser]; omega]
        · rename_i hopener hcloser
          have hother : ¬ (c == ',' && depth == 0) = true := by
            intro hcut
            simp only [Bool.and_eq_true, beq_iff_eq] at hcut
            exact h 0 ⟨by rw [hcut.1]; rfl, by simpa using hcut.2⟩
          rw [if_neg hother, hnext depth fun r => by
            rw [balance_other (by simpa using hopener) (by simpa using hcloser)]]

theorem balance_of_awaited {closers closers' : List Char}
    (h : awaited closers (codeText ms) = some closers') :
    closers.length + balance ms = closers'.length := by
  induction ms generalizing closers with
  | nil =>
    obtain rfl : closers = closers' := by simpa [awaited] using h
    simp
  | cons m ms ih =>
    obtain ⟨c, code⟩ := m
    cases code with
    | false => exact ih h
    | true =>
      rw [codeText_code] at h
      by_cases hopener : isOpener c = true
      · rw [awaited_opener hopener] at h
        have hnext := ih h
        rw [balance_opener hopener]
        rw [length_cons] at hnext
        omega
      · by_cases hcloser : isCloser c = true
        · obtain ⟨rest, rfl, hrest⟩ := eq_of_awaited_closer hcloser h
          have hnext := ih hrest
          rw [balance_closer hcloser, length_cons]
          omega
        · rw [Bool.not_eq_true] at hopener hcloser
          rw [awaited_other hopener hcloser] at h
          rw [balance_other hopener hcloser]
          exact ih h

/-- Nothing parts a text in brackets. -/
theorem not_cutAt_of_bracketed (h : Bracketed (codeText ms)) (i : Nat) : ¬ CutAt ',' 1 ms i := by
  rintro ⟨hcomma, hdepth⟩
  have hsplit : awaited [] (codeText (ms.take i) ++ codeText (ms.drop i)) = some [] := by
    rw [← codeText_append, take_append_drop]
    exact h
  rw [awaited_append] at hsplit
  obtain ⟨closers, hclosers, -⟩ := Option.bind_eq_some_iff.1 hsplit
  have := balance_of_awaited hclosers
  simp only [length_nil] at this
  omega

/-! ## Expressions that stay whole -/

/-- An expression that can stand as one argument: it is trimmed, leaves no comment or literal open,
its brackets pair, and it has no comma in code outside of them. -/
structure SelfContained (e : Text) : Prop where
  ne_nil : e ≠ []
  trimmed : Text.trim e = e
  closed : Closed e
  nested : Nested e
  no_comma : ∀ i < e.length, ¬ CutAt ',' 0 (marked e) i

instance (e : Text) : Decidable (SelfContained e) :=
  decidable_of_iff (e ≠ [] ∧ Text.trim e = e ∧ Closed e ∧ Nested e ∧ ∀ i < e.length,
    ¬ CutAt ',' 0 (marked e) i)
    ⟨fun ⟨hne, htrim, hclosed, hnested, hcomma⟩ => ⟨hne, htrim, hclosed, hnested, hcomma⟩,
      fun h => ⟨h.ne_nil, h.trimmed, h.closed, h.nested, h.no_comma⟩⟩

/-- A trimmed text with brackets that pair, which is put before the first part of whatever follows
it. -/
structure Whole (e : Text) : Prop where
  ne_nil : e ≠ []
  head : e.head?.any isBlank = false
  last : e.getLast?.any isBlank = false
  fits : Fits e
  parts : ∀ ns, partsAtDepth ',' 0 (marked e ++ ns) = e.foldr consToFirst (partsAtDepth ',' 0 ns)

theorem not_cutAt_asCode (h : ',' ∉ u) (depth : Int) (i : Nat) :
    ¬ CutAt ',' depth (asCode u) i := by
  rintro ⟨hcomma, -⟩
  obtain ⟨x, hx, hpair⟩ := mem_map.1 (mem_of_getElem? hcomma)
  exact h ((Prod.mk.inj hpair).1 ▸ hx)

theorem partsAtDepth_asCode (h : ',' ∉ u) {closers closers' : List Char}
    (hawaited : awaited closers u = some closers')
    (ns : Marked) : partsAtDepth ',' closers.length (asCode u ++ ns) =
      u.foldr consToFirst (partsAtDepth ',' closers'.length ns) := by
  have hcode : awaited closers (codeText (asCode u)) = some closers' := by rwa [codeText_map_code]
  have hbalance := balance_of_awaited hcode
  have hmap : (asCode u).map (·.1) = u := by rw [map_map]; exact map_id' u
  rw [partsAtDepth_append (not_cutAt_asCode h _), hbalance, hmap]

theorem SelfContained.whole (h : SelfContained e) : Whole e := by
  obtain ⟨-, -, -, -, -, hhead, hlast⟩ := Lowering.exists_trim e
  rw [h.trimmed] at hhead hlast
  have hany : ∀ o : Option Char, (∀ x, o = some x → isBlank x = false) → o.any isBlank = false := by
    rintro (_ | x) hx
    · rfl
    · exact hx x rfl
  refine ⟨h.ne_nil, hany _ hhead, hany _ hlast, h.closed.fits h.nested, fun ns => ?_⟩
  have hcut : ∀ i, ¬ CutAt ',' 0 (marked e) i := by
    intro i hcut
    refine h.no_comma i ?_ hcut
    obtain ⟨hlt, -⟩ := List.getElem?_eq_some_iff.1 hcut.1
    rwa [length_marked] at hlt
  have hbalance := balance_of_awaited h.nested
  simp only [length_nil] at hbalance
  rw [partsAtDepth_append hcut, map_fst_marked, show (0 : Int) + balance (marked e) = 0 by omega]

theorem SelfContained.getLast?_ne (h : SelfContained e) : e.getLast? ≠ some '(' := by
  intro hlast
  obtain ⟨R, hps, hR⟩ := pieces_before (getElem?_of_inCode h.closed)
  have hlexes := lexes_pieces (e ++ [';'])
  rw [hps, lexes_append, spell_cons, hR] at hlexes
  have hspell := spell_pieces e
  obtain hnil | ⟨qs, p, hqs⟩ := eq_nil_or_concat' (Text.pieces sealedClaim e)
  · rw [hnil] at hspell
    exact h.ne_nil hspell.symm
  rw [hqs, spell_append] at hspell
  cases p with
  | char c =>
    have hc : c = '(' := by
      rw [← hspell] at hlast
      simpa using hlast
    have hnested := h.nested
    rw [Nested, marked_eq, hqs, markedPieces_append, codeText_append, hc, Bracketed,
      awaited_append] at hnested
    obtain ⟨closers, -, hclosers⟩ := Option.bind_eq_some_iff.1 hnested
    cases show some (closerOf '(' :: closers) = some [] from hclosers
  | claimed k r =>
    have hreads := hlexes.1
    rw [hqs, lexes_append] at hreads
    obtain ⟨hline | ⟨z, hz, hplain⟩, -⟩ := SealedAt.closed (by simp) hreads.2.1.2
    · have hend : (Text.pieces sealedClaim e).getLast? = some (.claimed k r) := by rw [hqs]; simp
      obtain hnil | hbreak := hlexes.1.line_end hend hline
      · simp at hnil
      · simp at hbreak
    · have hr : r ≠ [] := by rintro rfl; cases hz
      rw [← hspell, getLast?_append_of_ne_nil _ (by simpa using hr)] at hlast
      obtain rfl : z = '(' := by simpa [hz] using hlast
      cases hplain

theorem SelfContained.not_suffix (h : SelfContained e) (hg : Blank g) : ¬ '(' :: g <:+ e := by
  rintro ⟨d, rfl⟩
  obtain rfl | ⟨g, z, rfl⟩ := eq_nil_or_concat' g
  · exact h.getLast?_ne (getLast?_append_of_ne_nil d (cons_ne_nil '(' []))
  · have hlast := h.whole.last
    rw [← cons_append, ← append_assoc, getLast?_append_of_ne_nil _ (cons_ne_nil z [])] at hlast
    exact Bool.noConfusion (hlast.symm.trans (hg z (by simp)))

/-- Plain text before an expression. -/
theorem Whole.prepend (h : Whole e) (hu : Opening u) (hhead : u.head?.any isBlank = false)
    (hbracketed : Bracketed u) (hcomma : ',' ∉ u) : Whole (u ++ e) where
  ne_nil := append_ne_nil_of_left_ne_nil hu.ne_nil _
  head := by rwa [head?_append_of_ne_nil _ hu.ne_nil]
  last := by rw [getLast?_append_of_ne_nil _ h.ne_nil]; exact h.last
  fits := h.fits.after hu hbracketed
  parts ns := by
    rw [marked_opening hu, append_assoc, foldr_append, ← h.parts]
    exact partsAtDepth_asCode hcomma hbracketed _

/-- Brackets around a text, which may have commas of its own. -/
theorem Fits.whole_enclose {y : Char} (h : Fits e) (hu : Opening u) (hv : Ending v)
    (hhead : u.head?.any isBlank = false)
    (hlast : v.getLast?.any isBlank = false) (hopens : awaited [] u = some [y])
    (hcloses : awaited [y] v = some [])
    (hcomma : ',' ∉ u) (hcomma' : ',' ∉ v) : Whole (u ++ (e ++ v)) := by
  obtain ⟨a, ha, hcode⟩ := h
  have hwoven := ((ha.append (firm_plain hv.plain) hv.afresh).after hu.plain hu.ne_nil
    hu.last).woven
  have hmap : a.map (·.1) = e := by rw [← ha.marked_eq, map_fst_marked]
  have hbalance := balance_of_awaited hcode
  simp only [length_nil] at hbalance
  refine ⟨append_ne_nil_of_left_ne_nil hu.ne_nil _, ?_, ?_, ⟨_, hwoven, ?_⟩, fun ns => ?_⟩
  · rwa [head?_append_of_ne_nil _ hu.ne_nil]
  · rwa [← append_assoc, getLast?_append_of_ne_nil _ hv.afresh.1]
  · simp only [codeText_append, codeText_map_code]
    rw [Bracketed, awaited_append, hopens, Option.bind_some, awaited_append, hcode.awaited_eq]
    exact hcloses
  · rw [hwoven.marked_eq, append_assoc, append_assoc, foldr_append, foldr_append]
    have hrest : partsAtDepth ',' 1 (asCode v ++ ns) = v.foldr consToFirst
        (partsAtDepth ',' 0 ns) :=
      partsAtDepth_asCode hcomma' hcloses ns
    refine (partsAtDepth_asCode hcomma hopens _).trans ?_
    rw [← hrest, ← hmap, show ((length [y] : Nat) : Int) = 1 from rfl,
      partsAtDepth_append (not_cutAt_of_bracketed hcode), show (1 : Int) + balance a = 1 by omega]

/-! ## Lists of arguments -/

theorem Whole.trim_between (h : Whole e) (hg : ∀ x ∈ g, isBlank x = true)
    (hg' : ∀ x ∈ g', isBlank x = true) :
    Text.trim (g ++ (e ++ g')) = e := by
  rw [← append_assoc]
  refine trim_append hg hg' (fun x hx => ?_) fun x hx => ?_
  · simpa [hx] using h.head
  · simpa [hx] using h.last

theorem Whole.trim_eq (h : Whole e) : Text.trim e = e := by
  have hnil : ∀ x ∈ ([] : Text), isBlank x = true := by simp
  simpa using h.trim_between hnil hnil

theorem join_cons_append (e' : Text) (es : List Text) (e : Text) :
    Text.join ", " (e' :: (es ++ [e])) = e' ++ (", ".toList ++ Text.join ", " (es ++ [e])) := by
  obtain ⟨e'', rest, hrest⟩ :=
    exists_cons_of_ne_nil (append_ne_nil_of_right_ne_nil es (cons_ne_nil e []))
  rw [hrest, Text.join, intercalate_cons_cons, append_assoc]
  rfl

/-- Expressions with a comma and a blank between neighbours are parted there only. What follows them
is parted as it is alone, and its first part goes on with the last expression. -/
theorem exists_woven_join (h : ∀ e' ∈ es ++ [e], Whole e') :
    ∃ a, Woven (Text.join ", " (es ++ [e])) a ∧ Bracketed (codeText a) ∧ ∀ ns g parts,
    partsAtDepth ',' 0 ns = g :: parts →
      (partsAtDepth ',' 0 (a ++ ns)).map Text.trim = es ++ Text.trim (e ++ g) ::
      parts.map Text.trim := by
  induction es with
  | nil =>
    have he := h e mem_cons_self
    obtain ⟨a, ha, hcode⟩ := he.fits
    obtain rfl := ha.marked_eq
    refine ⟨_, by simpa [Text.join] using ha, hcode, fun ns g parts hparts => ?_⟩
    rw [he.parts, hparts, foldr_consToFirst, map_cons, nil_append]
  | cons e' es ih =>
    have he := h e' mem_cons_self
    obtain ⟨a, ha, hcode⟩ := he.fits
    obtain rfl := ha.marked_eq
    obtain ⟨b, hb, hcode', hparts⟩ := ih fun e he => h e (mem_cons_of_mem _ he)
    have hjoint : Joint ", ".toList := joint_cons (by decide) (by decide) (by decide) (by decide)
    refine ⟨marked e' ++ (asCode ", ".toList ++ b), ?_, ?_, fun ns g parts hns => ?_⟩
    · rw [cons_append, join_cons_append]
      exact ha.link hb hjoint.toOpening hjoint.afresh_append
    · rw [codeText_append, codeText_append, codeText_map_code]
      exact hcode.append (Bracketed.append (by decide) hcode')
    · obtain ⟨part, rest, hsplit⟩ := exists_partsAtDepth ',' 0 (b ++ ns)
      have hcut : partsAtDepth ',' 0 (asCode ", ".toList ++ (b ++ ns)) = [] :: (' ' :: part) ::
          rest := by
        rw [← show consToFirst ' ' (part :: rest) = (' ' :: part) :: rest from rfl, ← hsplit]
        rfl
      rw [append_assoc, append_assoc, he.parts, hcut, foldr_consToFirst, append_nil, map_cons,
        he.trim_eq, cons_append, ← hparts ns g parts hns, hsplit]
      rfl

/-- What may stand after the last argument: blanks, and a comma before them. -/
inductive ListEnd : Text → Prop
  | blanks {g : Text} (hg : ∀ x ∈ g, isBlank x = true) : ListEnd g
  | comma {g : Text} (hg : ∀ x ∈ g, isBlank x = true) : ListEnd (',' :: g)

theorem dropEmptyLast_eq_self (h : ∀ e ∈ es, e ≠ []) : dropEmptyLast es = es := by
  induction es with
  | nil => rfl
  | cons e es ih =>
    cases es with
    | nil => simp [dropEmptyLast, h e mem_cons_self]
    | cons e' es => rw [dropEmptyLast, ih fun e he => h e (mem_cons_of_mem _ he)]; simp

theorem dropEmptyLast_concat_nil (es : List Text) : dropEmptyLast (es ++ [[]]) = es := by
  induction es with
  | nil => rfl
  | cons e es ih =>
    cases es with
    | nil => rfl
    | cons e' es => exact congrArg (e :: ·) ih

theorem partsAtDepth_blanks (hg : ∀ x ∈ g, isBlank x = true) :
    partsAtDepth ',' 0 (asCode g) = [g] := by
  have hcomma : ',' ∉ g := fun hmem => absurd (hg _ hmem) (by decide)
  have := partsAtDepth_asCode hcomma (Bracketed.of_brackets_eq_nil (brackets_of_blank hg)) []
  rw [append_nil] at this
  exact this.trans (by rw [partsAtDepth, foldr_consToFirst, append_nil])

theorem ListEnd.ending_append (h : ListEnd v) (hne : v ≠ []) (hu : Plain u)
    (hquote : u.head? ≠ some '\'') :
    Ending (v ++ u) := by
  obtain ⟨k, g, rfl, hk, hplain, hg⟩ : ∃ k g, v = k :: g ∧ isMark k = true ∧ Plain v ∧ ∀ x ∈ g,
      isBlank x = true := by
    cases h with
    | blanks hg =>
      obtain ⟨k, g, rfl⟩ := exists_cons_of_ne_nil hne
      exact ⟨k, g, rfl, isMark_of_isBlank (hg k mem_cons_self), plain_blanks hg,
        fun x hx => hg x (mem_cons_of_mem k hx)⟩
    | @comma g hg =>
      exact ⟨',', g, rfl, by decide, Plain.append (t := [',']) (by decide) (plain_blanks hg), hg⟩
  refine ending_cons hk ?_ (hplain.append hu)
  cases g with
  | nil => exact hquote
  | cons x g =>
    intro hx
    obtain rfl := Option.some.inj hx
    exact absurd (hg _ mem_cons_self) (by decide)

theorem ListEnd.brackets_eq_nil (h : ListEnd v) : brackets v = [] := by
  cases h with
  | blanks hg => exact brackets_of_blank hg
  | @comma g hg => exact (brackets_append [','] g).trans (brackets_of_blank hg)

/-- The arguments of a list with blanks before it, and after it a text that has no argument of its
own. -/
theorem arguments_join_append (h : ∀ e' ∈ es ++ [e], Whole e') (hg : ∀ x ∈ g, isBlank x = true)
    (hv : v ≠ [] → Ending v)
    {part : Text} {parts : List Text} (hparts : partsAtDepth ',' 0 (asCode v) = part :: parts) :
    arguments (g ++ (Text.join ", " (es ++ [e]) ++ v)) =
      dropEmptyLast (es ++ Text.trim (e ++ part) :: parts.map Text.trim) := by
  obtain ⟨a, ha, -, hjoin⟩ := exists_woven_join h
  obtain ⟨first, rest, hsplit⟩ := exists_partsAtDepth ',' 0 (a ++ asCode v)
  have hcomma : ',' ∉ g := fun hmem => absurd (hg _ hmem) (by decide)
  have hgap : partsAtDepth ',' 0 (asCode g ++ (a ++ asCode v)) = (g ++ first) :: rest := by
    rw [← foldr_consToFirst, ← hsplit]
    exact partsAtDepth_asCode hcomma (Bracketed.of_brackets_eq_nil (brackets_of_blank hg)) _
  have htrim : Text.trim (g ++ first) = Text.trim first := by
    rw [Text.trim, Text.trimLeft, dropWhile_append_of_pos hg]
    rfl
  rw [arguments, Source.splitAt, ha.marked_between (opening_blanks hg) hv, hgap, map_cons, htrim,
    ← map_cons, ← hsplit, hjoin _ _ _ hparts]

/-- **A list of arguments is read as it was written.** -/
theorem arguments_join (h : ∀ e ∈ es, Whole e) (hg : ∀ x ∈ g, isBlank x = true) (hv : ListEnd v)
    (hnil : es = [] → ∀ x ∈ v, isBlank x = true) :
    arguments (g ++ (Text.join ", " es ++ v)) = es := by
  obtain rfl | ⟨es, e, rfl⟩ := eq_nil_or_concat' es
  · have hblank : ∀ x ∈ g ++ v, isBlank x = true :=
      fun x hx => (mem_append.1 hx).elim (hg x) (hnil rfl x)
    change arguments (g ++ v) = []
    rw [arguments, Source.splitAt, (firm_plain (plain_blanks hblank)).woven.marked_eq,
      partsAtDepth_blanks hblank, map_singleton, Lowering.trim_eq_nil hblank]
    rfl
  have hend (hne : v ≠ []) : Ending v := append_nil v ▸ hv.ending_append hne (by decide) (by simp)
  have he := h e (by simp)
  have htrim {b : Text} (hb : ∀ x ∈ b, isBlank x = true) : Text.trim (e ++ b) = e :=
    he.trim_between (g := []) (by simp) hb
  cases hv with
  | blanks hv =>
    rw [arguments_join_append h hg hend (partsAtDepth_blanks hv), htrim hv]
    exact dropEmptyLast_eq_self fun e he => (h e he).ne_nil
  | @comma v hv =>
    have hparts : partsAtDepth ',' 0 (asCode (',' :: v)) = [[], v] :=
      congrArg ([] :: ·) (partsAtDepth_blanks hv)
    rw [arguments_join_append h hg hend hparts, htrim (by simp), map_singleton,
      Lowering.trim_eq_nil hv]
    exact (congrArg dropEmptyLast (by simp)).trans (dropEmptyLast_concat_nil (es ++ [e]))

theorem arguments_of_whole (h : ∀ e ∈ es, Whole e) : arguments (Text.join ", " es) = es := by
  have hnil : ∀ x ∈ ([] : Text), isBlank x = true := by simp
  simpa using arguments_join h hnil (.blanks hnil) fun _ => hnil

theorem fits_argumentList (h : ∀ e ∈ es, Whole e) : Fits (Text.join ", " es) := by
  obtain rfl | ⟨es, e, rfl⟩ := eq_nil_or_concat' es
  · exact fits_plain (by decide) (by decide)
  · obtain ⟨a, ha, hcode, -⟩ := exists_woven_join h
    exact ⟨a, ha, hcode⟩

end AnchorLowering.Source
