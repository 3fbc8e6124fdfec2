import AnchorLowering.Proofs.ArgumentList
import AnchorLowering.Proofs.TypeText

/-!
# Struct literals that are written out

A struct literal is written as a path, and its fields between braces with a comma and a blank
between neighbours. Each field is a name and a value after a colon, or a lone name (`Spells`).

Main result: `arguments_and_literals_read_back`.
-/

namespace AnchorLowering

open List Pattern Source Lowering

variable {links : List Text} {es : List Text} {g name path rest t u v w value : Text} {x y : Char}

/-! ## Repetitions -/

theorem prefers_notAhead {α : Type} {p : Pattern α} {before rest : Text}
    (h : p ⟨before, rest⟩ = []) : Prefers (notAhead p) before () [] rest := by
  rw [Prefers, firstAt, nil_append, notAhead, h]
  rfl

/-- The text is taken in parts, each in the way that is preferred, until there is none. -/
inductive Iterates {α : Type} (p : Pattern α) (rest : Text) : Text → Text → Prop
  | stop {before : Text} (h : p ⟨before, rest⟩ = []) : Iterates p rest before []
  | step {before u w : Text} {e : α} (hne : u ≠ []) (hp : Prefers p before e u (w ++ rest))
    (h : Iterates p rest (u.reverse ++ before) w) : Iterates p rest before (u ++ w)

theorem Iterates.prefers {α : Type} {p : Pattern α} {before u rest : Text}
    (h : Iterates p rest before u) :
    Prefers (Pattern.star p) before () u rest := by
  have hstar : ∀ bound, u.length ≤ bound → (starUpTo p bound ⟨before, u ++ rest⟩).head? =
      some u.length := by
    induction h with
    | @stop before h =>
      intro bound _
      cases bound with
      | zero => rfl
      | succ bound => rw [starUpTo, nil_append, h]; rfl
    | @step before u w e hne hp h ih =>
      intro bound hbound
      obtain ⟨x, u, rfl⟩ := exists_cons_of_ne_nil hne
      simp only [length_append, length_cons] at hbound
      obtain ⟨bound, rfl⟩ : ∃ k, bound = k + 1 := ⟨bound - 1, by omega⟩
      obtain ⟨l, hl⟩ := head?_eq_some_iff.1 hp
      obtain ⟨l', hl'⟩ := head?_eq_some_iff.1 (ih bound (by omega))
      rw [starUpTo, append_assoc, hl, flatMap_cons, if_neg (by simp), Cursor.advance_eq, take_left,
        drop_left, hl', length_append]
      rfl
  rw [Prefers, firstAt, Pattern.star, head?_map, hstar _ (by simp)]
  rfl

/-! ## Tables -/

theorem Table.set_of_not_mem {α : Type} {table : Table α} {value : α}
    (h : name ∉ table.map Prod.fst) :
    Table.set table name value = table ++ [(name, value)] := by
  induction table with
  | nil => rfl
  | cons e table ih =>
    obtain ⟨hne, hrest⟩ := not_or.1 (mem_cons.not.1 h)
    rw [Table.set, if_neg (by simpa using fun heq => hne heq.symm), ih hrest, cons_append]

theorem Table.ofEntries_eq_self {α : Type} {entries : List (Text × α)}
    (h : (entries.map Prod.fst).Nodup) :
    Table.ofEntries entries = entries := by
  have hfold : ∀ done : Table α, ((done ++ entries).map Prod.fst).Nodup →
      entries.foldl (fun table e => Table.set table e.1 e.2) done = done ++ entries := by
    clear h
    induction entries with
    | nil => simp
    | cons e entries ih =>
      intro done hnodup
      have hfresh : e.1 ∉ done.map Prod.fst := by
        rw [map_append, map_cons, nodup_append] at hnodup
        exact fun hmem => hnodup.2.2 _ hmem _ mem_cons_self rfl
      rw [foldl_cons, Table.set_of_not_mem hfresh, ih, append_assoc]
      · rfl
      · rwa [append_assoc]
  exact hfold [] h

/-! ## The partner of a bracket around a text -/

/-- A bracket before a text that fits is closed by the first bracket after it. -/
theorem matchingClose_of_fits (hu : Opening (u ++ [x])) (hx : isOpener x = true) (ht : Fits t)
    (hw : brackets w = []) (hv : Ending (w ++ y :: v)) (hy : isCloser y = true) :
    matchingClose (u ++ [x] ++ (t ++ (w ++ y :: v))) u.length =
    some (u.length + 1 + (t ++ w).length) := by
  obtain ⟨a, ha, hcode⟩ := ht
  have hlen : a.length = t.length := by rw [← ha.marked_eq, length_marked]
  have hawaited : awaited [] (codeText (a ++ asCode w)) = some [] := by
    rw [codeText_append, codeText_map_code]
    exact hcode.append (.of_brackets_eq_nil hw)
  have hpartner : partnerOffset 1 (a ++ asCode w ++ asCode (y :: v)) = some (t ++ w).length := by
    have := partnerOffset_marked hawaited 0 (asCode (y :: v))
    simp only [length_nil, Nat.zero_add] at this
    have hfirst : partnerOffset 1 (asCode (y :: v)) = some 0 := by
      rw [asCode, map_cons, partnerOffset, isOpener_of_isCloser hy, hy]
      rfl
    rw [this, hfirst]
    simp [hlen]
  have hdrop : (marked (u ++ [x] ++ (t ++ (w ++ y :: v)))).drop u.length =
      (x, true) :: (a ++ asCode w ++ asCode (y :: v)) := by
    rw [ha.marked_between (fun _ => hu) fun _ => hv, asCode, map_append, append_assoc,
      drop_left' (by simp)]
    simp
  rw [matchingClose, hdrop, partnerOffset, hx, Bool.and_true, if_pos rfl, hpartner]
  simp only [Option.map_some]
  congr 1
  omega

namespace Source.StructLiteral

/-! ## Paths -/

/-- The path of a struct literal: names with a double colon between neighbours, of which the first
starts with a letter. -/
structure IsLiteralPath (path : Text) : Prop where
  first : path.head?.any (fun x => isLatinLetter x || x == '_') = true
  names : ∃ links name, IsPath links name ∧ path = pathText links name

theorem iterates_pathText (h : IsPath links name) (hrest : rest.head?.any isWord = false)
    (hstop : ∀ before, (do spaced "::"; word : Pattern Unit) ⟨before, rest⟩ = []) (before : Text) :
    Iterates (do spaced "::"; word) rest before ("::".toList ++ pathText links name) := by
  have hlink {n before rest : Text} (hn : IsName n) (hrest : rest.head?.any isWord = false) :
      Prefers (do spaced "::"; word) before () ("::".toList ++ n) rest :=
    (prefers_spaced_gaps (g := []) (by decide) (by simp) (by simp) (isName_head?_blank hn _)).bind
      (prefers_many1 hn.ne_nil hn.word hrest)
  induction links generalizing before with
  | nil =>
    rw [← append_nil ("::".toList ++ pathText [] name)]
    exact .step (by simp) (hlink h.last hrest) (.stop (hstop _))
  | cons n links ih =>
    have hlinks : IsPath links name := ⟨fun m hm => h.front m (mem_cons_of_mem n hm), h.last⟩
    rw [pathText_cons, append_assoc, ← append_assoc]
    exact .step (by simp) (hlink (h.front n mem_cons_self) rfl) (ih hlinks _)

theorem prefers_head (hpath : IsLiteralPath path) (rest : Text) :
    Prefers head [] path (path ++ " \x7b".toList) rest := by
  have hstop (before : Text) : (do spaced "::"; word : Pattern Unit) ⟨before,
      " \x7b".toList ++ rest⟩ = [] := rfl
  obtain ⟨hfirst, links, name, hnames, rfl⟩ := hpath
  -- the first name, and what the repetition takes after it
  obtain ⟨x, w, tail, hsplit, hw, htail, hiterates⟩ : ∃ x w tail, pathText links name =
      x :: (w ++ tail) ∧
      (∀ y ∈ w, isWord y = true) ∧ (tail ++ (" \x7b".toList ++ rest)).head?.any isWord = false ∧
      Iterates (do spaced "::"; word) (" \x7b".toList ++ rest) (w.reverse ++ [x]) tail := by
    cases links with
    | nil =>
      obtain ⟨x, w, rfl⟩ := exists_cons_of_ne_nil hnames.last.ne_nil
      exact ⟨x, w, [],
        by simp [pathText], fun y hy => hnames.last.word y (mem_cons_of_mem x hy), rfl,
        .stop (hstop _)⟩
    | cons n links =>
      have hn := hnames.front n mem_cons_self
      obtain ⟨x, w, rfl⟩ := exists_cons_of_ne_nil hn.ne_nil
      refine ⟨x, w, "::".toList ++ pathText links name, ?_,
        fun y hy => hn.word y (mem_cons_of_mem x hy), rfl, ?_⟩
      · rw [pathText_cons, append_assoc, cons_append]
      · exact iterates_pathText ⟨fun m hm => hnames.front m (mem_cons_of_mem _ hm),
          hnames.last⟩ rfl hstop _
  rw [hsplit] at hfirst ⊢
  have hx : (isLatinLetter x || x == '_') = true := hfirst
  have hblank : isBlank x = false := by
    rcases Bool.or_eq_true_iff.1 hx with hx | hx
    · exact isBlank_of_isWord (isWord_of_isLatinLetter hx)
    · rw [beq_iff_eq.1 hx]
      decide
  refine Prefers.bind (u := []) (prefers_many (by simp) (by simpa using hblank)) ?_
  refine Prefers.bind
    (Prefers.capture (e := ()) ((prefers_one hx).bind ((prefers_many hw htail).bind ?_))) ?_
  · simpa using hiterates.prefers
  · exact Prefers.bind (u := [' ']) (prefers_many (by decide) (by simp; decide))
      ((prefers_lit _ _ _).bind_nil (prefers_pure _))

/-! ## Fields -/

/-- How a field is written: with its value after a colon, or as its name alone. -/
inductive Spells : Text × Text → Text → Prop
  | full (name value : Text) : Spells (name, value) (name ++ ": ".toList ++ value)
  | short (name : Text) : Spells (name, name) name

theorem Spells.whole {f : Text × Text} (h : Spells f t) (hname : IsName f.1)
    (hvalue : SelfContained f.2) : Whole t := by
  cases h with
  | full name value =>
    have hopening : Opening (name ++ ": ".toList) :=
      (by decide : Opening ": ".toList).prepend fun x hx => isPlain_of_isWord (hname.word x hx)
    refine hvalue.whole.prepend hopening (isName_head?_blank hname _) ?_ fun hcomma => ?_
    · refine .of_brackets_eq_nil ?_
      rw [brackets_append, brackets_of_word hname.word]
      rfl
    · rcases mem_append.1 hcomma with hcomma | hcomma
      · exact absurd (hname.word _ hcomma) (by decide)
      · exact absurd hcomma (by decide)
  | short name => exact hvalue.whole

theorem Spells.field?_eq {f : Text × Text} (h : Spells f t) (hname : IsName f.1)
    (hvalue : SelfContained f.2) :
    field? t = some f := by
  cases h with
  | full name value =>
    have hwhole := hvalue.whole
    have hread : Prefers (do
        let name ← capture word
        blanks
        lit ":"
        notAhead (lit ":")
        blanks
        let value ← capture (many fun _ => true)
        pure (name, Text.trim value)) [] (name, value) (name ++ (": ".toList ++ value)) [] := by
      refine (prefers_word hname rfl).bind (Prefers.bind (u := []) (prefers_many (by simp) rfl) ?_)
      refine Prefers.bind (u := ":".toList) (prefers_lit _ _ _)
        (Prefers.bind (u := []) (prefers_notAhead rfl) ?_)
      refine Prefers.bind (u := " ".toList) (prefers_many (by decide) (by simpa using hwhole.head))
        ?_
      refine Prefers.bind_nil (prefers_many (by simp) rfl).capture ?_
      rw [hwhole.trim_eq]
      rfl
    rw [Prefers, append_nil] at hread
    rw [append_assoc, field?, readStart?, Cursor.start, hread]
  | short =>
    have hname : IsName t := hname
    have hcolon : ':' ∉ t := fun hmem => absurd (hname.word _ hmem) (by decide)
    have hnone {f : Text → Pattern (Text × Text)} : (do
        let name ← capture word
        blanks
        lit ":"
        f name) (.start t) = [] := by
      rw [bind_apply, flatMap_eq_nil_iff]
      intro r _
      rw [map_eq_nil_iff, bind_apply, flatMap_eq_nil_iff]
      intro s _
      rw [map_eq_nil_iff, bind_apply, lit, if_neg]
      · rfl
      · intro hpre
        rw [Cursor.start, Cursor.advance_eq, Cursor.advance_eq] at hpre
        have hstart := List.isPrefixOf_iff_prefix.1 hpre
        have hmem : ':' ∈ (t.drop r.2).drop s.2 := hstart.subset (by decide : ':' ∈ ":".toList)
        exact hcolon (mem_of_mem_drop (mem_of_mem_drop hmem))
    rw [field?, readStart?, firstAt, hnone]
    exact if_pos (Option.isSome_iff_ne_none.2 fun hnil => by simpa [hnil] using readAll?_word hname)

theorem mapM_field? {fields : List (Text × Text)} {pieces : List Text}
    (hpieces : List.Forall₂ Spells fields pieces)
    (hfields : ∀ f ∈ fields, IsName f.1 ∧ SelfContained f.2) :
    pieces.mapM field? = some fields ∧ ∀ e ∈ pieces, Whole e := by
  induction hpieces with
  | nil => exact ⟨rfl, by simp⟩
  | @cons f piece fields pieces hpiece hpieces ih =>
    obtain ⟨⟨hname, hvalue⟩, hrest⟩ := forall_mem_cons.1 hfields
    obtain ⟨hread, hwhole⟩ := ih hrest
    refine ⟨?_, forall_mem_cons.2 ⟨hpiece.whole hname hvalue, hwhole⟩⟩
    rw [mapM_cons, hpiece.field?_eq hname hvalue, hread]
    rfl

theorem IsLiteralPath.mem (h : IsLiteralPath path) (hx : x ∈ path) : isWord x = true ∨ x = ':' := by
  obtain ⟨links, name, hnames, rfl⟩ := h.names
  exact hnames.mem hx

/-- **A struct literal is read as it was written.** -/
theorem parse?_eq {fields : Table Text} {pieces : List Text} (hpath : IsLiteralPath path)
    (hnodup : (fields.map Prod.fst).Nodup) (hfields : ∀ f ∈ fields, IsName f.1 ∧ SelfContained f.2)
    (hpieces : List.Forall₂ Spells fields pieces) (hv : ListEnd v) (hne : v ≠ [])
    (hnil : pieces = [] → ∀ x ∈ v, isBlank x = true) :
    parse? (path ++ " \x7b ".toList ++ (Text.join ", " pieces ++ (v ++ ['\x7d']))) =
    some ⟨path, fields⟩ := by
  obtain ⟨hread, hwhole⟩ := mapM_field? hpieces hfields
  have hopening : Opening (path ++ " ".toList ++ ['\x7b']) := by
    rw [append_assoc]
    refine (by decide : Opening (" ".toList ++ ['\x7b'])).prepend fun x hx => ?_
    rcases hpath.mem hx with hx | rfl
    · exact isPlain_of_isWord hx
    · rfl
  have hsolid : Text.withoutBlanks path = path := by
    refine filter_eq_self.2 fun x hx => ?_
    rcases hpath.mem hx with hx | rfl
    · simp [isBlank_of_isWord hx]
    · rfl
  have hargs := arguments_join (g := " ".toList) hwhole (by decide) hv hnil
  have hfits := (fits_argumentList hwhole).after (u := " ".toList) (by decide) (by decide)
  have hend : Ending (v ++ ['\x7d']) := hv.ending_append hne (by decide) (by simp)
  have hclose := matchingClose_of_fits hopening (by decide) hfits hv.brackets_eq_nil hend
    (by decide)
  obtain ⟨inner, hinner⟩ : ∃ inner, inner = " ".toList ++ (Text.join ", " pieces ++ v) := ⟨_, rfl⟩
  have htext : path ++ " \x7b ".toList ++ (Text.join ", " pieces ++ (v ++ ['\x7d'])) =
      path ++ " \x7b".toList ++ (inner ++ ['\x7d']) := by simp [hinner]
  have hclose : matchingClose (path ++ " \x7b".toList ++ (inner ++ ['\x7d'])) (path.length + 1) =
      some (path.length + 2 + inner.length) := by
    simpa [hinner] using hclose
  have hhead : head.readStart? (path ++ " \x7b".toList ++ (inner ++ ['\x7d'])) =
      some (path, path.length + 2) := by
    rw [readStart?, Cursor.start, prefers_head hpath (inner ++ ['\x7d']), length_append]
    rfl
  have hrest : (path ++ " \x7b".toList ++ (inner ++ ['\x7d'])).drop
      (path.length + 2 + inner.length + 1) = [] :=
    drop_eq_nil_of_le (by simp; omega)
  have hslice : Text.slice (path ++ " \x7b".toList ++ (inner ++ ['\x7d'])) (path.length + 2)
      (path.length + 2 + inner.length) = inner := by
    rw [Text.slice]
    exact drop_take_middle (path ++ " \x7b".toList) inner _ (by simp) (by simp)
  rw [← hinner] at hargs
  rw [htext, parse?, hhead]
  simp only [Option.bind_eq_bind, Option.bind_some]
  rw [show path.length + 2 - 1 = path.length + 1 from rfl, hclose, Option.bind_some, hrest, hslice,
    hargs, hread]
  simp [hsolid, Table.ofEntries_eq_self hnodup, show Text.trim [] = [] from rfl]

/-- **Splitting undoes joining.** Self-contained expressions with commas between them are parted
into these expressions. A struct literal that is written with a path and with such expressions as
the values of fields of different names, each field in full or by its name alone, and with or
without a comma at its end, is read as that path and those fields. -/
theorem arguments_and_literals_read_back :
    (∀ es : List Text, (∀ e ∈ es, SelfContained e) → arguments (Text.join ", " es) = es) ∧
    ∀ (path : Text) (fields : Table Text) (pieces : List Text) (comma : Text), IsLiteralPath path →
      (fields.map Prod.fst).Nodup → (∀ f ∈ fields, IsName f.1 ∧ SelfContained f.2) →
      List.Forall₂ Spells fields pieces →
      (comma = [] ∨ comma = [','] ∧ pieces ≠ []) →
      parse? (path ++ " \x7b ".toList ++ Text.join ", " pieces ++ comma ++ " \x7d".toList) =
      some ⟨path, fields⟩ := by
  refine ⟨fun es hes => arguments_of_whole fun e he => (hes e he).whole,
    fun path fields pieces comma hpath hnodup hfields hpieces hcomma => ?_⟩
  have hspace : ∀ x ∈ [' '], isBlank x = true := by decide
  rcases hcomma with rfl | ⟨rfl, hne⟩
  · simpa using parse?_eq hpath hnodup hfields hpieces (.blanks hspace) (by simp) fun _ => hspace
  · simpa using parse?_eq hpath hnodup hfields hpieces (.comma hspace) (by simp) fun hnil =>
      absurd hnil hne

/-- Values with a comma in brackets and in a literal, a lifetime, and colons after the first one;
one field is short. -/
theorem arguments_and_literals_read_back_nested :
    arguments (Text.join ", " ["f(a, b)".toList, "',' as u8".toList, "&'a [b\"],\"]".toList]) =
      ["f(a, b)".toList, "',' as u8".toList, "&'a [b\"],\"]".toList] ∧
    parse? ("token::Mint".toList ++ " \x7b ".toList ++ Text.join ", " ["from: x.get(y, 1)".toList,
      "to".toList,
        "mint: ::f(\"a: b, c\")".toList] ++ [','] ++ " \x7d".toList) =
      some ⟨"token::Mint".toList,
        [("from".toList, "x.get(y, 1)".toList), ("to".toList, "to".toList),
        ("mint".toList, "::f(\"a: b, c\")".toList)]⟩ := by
  have hpath : IsLiteralPath "token::Mint".toList :=
    ⟨rfl, ["token".toList], "Mint".toList, ⟨by decide, by decide⟩, rfl⟩
  refine ⟨arguments_and_literals_read_back.1 _ (by decide +kernel),
    arguments_and_literals_read_back.2 _ _ _ _ hpath
    (by decide) (by decide +kernel) ?_ (.inr ⟨rfl, by simp⟩)⟩
  exact .cons (.full "from".toList _) (.cons (.short _) (.cons (.full "mint".toList _) .nil))

end Source.StructLiteral

end AnchorLowering
