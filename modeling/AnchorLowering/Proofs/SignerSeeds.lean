import AnchorLowering.Proofs.ArgumentList
import AnchorLowering.Proofs.SegmentStability
import Mathlib.Data.List.Permutation

/-!
# Signer seeds that are written out

The seeds of a signer stand between two pairs of brackets. They are read by a pattern that takes as
much as it can, so the list ends before the last two brackets of the expression.

Main result: `resolveSeeds_written`.
-/

namespace AnchorLowering.Source

open List Pattern Lowering

variable {ms ns : Marked} {c e g s t u v : Text} {es : List Text} {x : Char}

/-! ## Collapsing blanks by recursion -/

/-- A blank in code. -/
def isSpace (m : Char × Bool) : Bool := m.2 && isBlank m.1

/-- The characters, with every run of blanks in code written as one space. -/
def squeezed : Marked → Text
  | [] => []
  | m :: ms =>
    if isSpace m then (if ms.head?.any isSpace then squeezed ms else ' ' ::
      squeezed ms) else m.1 :: squeezed ms

theorem squeezed_append (h : ms.getLast?.any isSpace = false ∨ ns.head?.any isSpace = false) :
    squeezed (ms ++ ns) = squeezed ms ++ squeezed ns := by
  induction ms with
  | nil => rfl
  | cons m ms ih =>
    cases ms with
    | nil =>
      rw [singleton_append, squeezed, squeezed]
      cases hm : isSpace m with
      | false => rfl
      | true =>
        rw [h.resolve_left (by simp [hm])]
        rfl
    | cons m' ms =>
      have hrest := ih (by simpa using h)
      rw [cons_append, squeezed, squeezed, hrest]
      cases isSpace m <;> cases hm' : isSpace m' <;> simp [hm']

theorem squeezed_sealed (t : Text) : squeezed (t.map fun x => (x, false)) = t := by
  induction t with
  | nil => rfl
  | cons x t ih => exact congrArg (x :: ·) ih

theorem squeezed_blanks (hne : g ≠ []) (hg : ∀ x ∈ g, isBlank x = true) :
    squeezed (asCode g) = [' '] := by
  induction g with
  | nil => exact absurd rfl hne
  | cons x g ih =>
    obtain ⟨hx, hg⟩ := forall_mem_cons.1 hg
    cases g with
    | nil => simp [squeezed, isSpace, hx]
    | cons y g =>
      have hy : isSpace (y, true) = true := hg y mem_cons_self
      rw [asCode, map_cons, squeezed, if_pos (show isSpace (x, true) = true from hx), map_cons,
        head?_cons, Option.any_some, hy, if_pos rfl]
      exact ih (cons_ne_nil y g) hg

theorem squeezed_asCode (before t : Text) :
    squeezed (asCode t) = replacedFrom oneBlank before t := by
  induction hn : t.length using Nat.strong_induction_on generalizing before t with
  | _ n ih =>
    cases t with
    | nil => rfl
    | cons x t =>
      cases hx : isBlank x with
      | false =>
        rw [replacedFrom_of_not_some, ← ih t.length (by simp [← hn]) (x :: before) t rfl, asCode,
          map_cons, squeezed, if_neg (by simp [isSpace, hx])]
        intro v n hv
        rw [firstAt, oneBlank, bind_apply, blanks1, many1, bind_apply, one] at hv
        simp [hx] at hv
      | true =>
        -- the whole run is taken, and a letter or nothing follows it
        obtain ⟨g, rest, hsplit, hne, hg, hrest⟩ : ∃ g rest, x :: t = g ++ rest ∧ g ≠ [] ∧
            (∀ x ∈ g, isBlank x = true) ∧
            rest.head?.any isBlank = false := by
          refine ⟨(x :: t).takeWhile isBlank, (x :: t).dropWhile isBlank,
            takeWhile_append_dropWhile.symm, by simp [hx], fun y hy => mem_takeWhile_imp hy, ?_⟩
          have := head?_dropWhile_not isBlank (x :: t)
          cases h : ((x :: t).dropWhile isBlank).head? <;> simp_all
        have hone : Prefers oneBlank before " ".toList g rest :=
          (prefers_many1 hne hg hrest).bind_nil (prefers_pure _)
        rw [hsplit, replacedFrom_of_firstAt hne hone, asCode, map_append, squeezed_append,
          squeezed_blanks hne hg, ← ih rest.length ?_ _ rest rfl]
        · rfl
        · have := congrArg List.length hsplit
          have := length_pos_of_ne_nil hne
          simp only [length_append] at *
          omega
        · right
          cases rest with
          | nil => rfl
          | cons y rest => simpa [isSpace] using hrest

/-- **Blanks in code are collapsed as by recursion.** -/
theorem replaceInCode_oneBlank (t : Text) : replaceInCode oneBlank t = squeezed (marked t) := by
  have hchain := isChain_segments t
  have hne : ∀ s ∈ segments t, s.text ≠ [] := fun s hs => segment_text_ne_nil hs
  rw [replaceInCode, mapCode, marked_eq_segments]
  generalize segments t = ss at hchain hne
  induction ss with
  | nil => rfl
  | cons s ss ih =>
    obtain ⟨hnext, hrest⟩ := isChain_cons.1 hchain
    have hs : squeezed s.marks = if s.isCode then oneBlank.replaceAll s.text else s.text := by
      obtain ⟨isCode, t⟩ := s
      cases isCode with
      | false => exact squeezed_sealed t
      | true => exact squeezed_asCode [] t
    rw [flatMap_cons, flatMap_cons, squeezed_append, hs, ih hrest fun s hs =>
      hne s (mem_cons_of_mem _ hs)]
    obtain ⟨isCode, t⟩ := s
    cases isCode with
    | false =>
      left
      rw [Segment.marks, getLast?_map, Option.any_map]
      cases t.getLast? <;> rfl
    | true =>
      right
      cases ss with
      | nil => rfl
      | cons s' ss =>
        obtain ⟨x, r, hx⟩ := exists_cons_of_ne_nil (hne s' (by simp))
        rw [flatMap_cons, Segment.marks, hx, hnext s' rfl rfl]
        rfl

theorem trim_squeezed (hhead : (ms.map (·.1)).head?.any isBlank = false)
    (hlast : (ms.map (·.1)).getLast?.any isBlank = false) :
    Text.trim (squeezed ms) = squeezed ms := by
  have hletter {m : Char × Bool} (hm : isBlank m.1 = false) : isSpace m = false := by
    rw [isSpace, hm, Bool.and_false]
  have hnil : ∀ x ∈ ([] : Text), isBlank x = true := by simp
  refine Eq.trans (by simp) (trim_append hnil hnil (fun x hx => ?_) fun x hx => ?_)
  · cases ms with
    | nil => cases hx
    | cons m ms =>
      rw [squeezed, hletter (by simpa using hhead)] at hx
      obtain rfl := Option.some.inj hx
      simpa using hhead
  · obtain rfl | ⟨ms, m, rfl⟩ := eq_nil_or_concat' ms
    · cases hx
    · have hm : isBlank m.1 = false := by simpa using hlast
      rw [squeezed_append (.inr (by simp [hletter hm])), squeezed, hletter hm] at hx
      obtain rfl : m.1 = x := by simpa [squeezed] using hx
      exact hm

/-- Where a text has no blanks at its ends, nothing is trimmed. -/
theorem collapseBlanks_eq_squeezed (hhead : t.head?.any isBlank = false)
    (hlast : t.getLast?.any isBlank = false) :
    collapseBlanks t = squeezed (marked t) := by
  change Text.trim (replaceInCode oneBlank t) = squeezed (marked t)
  rw [replaceInCode_oneBlank]
  exact trim_squeezed (by rwa [map_fst_marked]) (by rwa [map_fst_marked])

theorem head?_marked (h : t.head?.any isBlank = false) : (marked t).head?.any isSpace = false := by
  rw [← map_fst_marked t, head?_map, Option.any_map] at h
  cases hm : (marked t).head? with
  | none => rfl
  | some m =>
    rw [hm] at h
    rw [Option.any_some, isSpace, show isBlank m.1 = false from h, Bool.and_false]

theorem SelfContained.squeezed_eq (h : SelfContained s) (hcollapsed : collapseBlanks s = s) :
    squeezed (marked s) = s := by
  rw [← collapseBlanks_eq_squeezed h.whole.head h.whole.last, hcollapsed]

/-- Self-contained expressions whose blanks are collapsed, in a list. -/
theorem squeezed_join (h : ∀ e' ∈ es ++ [e], SelfContained e' ∧ collapseBlanks e' = e') :
    squeezed (marked (Text.join ", " (es ++ [e]))) = Text.join ", " (es ++ [e]) ∧
      (Text.join ", " (es ++ [e])).head?.any isBlank = false := by
  induction es with
  | nil =>
    have he := h e mem_cons_self
    rw [nil_append, Text.join, intercalate_singleton]
    exact ⟨he.1.squeezed_eq he.2, he.1.whole.head⟩
  | cons e' es ih =>
    have he := h e' mem_cons_self
    have hrest : ∀ e' ∈ es ++ [e], SelfContained e' ∧ collapseBlanks e' = e' :=
      fun e' he' => h e' (mem_cons_of_mem _ he')
    obtain ⟨hsqueezed, hhead⟩ := ih hrest
    obtain ⟨b, hb, -⟩ := fits_argumentList fun e' he' => (hrest e' he').1.whole
    obtain rfl := hb.marked_eq
    have hjoint : Joint ", ".toList := joint_cons (by decide) (by decide) (by decide) (by decide)
    have hmarked := (he.1.closed.woven.link hb hjoint.toOpening hjoint.afresh_append).marked_eq
    rw [cons_append, join_cons_append, hmarked, squeezed_append (.inr rfl),
      squeezed_append (.inr (head?_marked hhead)), hsqueezed, he.1.squeezed_eq he.2]
    exact ⟨rfl, by rw [head?_append_of_ne_nil _ he.1.ne_nil]; exact he.1.whole.head⟩

end AnchorLowering.Source

namespace AnchorLowering.Lowering

open List Pattern Source

variable {seeds : List Text} {body last t v : Text}

/-- The end of seeds that are written out. -/
def closeSeeds (seeds : Text) : Pattern Text := do
  lit "]"
  blanks
  fullSlice
  blanks
  lit "]"
  pure seeds

theorem lit_cons (x : Char) (before rest : Text) : lit [x] ⟨before, x :: rest⟩ = [((), 1)] := by
  simp [lit]

theorem blanks_cons {x : Char} (hx : isBlank x = false) (before rest : Text) :
    blanks ⟨before, x :: rest⟩ = [((), 0)] := by
  simp [blanks, many, spanLengths, hx]

theorem closeSeeds_eq (before seeds : Text) :
    closeSeeds seeds ⟨before, "]]".toList⟩ = [(seeds, 2)] ∧
    closeSeeds seeds ⟨before, "]".toList⟩ = [] ∧ closeSeeds seeds ⟨before, []⟩ = [] := by
  refine ⟨?_, ?_, rfl⟩ <;> cbv

/-- What is written out between the brackets, up to the last two. -/
theorem readAll?_writtenSeeds (t : Text) :
    writtenSeeds.readAll? ("&[&[".toList ++ (t ++ "]]".toList)) = some t := by
  have htokens (r : Text) : tokens ["&", "[", "&", "["] ⟨[], "&[&[".toList ++ r⟩ = [((), 4)] := by
    simp [tokens, lit_cons, @blanks_cons '&' (by decide), @blanks_cons '[' (by decide),
      Cursor.advance_eq]
  have hmany (before : Text) : many (fun _ => true) ⟨before, t ++ "]]".toList⟩ =
      ((), t.length + 2) :: ((), t.length + 1) :: ((), t.length) :: (range t.length).reverse.map
        fun n => ((), n) := by
    rw [many, spanLengths, takeWhile_eq_self_iff.2 fun _ _ => rfl, length_append, range_succ]
    simp [range_succ]
  have hseeds : writtenSeeds = (tokens ["&", "[", "&", "["] >>= fun _ =>
      capture (many fun _ => true) >>= closeSeeds) := rfl
  have hdrop (n : Nat) (r : Text) : (t ++ r).drop (t.length + n) = r.drop n :=
    drop_length_add_append n
  rw [readAll?, hseeds, bind_apply, Cursor.start, htokens, flatMap_singleton, bind_apply,
    Cursor.advance_eq, drop_left' (by rfl), capture, hmany]
  simp only [map_cons, flatMap_cons, Cursor.advance_eq, hdrop]
  rw [show "]]".toList.drop 2 = [] from rfl, show "]]".toList.drop 1 = "]".toList from rfl,
    drop_left, (closeSeeds_eq _ _).2.2, (closeSeeds_eq _ _).2.1, (closeSeeds_eq _ _).1]
  have hlen : 4 + (t.length + 2) = t.length + 2 + 1 + 1 + 1 + 1 := by omega
  simp [hlen]

/-- Seeds that are written out, once their blanks are collapsed. -/
theorem resolveSeeds_eq (body : Text) (h : collapseBlanks ("&[&[".toList ++ (t ++ "]]".toList)) =
    "&[&[".toList ++ (t ++ "]]".toList)) :
    resolveSeeds body ("&[&[".toList ++ (t ++ "]]".toList)) =
      (some (((arguments t).map collapseBlanks).filter (!·.isEmpty)), []) := by
  rw [resolveSeeds, seedDepth, lookupSeeds, h, readAll?_writtenSeeds]

theorem collapseBlanks_written (h : ∀ s ∈ seeds ++ [last], SelfContained s ∧ collapseBlanks s = s)
    (hv : Ending v) (hend : v.getLast? = some ']') (hhead : v.head?.any isBlank = false)
    (hsqueezed : squeezed (asCode v) = v) :
    collapseBlanks ("&[&[".toList ++ (Text.join ", " (seeds ++ [last]) ++ v)) =
      "&[&[".toList ++ (Text.join ", " (seeds ++ [last]) ++ v) := by
  obtain ⟨hjoin, -⟩ := squeezed_join h
  obtain ⟨a, ha, -⟩ := fits_argumentList fun s hs => (h s hs).1.whole
  obtain rfl := ha.marked_eq
  have hspace : (asCode v).head?.any isSpace = false := by
    cases v with
    | nil => rfl
    | cons x v => simpa [isSpace] using hhead
  rw [collapseBlanks_eq_squeezed rfl, ha.marked_between (fun _ => by decide) fun _ => hv,
    squeezed_append (.inl rfl), squeezed_append (.inr hspace), hjoin, hsqueezed]
  · rfl
  · rw [getLast?_append, getLast?_append, hend]
    rfl

/-- **Seeds that are written out.** Self-contained seeds whose blanks are collapsed are read as they
are. If the inner list is sliced, its closing bracket and the slice up to its last bracket are read
as part of the last seed. -/
theorem resolveSeeds_written (body : Text) (seeds : List Text) (last : Text)
    (h : ∀ s ∈ seeds ++ [last], SelfContained s ∧ collapseBlanks s = s) :
    resolveSeeds body ("&[&[".toList ++ (Text.join ", " (seeds ++ [last]) ++ "]]".toList)) =
    (some (seeds ++ [last]), []) ∧
    resolveSeeds body ("&[&[".toList ++ (Text.join ", " (seeds ++ [last]) ++ "][..]]".toList)) =
      (some (seeds ++ [last ++ "][..".toList]), []) := by
  have hwhole (s : Text) (hs : s ∈ seeds ++ [last]) : Whole s := (h s hs).1.whole
  have hlast := h last (by simp)
  have hnil : ∀ x ∈ ([] : Text), isBlank x = true := by simp
  have hslice : Ending "][..".toList := ending_cons (by decide) (by decide) (by decide)
  have hsolid {es : List Text} (hes : ∀ s ∈ es, s ≠ [] ∧ collapseBlanks s = s) :
      (es.map collapseBlanks).filter (!·.isEmpty) = es := by
    rw [map_congr_left (g := id) fun s hs => (hes s hs).2, map_id]
    exact filter_eq_self.2 fun s hs => by simp [(hes s hs).1]
  constructor
  · rw [resolveSeeds_eq, arguments_of_whole hwhole, hsolid fun s hs =>
      ⟨(h s hs).1.ne_nil, (h s hs).2⟩]
    exact collapseBlanks_written h (ending_cons (by decide) (by decide) (by decide)) rfl rfl rfl
  · have hhead : (last ++ "][..".toList).head?.any isBlank = false := by
      rw [head?_append_of_ne_nil _ hlast.1.ne_nil, hlast.1.whole.head]
    have hend : (last ++ "][..".toList).getLast?.any isBlank = false := by
      rw [getLast?_append]
      rfl
    have hsqueezed : squeezed (marked (last ++ "][..".toList)) = last ++ "][..".toList := by
      rw [(hlast.1.closed.woven.append (firm_plain hslice.plain) hslice.afresh).marked_eq,
        squeezed_append (.inr rfl), hlast.1.squeezed_eq hlast.2]
      rfl
    have htrim : Text.trim (last ++ "][..".toList) = last ++ "][..".toList := by
      rw [← hsqueezed]
      exact trim_squeezed (by rwa [map_fst_marked]) (by rwa [map_fst_marked])
    have hargs : arguments (Text.join ", " (seeds ++ [last]) ++ "][..".toList) =
        seeds ++ [last ++ "][..".toList] := by
      have hparts : partsAtDepth ',' 0 (asCode "][..".toList) = ["][..".toList] := rfl
      refine (arguments_join_append hwhole hnil (fun _ => hslice) hparts).trans ?_
      rw [htrim, map_nil]
      exact dropEmptyLast_eq_self
        (by simpa [or_imp, forall_and] using fun s hs => (h s (by simp [hs])).1.ne_nil)
    have hcollapsed : collapseBlanks (last ++ "][..".toList) = last ++ "][..".toList := by
      rw [collapseBlanks_eq_squeezed hhead hend, hsqueezed]
    have htext : Text.join ", " (seeds ++ [last]) ++ "][..]]".toList =
      Text.join ", " (seeds ++ [last]) ++ "][..".toList ++ "]]".toList := by simp
    have hwritten := collapseBlanks_written h (v := "][..]]".toList)
      (ending_cons (by decide) (by decide) (by decide)) rfl rfl rfl
    rw [htext] at hwritten ⊢
    rw [resolveSeeds_eq body hwritten, hargs, hsolid]
    intro s hs
    rcases mem_append.1 hs with hs | hs
    · exact ⟨(h s (by simp [hs])).1.ne_nil, (h s (by simp [hs])).2⟩
    · obtain rfl := mem_singleton.1 hs
      exact ⟨by simp, hcollapsed⟩

theorem resolveSeeds_written_bump :
    resolveSeeds [] "&[&[b\"vault, \", x[..4].as_ref(), &[bump]]]".toList =
        (some ["b\"vault, \"".toList, "x[..4].as_ref()".toList, "&[bump]".toList], []) ∧
      resolveSeeds [] "&[&[b\"vault, \", x[..4].as_ref(), &[bump]][..]]".toList =
        (some ["b\"vault, \"".toList, "x[..4].as_ref()".toList, "&[bump]][..".toList], []) :=
  resolveSeeds_written [] ["b\"vault, \"".toList, "x[..4].as_ref()".toList] "&[bump]".toList
    (by decide +kernel)

theorem resolveSeeds_sliced_differs :
    resolveSeeds [] "&[&[b\"vault\", &[bump]][..]]".toList ≠
    (some ["b\"vault\"".toList, "&[bump]".toList], []) := by
  decide +kernel

end AnchorLowering.Lowering
