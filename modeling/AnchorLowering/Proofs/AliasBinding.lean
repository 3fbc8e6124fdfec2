import AnchorLowering.Proofs.SequenceCall

/-!
# Bindings of accounts do not overlap

A search that is in the middle of a match does not look for another one. For bindings of locals to
accounts this loses nothing: no binding starts inside another one (`aliasBinding_inside`), so a
binding that is read from inside a comment hides no binding in code (`hidesNothing_aliasBinding`).
-/

namespace AnchorLowering

open List Pattern Source Lowering

variable {r : (Text × Text) × Nat} {x : Char} {allowed : Char → Prop} {c : Cursor} {b t : Text}
  {α : Type}

/-! ## Words -/

section Words

variable {keep : Char → Bool}

theorem runsOf_cons_ne_nil {c : Char} (hc : keep c = true) (t : Text) :
    Text.runsOf keep (c :: t) ≠ [] := by
  unfold Text.runsOf
  rw [if_pos hc]
  split
  · split <;> exact cons_ne_nil _ _
  · exact cons_ne_nil _ _

/-- A character that is kept joins the run that starts right after it. -/
theorem runsOf_cons {c : Char} (hc : keep c = true) (t : Text) : Text.runsOf keep (c :: t) =
      if t.head?.any keep then (Text.runsOf keep t).modifyHead (c :: ·)
      else [c] :: Text.runsOf keep t := by
  rw [Text.runsOf.eq_def]
  simp only [hc, if_true]
  cases t with
  | nil => rfl
  | cons d t =>
    cases hruns : Text.runsOf keep (d :: t) with
    | nil =>
      have hd : keep d = false := by
        by_contra h
        exact runsOf_cons_ne_nil (by simpa using h) t hruns
      simp [hd]
    | cons run runs => simp

/-- A character that is not kept parts the runs. -/
theorem runsOf_append_cons (t u : Text) {b : Char} (hb : keep b = false) :
    Text.runsOf keep (t ++ b :: u) = Text.runsOf keep t ++ Text.runsOf keep u := by
  induction t with
  | nil => simp [Text.runsOf, hb]
  | cons c t ih =>
    rw [cons_append]
    cases hc : keep c with
    | false => simpa [Text.runsOf, hc] using ih
    | true =>
      have hhead : (t ++ b :: u).head?.any keep = t.head?.any keep := by cases t <;> simp [hb]
      rw [runsOf_cons hc, runsOf_cons hc, ih, hhead]
      split
      · rename_i hword
        obtain ⟨d, t, rfl⟩ : ∃ d t', t = d :: t' :=
          exists_cons_of_ne_nil (by rintro rfl; simp at hword)
        have hd : keep d = true := by simpa using hword
        obtain ⟨run, runs, hruns⟩ := exists_cons_of_ne_nil (runsOf_cons_ne_nil hd t)
        rw [hruns]
        rfl
      · rfl

theorem runsOf_eq_singleton (h : ∀ x ∈ t, keep x = true) (hne : t ≠ []) :
    Text.runsOf keep t = [t] := by
  induction t with
  | nil => exact absurd rfl hne
  | cons c t ih =>
    rw [runsOf_cons (h c mem_cons_self)]
    cases t with
    | nil => rfl
    | cons d t =>
      rw [if_pos (by simp [h d]), ih (fun x hx => h x (mem_cons_of_mem _ hx)) (cons_ne_nil _ _)]
      rfl

end Words

theorem words_append_cons (t u : Text) {b : Char} (hb : isBlank b = true) :
    Text.words (t ++ b :: u) = t.words ++ u.words :=
  runsOf_append_cons t u (by simp [hb])

theorem words_blanks_append (hb : Blank b) (t : Text) : Text.words (b ++ t) = t.words := by
  induction b with
  | nil => rfl
  | cons x b ih =>
    rw [cons_append, ← nil_append (x :: (b ++ t)),
      words_append_cons _ _ (hb x mem_cons_self), ih fun y hy => hb y (mem_cons_of_mem _ hy)]
    rfl

theorem words_append_blanks (t : Text) (hb : Blank b) : Text.words (t ++ b) = t.words := by
  cases b with
  | nil => rw [append_nil]
  | cons x b =>
    have hnil := words_blanks_append (fun y hy => hb y (mem_cons_of_mem _ hy)) []
    rw [append_nil] at hnil
    rw [words_append_cons _ _ (hb x mem_cons_self), hnil]
    exact append_nil _

/-! ## Bindings that do not overlap -/

/-- Every way of the pattern takes allowed characters and then the last text. -/
def Pattern.TakesThen {α : Type} (allowed : Char → Prop) (last : Text) (p : Pattern α) : Prop :=
  ∀ c, ∀ r ∈ p c, ∃ u rest, (∀ x ∈ u, allowed x) ∧ c.after = u ++ (last ++ rest) ∧
    r.2 = u.length + last.length

theorem Pattern.TakesThen.lit_pure (t : Text) (a : α) : TakesThen allowed t (do lit t; pure a) := by
  intro c r hr
  obtain ⟨s, hs, s', hs', rfl⟩ := mem_bind.1 hr
  obtain ⟨⟨rest, hafter⟩, hlen⟩ := mem_lit.1 hs
  obtain rfl := mem_singleton.1 hs'
  exact ⟨[], rest, by simp, hafter.symm, by simp [hlen]⟩

theorem Pattern.TakesThen.bind {β : Type} {last : Text} {p : Pattern α} {f : α → Pattern β}
    (hp : Takes allowed p) (hf : ∀ a, TakesThen allowed last (f a)) :
    TakesThen allowed last (p >>= f) := by
  intro c r hr
  obtain ⟨⟨a, n⟩, ha, s, hs, rfl⟩ := mem_bind.1 hr
  obtain ⟨hn, hchars⟩ := hp c _ ha
  obtain ⟨u, rest, hu, hafter, hlen⟩ := hf a _ s hs
  rw [Cursor.after_advance] at hafter
  refine ⟨c.after.take n ++ u, rest, fun x hx => ?_, ?_, ?_⟩
  · obtain hx | hx := mem_append.1 hx
    · exact hchars x hx
    · exact hu x hx
  · rw [append_assoc, ← hafter, take_append_drop]
  · rw [length_append, length_take, Nat.min_eq_left hn]
    show n + s.2 = _
    omega

/-- A word and the blanks after it start a text with that word. -/
theorem words_word_append {w : Text} (hw : ∀ x ∈ w, isWord x = true) (hne : w ≠ []) (hb : Blank b)
    (hbne : b ≠ []) (t : Text) :
    Text.words (w ++ (b ++ t)) = w :: t.words := by
  obtain ⟨x, b, rfl⟩ := exists_cons_of_ne_nil hbne
  have hword : w.words = [w] :=
    runsOf_eq_singleton (fun y hy => by rw [isBlank_of_isWord (hw y hy)]; rfl) hne
  rw [cons_append, words_append_cons _ _ (hb x mem_cons_self), hword,
    words_blanks_append fun y hy => hb y (mem_cons_of_mem _ hy)]
  rfl

/-- What stands before the equals sign of a binding. -/
structure BindingHead (t : Text) : Prop where
  chars : ∀ x ∈ t, isWord x = true ∨ isBlank x = true
  start : t.head? = some 'l'
  words : ∃ name : Text, t.words = [("let" : Text), name] ∨
    t.words = [("let" : Text), ("mut" : Text), name]

theorem mem_letKeyword {r : Unit × Nat} (h : r ∈ letKeyword c) :
    c.before.head?.any isWord = false ∧ ∃ lead rest, c.after = lead ++ rest ∧ r.2 = lead.length ∧
      (∀ x ∈ lead, isWord x = true ∨ isBlank x = true) ∧ lead.head? = some 'l' ∧
      ∀ t, Text.words (lead ++ t) = ("let" : Text) :: t.words ∨
        Text.words (lead ++ t) = ("let" : Text) :: ("mut" : Text) :: t.words := by
  obtain ⟨⟨_, n⟩, hboundary, ⟨u, k⟩, hkey, rfl⟩ := mem_bind.1 h
  obtain rfl : n = 0 := (mem_wordBoundary.1 hboundary).2
  rw [Cursor.advance_zero] at hkey
  have hbounded : Bounded (do lit "let"; blanks1; let _ ← opt (do lit "mut"; blanks1)) :=
    Bounded.lit.bind fun _ => Bounded.many1.bind fun _ =>
      (Bounded.lit.bind fun _ => Bounded.many1).opt.bind fun _ => .pure ()
  obtain ⟨_, rest, hafter, rfl, hway⟩ := (mem_iff_way hbounded).1 hkey
  simp only [blanks1, way_bind, way_lit, way_many1, way_opt, way_pure] at hway
  obtain ⟨-, _, _, rfl, rfl, -, b, _, rfl, ⟨hbne, hb⟩, _, m, _, rfl, hm, -, rfl⟩ := hway
  have hlet : ∀ x ∈ ("let" : Text), isWord x = true := by decide
  have hmutw : ∀ x ∈ ("mut" : Text), isWord x = true := by decide
  rw [append_nil] at hafter ⊢
  refine ⟨no_name_before hboundary (by rw [hafter]; rfl), _, rest, hafter, by simp, ?_, rfl, ?_⟩
  · simp only [forall_mem_append]
    refine ⟨fun x hx => .inl (hlet x hx), fun x hx => .inr (hb x hx), ?_⟩
    obtain ⟨-, -, -, -, b', rfl, rfl, -, hb'⟩ | ⟨-, rfl⟩ := hm
    · exact forall_mem_append.2 ⟨fun x hx => .inl (hmutw x hx), fun x hx => .inr (hb' x hx)⟩
    · simp
  · intro t
    rw [append_assoc, append_assoc, words_word_append hlet (by decide) hb hbne]
    obtain ⟨-, -, -, -, b', rfl, rfl, hbne', hb'⟩ | ⟨-, rfl⟩ := hm
    · right
      rw [append_assoc, words_word_append hmutw (by decide) hb' hbne']
    · left
      rw [nil_append]

/-- A character of what a binding binds. -/
abbrev BoundChar (x : Char) : Prop := x ≠ '=' ∧ x ≠ ';'

theorem boundChar_of_isBlank (h : isBlank x = true) : BoundChar x := by
  constructor <;> rintro rfl <;> exact absurd h (by decide)

theorem boundChar_of_isWord (h : isWord x = true) : BoundChar x := by
  constructor <;> rintro rfl <;> exact absurd h (by decide)

theorem takesThen_bound (name : Text) : TakesThen BoundChar ";" (do
    let _ ← opt borrow
    let _ ← opt (do tokens ["ctx", ".", "accounts", "."]; blanks)
    let account ← capture word
    blanks
    lit ";"
    pure (name, account)) := by
  have hblanks : Takes BoundChar blanks := .many fun _ => boundChar_of_isBlank
  have hmut : Takes BoundChar (do lit "mut"; blanks1) :=
    (Takes.lit (by decide)).bind fun _ =>
      (Takes.one fun _ => boundChar_of_isBlank).bind fun _ => hblanks
  have hborrow : Takes BoundChar borrow :=
    (Takes.lit (by decide)).bind fun _ => hblanks.bind fun _ =>
      hmut.opt.bind fun _ => .pure _
  have hpath : Takes BoundChar (do tokens ["ctx", ".", "accounts", "."]; blanks) := by
    have htoken : ∀ t ∈ ["ctx", ".", "accounts", "."], Takes BoundChar (lit t.toList) := by
      intro t ht
      have hall : ∀ t ∈ ["ctx", ".", "accounts", "."], List.Forall BoundChar t.toList := by decide
      exact .lit (forall_iff_forall_mem.1 (hall t ht))
    refine Takes.bind ?_ fun _ => hblanks
    exact (htoken "ctx" (by decide)).bind fun _ => hblanks.bind fun _ =>
      (htoken "." (by decide)).bind fun _ => hblanks.bind fun _ =>
        (htoken "accounts" (by decide)).bind fun _ => hblanks.bind fun _ => htoken "." (by decide)
  exact .bind hborrow.opt fun _ => .bind hpath.opt fun _ =>
    .bind (takes_word.mono fun _ => boundChar_of_isWord).capture fun account => .bind hblanks
      fun _ => .lit_pure ";" _

/-- A binding is its head, an equals sign, and what is bound up to the first semicolon. -/
theorem mem_aliasBinding (h : r ∈ Context.aliasBinding c) :
    c.before.head?.any isWord = false ∧ ∃ head tail rest,
      c.after = head ++ '=' :: (tail ++ ';' :: rest) ∧
      r.2 = head.length + 1 + tail.length + 1 ∧ BindingHead head ∧ ∀ x ∈ tail, BoundChar x := by
  obtain ⟨⟨_, n⟩, hlet, s, hs, rfl⟩ := mem_bind.1 h
  obtain ⟨⟨name, k⟩, hname, s', hs', rfl⟩ := mem_bind.1 hs
  obtain ⟨⟨_, j⟩, heq, s'', hs'', rfl⟩ := mem_bind.1 hs'
  obtain ⟨hfresh, lead, after, hafter, rfl, hchars, hstart, hwords⟩ := mem_letKeyword hlet
  obtain ⟨_, after', hafter', rfl, hway⟩ := (mem_iff_way Bounded.many1.capture).1 hname
  obtain ⟨rfl, _, hmany⟩ := way_capture.1 hway
  obtain ⟨hne, hword⟩ := way_many1.1 hmany
  obtain ⟨_, after'', hafter'', rfl, hspaced⟩ := (mem_iff_way Bounded.spaced).1 heq
  obtain ⟨b, b', rfl, hb, hb'⟩ := way_spaced.1 hspaced
  obtain ⟨u, rest, hu, hbound, hlen⟩ := takesThen_bound name _ _ hs''
  simp only [Cursor.after_advance] at hafter' hafter'' hbound
  rw [hafter, drop_left] at hafter' hafter'' hbound
  rw [hafter', drop_left] at hafter'' hbound
  rw [hafter'', drop_left] at hbound
  have hnamed : Text.words (name ++ b) = [name] := by
    rw [words_append_blanks _ hb]
    exact runsOf_eq_singleton (fun x hx => by rw [isBlank_of_isWord (hword x hx)]; rfl) hne
  refine ⟨hfresh, lead ++ (name ++ b), b' ++ u, rest, ?_, ?_, ⟨?_, ?_, name, ?_⟩, ?_⟩
  · rw [hafter, hafter', hafter'', hbound]
    simp
  · have hone : ("=" : Text).length = 1 ∧ (";" : Text).length = 1 := ⟨rfl, rfl⟩
    simp only [length_append, hlen]
    omega
  · simp only [forall_mem_append]
    exact ⟨hchars, fun x hx => .inl (hword x hx), fun x hx => .inr (hb x hx)⟩
  · rw [head?_append, hstart]
    rfl
  · rw [← hnamed]
    exact hwords (name ++ b)
  · exact forall_mem_append.2 ⟨fun x hx => boundChar_of_isBlank (hb' x hx), hu⟩

/-- The text up to the first occurrence of a character is determined. -/
theorem eq_of_append_cons {a a' b' : Text} (ha : x ∉ a) (ha' : x ∉ a')
    (h : a ++ x :: b = a' ++ x :: b') : a = a' := by
  obtain ⟨d, rfl, hd⟩ | ⟨d, rfl, hd⟩ := append_eq_append_iff.1 h
  · cases d with
    | nil => simp
    | cons y d =>
      obtain rfl : x = y := (cons.inj hd).1
      simp at ha'
  · cases d with
    | nil => simp
    | cons y d =>
      obtain rfl : x = y := (cons.inj hd).1
      simp at ha

theorem BindingHead.boundChar (h : BindingHead t) : ∀ x ∈ t, BoundChar x :=
  fun x hx => (h.chars x hx).elim boundChar_of_isWord boundChar_of_isBlank

/-- The head of a binding is no later part of the head of another one. -/
theorem BindingHead.not_inside {P : Text} {b : Char} (h : BindingHead (P ++ b :: t))
    (ht : BindingHead t) (hb : isWord b = false) : False := by
  have hblank : isBlank b = true :=
    (h.chars b (by simp)).resolve_left (by rw [hb]; exact Bool.false_ne_true)
  obtain ⟨w, W, hW⟩ : ∃ w W, P.words = w :: W := by
    cases P with
    | nil =>
      obtain rfl : b = 'l' := by simpa using h.start
      exact absurd hb (by decide)
    | cons x P =>
      obtain rfl : x = 'l' := by simpa using h.start
      exact exists_cons_of_ne_nil (runsOf_cons_ne_nil (by decide) P)
  have hsplit := words_append_cons P t hblank
  obtain ⟨name, hname⟩ := h.words
  obtain ⟨name', hname'⟩ := ht.words
  -- the words before the later head are at least one and at most one, which is then the keyword
  obtain hname | hname := hname <;> obtain hname' | hname' := hname' <;>
    rw [hname, hname', hW] at hsplit <;>
    have hlen := congrArg List.length hsplit <;>
    simp only [length_cons, length_nil, length_append] at hlen
  · omega
  · omega
  · obtain rfl : W = [] := eq_nil_of_length_eq_zero (by omega)
    exact absurd hsplit (by simp)
  · omega

theorem aliasBinding_inside (h : r ∈ Context.aliasBinding c) {k : Nat} (hk : 0 < k)
    (hkr : k < r.2) : Context.aliasBinding (c.advance k) = [] := by
  by_contra hne
  obtain ⟨r', h'⟩ := exists_mem_of_ne_nil _ hne
  obtain ⟨-, head, tail, rest, hafter, hlen, hhead, htail⟩ := mem_aliasBinding h
  obtain ⟨hfresh, head', tail', rest', hafter', -, hhead', htail'⟩ := mem_aliasBinding h'
  rw [Cursor.after_advance, hafter] at hafter'
  rw [Cursor.before_advance, hafter] at hfresh
  by_cases hle : k ≤ head.length
  · rw [drop_append_of_le_length hle] at hafter'
    have hsuffix : head.drop k = head' :=
      eq_of_append_cons (fun h => (hhead.boundChar _ (mem_of_mem_drop h)).1 rfl)
        (fun h => (hhead'.boundChar _ h).1 rfl) hafter'
    obtain hnil | ⟨P, b, hP⟩ := eq_nil_or_concat' (head.take k)
    · have hstart := hhead.start
      rw [take_eq_nil_iff] at hnil
      obtain rfl | rfl := hnil
      · exact absurd hk (Nat.lt_irrefl 0)
      · simp at hstart
    · rw [take_append_of_le_length hle, hP] at hfresh
      have hsplit := take_append_drop k head
      rw [hP, hsuffix, append_assoc] at hsplit
      exact BindingHead.not_inside (hsplit ▸ hhead) hhead' (by simpa using hfresh)
  · obtain ⟨j, rfl⟩ := Nat.exists_eq_add_of_lt (Nat.lt_of_not_le hle)
    rw [Nat.add_assoc, drop_length_add_append, drop_succ_cons, drop_append_of_le_length (by omega),
      show head' ++ '=' :: (tail' ++ ';' :: rest') = (head' ++ '=' :: tail') ++ ';' :: rest' by
        simp]
      at hafter'
    have hwhole := eq_of_append_cons (fun h => (htail _ (mem_of_mem_drop h)).2 rfl) (by
      simp only [mem_append, mem_cons, not_or]
      exact ⟨fun h => (hhead'.boundChar _ h).2 rfl, by decide, fun h => (htail' _ h).2 rfl⟩) hafter'
    have hmem : '=' ∈ tail.drop j := by
      rw [hwhole]
      simp
    exact (htail '=' (mem_of_mem_drop hmem)).1 rfl

/-- A binding that is read from inside a comment hides no other one. -/
theorem hidesNothing_aliasBinding (t : Text) : HidesNothing Context.aliasBinding t := by
  intro m hm hsealed j hj i hij hi hcode
  obtain ⟨u, v, n, rfl, hstart, hstop, hv⟩ := mem_matchesFrom (findAll_eq_matchesFrom _ t ▸ hm)
  have hne : m.start ≠ i := by
    rintro rfl
    rw [hsealed] at hcode
    cases hcode
  simp only [length_nil, Nat.zero_add, append_nil] at hstart hv
  obtain ⟨k, rfl⟩ := Nat.exists_eq_add_of_le (Nat.le_trans hi hij)
  have hnone := aliasBinding_inside (mem_of_mem_head? hv) (k := k) (by omega)
    (show k < n + 1 by omega)
  have hat : readsAt Context.aliasBinding (u ++ v) (m.start + k) =
      (Context.aliasBinding.firstAt ((⟨u.reverse, v⟩ : Cursor).advance k)).any fun r =>
        r.2 != 0 := by
    rw [readsAt, hstart, take_length_add_append, drop_length_add_append, Cursor.advance_eq,
      reverse_append]
  rw [hat, Pattern.firstAt, hnone]
  rfl

end AnchorLowering
