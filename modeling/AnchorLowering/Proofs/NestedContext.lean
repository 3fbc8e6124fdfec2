import AnchorLowering.Proofs.InstructionText
import AnchorLowering.Proofs.NestedAccess
import AnchorLowering.Proofs.NestedState

/-!
# Call contexts in nested code

The accounts of a call of another program are the fields of a struct literal, which is an argument
of a call context, which is written in the call or bound to a local. In nested code each of these is
nested, from the outside in: the value of a binding (`Binding.nested_value`), the argument of a
call, the field of a literal (`StructLiteral.nested_field`).
-/

namespace AnchorLowering

open List Pattern Source

variable {c : Cursor} {name t value : Text} {r : Unit × Nat}

namespace Pattern

variable {α β : Type}

/-! ## Patterns that read to the end -/

/-- The way that the pattern prefers takes all that is left. -/
def TakesRest (p : Pattern α) : Prop := ∀ c r, p.firstAt c = some r → r.2 = c.after.length

theorem TakesRest.bind {p : Pattern α} {q : α → Pattern β} (hp : Bounded p)
    (hq : ∀ a, TakesRest (q a)) :
    TakesRest (p >>= q) := by
  intro c r hr
  rw [firstAt, bind_apply, head?_flatMap] at hr
  obtain ⟨⟨a, n⟩, hmem, hr⟩ := exists_of_findSome?_eq_some hr
  rw [head?_map] at hr
  obtain ⟨s, hs, rfl⟩ := Option.map_eq_some_iff.1 hr
  have hlen := hq a _ s hs
  have hle := (hp c _ hmem).1
  rw [Cursor.after_advance, length_drop] at hlen
  dsimp only at hle hlen ⊢
  omega

theorem takesRest_capture {f : Text → β} :
    TakesRest (do let t ← capture (many fun _ => true); pure (f t)) := by
  rintro ⟨before, t⟩ r hr
  have hmany : Lowering.Prefers (many fun _ => true) before () t [] :=
    Lowering.prefers_many (fun _ _ => rfl) rfl
  have hfirst := hmany.capture.bind_nil (f := fun t => pure (f t)) (Lowering.prefers_pure _)
  rw [Lowering.Prefers, append_nil, hr] at hfirst
  rw [Option.some.inj hfirst]

/-- What holds of every way holds of the whole text, if the way that is preferred takes it all. -/
theorem Ensures.of_readStart? {p : Pattern α} {R : α → Text → Prop} (hp : p.Ensures R)
    (hrest : TakesRest p) {r : α × Nat} (h : p.readStart? t = some r) : R r.1 t := by
  have hR := (hp _ r (mem_of_mem_head? h)).2
  rw [hrest _ r h, take_length] at hR
  exact hR

/-- What holds of the text that is left after every way to match. -/
def Leaves (p : Pattern α) (S : Text → Prop) : Prop := ∀ c, ∀ r ∈ p c, S (c.after.drop r.2)

theorem Leaves.bind {p : Pattern α} {q : α → Pattern β} {S : Text → Prop}
    (hq : ∀ a, (q a).Leaves S) :
    (p >>= q).Leaves S := by
  intro c r hr
  obtain ⟨s, -, s', hs', rfl⟩ := mem_bind.1 hr
  have hS := hq s.1 _ s' hs'
  rwa [Cursor.after_advance, drop_drop] at hS

theorem Ensures.suffix_bind {p : Pattern α} {q : α → Pattern β} {s : Text} (hp : Bounded p)
    (hq : ∀ a, (q a).Ensures fun _ u => s <:+ u) : (p >>= q).Ensures fun _ u => s <:+ u :=
  (Ensures.of_takes hp).bind fun a u _ => (hq a).mono fun _ v hv => hv.trans (suffix_append u v)

end Pattern

namespace Source

/-! ## Bindings -/

/-- The code before the semicolon that ends a statement of nested code is bracketed. -/
theorem awaited_of_semicolonOffset {ms : Marked} {closers below closers' : List Char} {k : Nat}
    (h : semicolonOffset closers.length ms = some k)
    (hms : awaited (closers ++ below) (codeText ms) = some closers') :
    awaited closers (codeText (ms.take k)) = some [] := by
  induction ms generalizing closers k with
  | nil => cases h
  | cons m ms ih =>
    obtain ⟨x, code⟩ := m
    rw [semicolonOffset.eq_def] at h
    dsimp only at h
    by_cases hopen : (code && isOpener x) = true
    · rw [if_pos hopen] at h
      obtain ⟨rfl, hx⟩ := Bool.and_eq_true_iff.1 hopen
      obtain ⟨k, hk, rfl⟩ := Option.map_eq_some_iff.1 h
      rw [codeText_code, awaited_opener hx] at hms
      rw [take_succ_cons, codeText_code, awaited_opener hx]
      exact @ih (closerOf x :: closers) _ hk hms
    · rw [if_neg hopen] at h
      by_cases hclose : (code && isCloser x) = true
      · rw [if_pos hclose] at h
        obtain ⟨rfl, hx⟩ := Bool.and_eq_true_iff.1 hclose
        cases closers with
        | nil => cases h
        | cons y closers =>
          obtain ⟨k, hk, rfl⟩ := Option.map_eq_some_iff.1 h
          obtain ⟨rest, heq, hrest⟩ := eq_of_awaited_closer hx hms
          obtain ⟨rfl, rfl⟩ := cons.inj heq
          rw [take_succ_cons, codeText_code, awaited_closer hx]
          exact ih hk hrest
      · rw [if_neg hclose] at h
        have hother : ∀ closers ms, awaited closers (codeText ((x, code) :: ms)) =
            awaited closers (codeText ms) := by
          intro closers ms
          cases code with
          | false => rfl
          | true => exact awaited_other (by simpa using hopen) (by simpa using hclose)
        split at h
        next hsemicolon =>
          simp only [Bool.and_eq_true, beq_iff_eq, length_eq_zero_iff] at hsemicolon
          rw [hsemicolon.2, ← Option.some.inj h]
          rfl
        next =>
          obtain ⟨k, hk, rfl⟩ := Option.map_eq_some_iff.1 h
          rw [take_succ_cons, hother]
          exact ih hk (by rwa [hother] at hms)

namespace Binding

/-- The equals sign of the binding of a name is code. -/
def Stands (t name : Text) : Prop := ∀ m ∈ Source.find? (head name) t, inCode t (m.stop - 1) = true

instance (t name : Text) : Decidable (Stands t name) := inferInstanceAs (Decidable (∀ m ∈ _, _))

theorem suffix_head (name : Text) : (head name).Ensures fun _ u => "=".toList <:+ u := by
  refine .suffix_bind Takes.wordBoundary fun _ => .suffix_bind Bounded.lit fun _ =>
    .suffix_bind Bounded.many1 fun _ =>
      .suffix_bind (Takes.opt (Bounded.lit.bind fun _ => Bounded.many1)) fun _ =>
    .suffix_bind Bounded.lit fun _ => .suffix_bind Bounded.many fun _ =>
    .suffix_bind (Takes.opt (Bounded.lit.bind fun _ => Bounded.many1)) fun _ =>
    (Ensures.lit _).bind fun _ u hu =>
    (Ensures.of_takes (Takes.notAhead : Takes (fun _ => False) _)).mono fun _ v hv => ?_
  obtain rfl : v = [] := eq_nil_iff_forall_not_mem.2 hv
  exact ⟨[], by rw [hu, append_nil, nil_append]⟩

/-- **The value of a binding in nested code is nested.** -/
theorem nested_value (hnested : Nested t) {b : Binding} (h : find? t name = some b)
    (hstands : Stands t name) (hclosed : Closed b.value) : Nested b.value := by
  obtain ⟨m, hm, hb⟩ := Option.bind_eq_some_iff.1 h
  obtain ⟨semicolon, hend, heq⟩ := Option.bind_eq_some_iff.1 hb
  obtain rfl := Option.some.inj heq
  obtain ⟨k, hk, rfl⟩ := Option.map_eq_some_iff.1 hend
  obtain ⟨u, w, v, ht, -, hstop, -, -, w', rfl⟩ :=
    exists_of_mem_findAll (suffix_head name) (mem_of_mem_head? hm)
  have hsplit : t = (u ++ w') ++ '=' :: v := by simp [ht]
  have hstop' : m.stop = (u ++ w').length + 1 := by simp [hstop]; omega
  -- what follows the equals sign is read as it is read alone
  have hcode : inCode ((u ++ w') ++ '=' :: v) (u ++ w').length = true := by
    have hcode := hstands m hm
    rwa [hstop', Nat.add_sub_cancel, hsplit] at hcode
  have hcut := marked_cut (getElem?_of_inCode hcode) (by decide)
  have hdrop : (marked t).drop m.stop = marked v := by
    rw [hsplit, hcut, hstop', append_cons, drop_left' (by simp)]
  rw [hdrop] at hk
  obtain ⟨hlt, hget⟩ := List.getElem?_eq_some_iff.1 (getElem?_of_semicolonOffset hk)
  obtain ⟨v', r, rfl, hv', -⟩ :=
    marked_of_append (A := (marked v).take k) (B := (marked v).drop (k + 1)) (x := ';')
    (by rw [← hget, ← drop_eq_getElem_cons hlt, take_append_drop]) (by decide)
  have hlen : v'.length = k := by rw [← length_marked, hv', length_take_of_le hlt.le]
  have hslice : t.slice m.stop (k + m.stop) = v' := by
    have hmiddle :=
      drop_take_middle (u ++ w' ++ ['=']) v' (';' :: r) (i := m.stop) (j := k + m.stop)
      (by simp [hstop', Nat.add_assoc]) (by simp [hstop', hlen]; omega)
    rw [hsplit, append_cons]
    exact hmiddle
  have hvalue : Nested v' := by
    rw [Nested, hsplit, hcut, codeText_append, codeText_code, Bracketed, awaited_append] at hnested
    obtain ⟨below, -, hbelow⟩ := Option.bind_eq_some_iff.1 hnested
    rw [awaited_other (by decide) (by decide)] at hbelow
    rw [Nested, hv']
    exact @awaited_of_semicolonOffset _ [] _ _ _ hk hbelow
  dsimp only at hclosed ⊢
  rw [hslice] at hclosed ⊢
  exact nested_trim hvalue hclosed

end Binding

/-! ## Struct literals -/

theorem isWord_of_isLatinLetter {x : Char} (h : isLatinLetter x = true) : isWord x = true := by
  have hlt : x.toNat < 0x80 := by
    simp only [isLatinLetter, Bool.or_eq_true, Bool.and_eq_true, decide_eq_true_eq] at h
    rcases h with ⟨-, h⟩ | ⟨-, h⟩
    · exact Nat.lt_of_le_of_lt (UInt32.le_iff_toNat_le.1 h) (by decide)
    · exact Nat.lt_of_le_of_lt (UInt32.le_iff_toNat_le.1 h) (by decide)
  rw [isWord, if_pos hlt, h]
  rfl

theorem exists_of_mem_mapM {α β : Type} {f : α → Option β} {l : List α} {l' : List β}
    (h : l.mapM f = some l') {b : β} (hb : b ∈ l') : ∃ a ∈ l, f a = some b := by
  induction l generalizing l' with
  | nil =>
    obtain rfl : [] = l' := by simpa using h
    cases hb
  | cons a l ih =>
    rw [mapM_cons] at h
    obtain ⟨c, hc, h⟩ := Option.bind_eq_some_iff.1 h
    obtain ⟨cs, hcs, h⟩ := Option.bind_eq_some_iff.1 h
    obtain rfl := Option.some.inj h
    rcases mem_cons.1 hb with rfl | hb
    · exact ⟨a, mem_cons_self, hc⟩
    · obtain ⟨a', ha', h'⟩ := ih hcs hb
      exact ⟨a', mem_cons_of_mem a ha', h'⟩

namespace StructLiteral

theorem ensures_head :
    head.Ensures fun _ u => ∃ p, u = p ++ ['\x7b'] ∧ ∀ x ∈ p, isHeadChar x = true := by
  have hword : TakesHead word := takes_word.mono fun _ hx => by simp [isHeadChar, hx]
  have hpath : TakesHead (do
      let _ ← one fun c => isLatinLetter c || c == '_'
      many isWord
      star do
        spaced "::"
        word) := by
    refine (Takes.one fun x hx => ?_).bind fun _ =>
      (Takes.many fun x hx => by simp [isHeadChar, hx]).bind fun _ =>
      Takes.star ((Lowering.takesHead_blanks.bind fun _ =>
        (Lowering.takesHead_lit (by decide)).bind fun _ =>
        Lowering.takesHead_blanks).bind fun _ => hword)
    rw [Bool.or_eq_true, beq_iff_eq] at hx
    rcases hx with hx | rfl
    · simp [isHeadChar, isWord_of_isLatinLetter hx]
    · rfl
  refine (Ensures.of_takes Lowering.takesHead_blanks).bind fun _ g hg =>
    (Ensures.of_takes (Takes.capture hpath)).bind
    fun _ p hp => (Ensures.of_takes Lowering.takesHead_blanks).bind fun _ g' hg' =>
      (Ensures.lit _).bind fun _ _ hopen =>
    .pure ⟨g ++ (p ++ g'), by simp [hopen], fun x hx => ?_⟩
  rcases mem_append.1 hx with hx | hx
  · exact hg x hx
  · exact (mem_append.1 hx).elim (hp x) (hg' x)

theorem field?_cases {piece name value : Text} (h : field? piece = some (name, value)) :
    piece = value ∧ IsName value ∨ ∃ g raw, piece = g ++ raw ∧ Opening g ∧ brackets g = [] ∧
    value = Text.trim raw := by
  rw [field?] at h
  split at h
  next field n hread =>
    obtain rfl := Option.some.inj h
    have hblanks : Takes (fun x => isBlank x = true) blanks := Takes.many fun _ hx => hx
    have hall : Bounded (many fun _ => true) := Bounded.many
    have hensures := Ensures.of_readStart? (R := fun field u => ∃ g raw, u = g ++ raw ∧ Opening g ∧
      brackets g = [] ∧
      field.2 = Text.trim raw) ?_ ?_ hread
    · exact .inr hensures
    · refine (Ensures.of_takes takes_word).capture.bind fun _ w hname =>
        (Ensures.of_takes hblanks).bind fun _ b hb =>
        (Ensures.lit _).bind fun _ _ hcolon =>
        (Ensures.of_takes (Takes.notAhead : Takes (fun _ => False) _)).bind
        fun _ z hz => (Ensures.of_takes hblanks).bind fun _ b' hb' =>
          (Ensures.of_takes hall).capture.bind
        fun _ raw hraw => .pure ?_
      obtain ⟨rfl, -, hword⟩ := hname
      obtain ⟨rfl, -⟩ := hraw
      obtain rfl : z = [] := eq_nil_iff_forall_not_mem.2 hz
      have hplain : ∀ x ∈ w ++ b, isPlain x = true := fun x hx =>
        (mem_append.1 hx).elim (fun hx => isPlain_of_isWord (hword x hx)) fun hx =>
          isPlain_of_isBlank (hb x hx)
      refine ⟨w ++ b ++ [':'] ++ b', raw, by simp [hcolon], ?_, ?_, rfl⟩
      · exact ((by decide : Opening [':']).prepend hplain).append_blanks hb'
      · rw [brackets_append, brackets_append, brackets_append, brackets_of_word hword,
          brackets_of_blank hb, brackets_of_blank hb']
        rfl
    · exact .bind Bounded.many1.capture fun name => .bind Bounded.many fun _ => .bind Bounded.lit
        fun _ =>
        .bind Takes.notAhead fun _ => .bind Bounded.many fun _ => takesRest_capture
  next hnone =>
    split at h
    next hword =>
      obtain ⟨rfl, rfl⟩ := Prod.mk.inj (Option.some.inj h)
      exact .inl ⟨rfl, Lowering.isName_of_readAll?_word hword⟩
    next => cases h

/-- **The fields of a literal in nested code are nested**, if they leave nothing open. -/
theorem nested_field (hnested : Nested t) {literal : StructLiteral} (h : parse? t = some literal)
    (hvalue : literal.fields.get? name = some value) (hclosed : Closed value) : Nested value := by
  simp only [parse?, Option.bind_eq_bind] at h
  obtain ⟨⟨path, n⟩, hhead, h⟩ := Option.bind_eq_some_iff.1 h
  obtain ⟨close, hclose, h⟩ := Option.bind_eq_some_iff.1 h
  split at h
  · cases h
  obtain ⟨fields, hfields, h⟩ := Option.bind_eq_some_iff.1 h
  obtain rfl := Option.some.inj h
  obtain ⟨hle, p, hp, hchars⟩ := ensures_head _ _ (mem_of_mem_head? hhead)
  dsimp only [Cursor.start] at hle hp hclose hfields
  have hn : n = p.length + 1 := by
    rw [← length_take_of_le hle, hp, length_append]
    rfl
  -- the brace is code, so what it encloses is nested
  have hopening : Opening (p ++ ['\x7b']) := by
    refine ⟨by simp, plain_of_head hchars (by decide), ?_⟩
    rw [List.getLast?_concat]
    rfl
  have hi : (marked t)[p.length]? = some ('\x7b', true) := by
    rw [← take_append_drop n t, hp, marked_opening hopening, asCode, map_append, append_assoc,
      getElem?_append_right (by simp), length_map, Nat.sub_self]
    rfl
  rw [hn, Nat.add_sub_cancel] at hclose
  obtain ⟨u, v, w, rfl, hlen, rfl, -, hinner⟩ :=
    nested_of_matchingClose hnested (by decide) hi hclose
  have hslice : Text.slice (u ++ '\x7b' :: (v ++ closerOf '\x7b' :: w)) n
      (p.length + 1 + v.length) = v := by
    rw [append_cons]
    exact drop_take_middle (u ++ ['\x7b']) v _ (by simp [hn, hlen]) (by simp [hlen])
  rw [hslice] at hfields
  -- the field is a part between commas, without its name and the blanks around it
  obtain ⟨l, l', hsplit, -⟩ := lookup_eq_some_iff.1 hvalue
  have hentry : (name, value) ∈ Table.ofEntries fields := by
    dsimp only at hsplit
    rw [hsplit]
    simp
  obtain ⟨piece, hpiece, hfield⟩ :=
    exists_of_mem_mapM hfields (Lowering.mem_of_mem_ofEntries hentry)
  rcases field?_cases hfield with ⟨-, hname⟩ | ⟨g, raw, rfl, hg, hnone, rfl⟩
  · exact nested_of_brackets_eq_nil (brackets_of_word hname.word)
  · obtain ⟨part, hpart, htrim⟩ := mem_map.1 (mem_of_mem_dropEmptyLast hpiece)
    have hnested' := nested_part (by decide) (by decide) hinner hpart
    obtain ⟨b, b', hb, hblank, hblank', -⟩ := Lowering.exists_trim part
    obtain ⟨k, k', hk, hblank₁, hblank₂, -⟩ := Lowering.exists_trim raw
    have heq : part = (b ++ (g ++ k)) ++ (Text.trim raw ++ (k' ++ b')) := by
      rw [hb, htrim]
      conv => lhs; rw [hk]
      simp
    rw [heq] at hnested'
    have hblanks : ∀ x ∈ k' ++ b', isBlank x = true :=
      fun x hx => (mem_append.1 hx).elim (hblank₂ x) (hblank' x)
    refine nested_between hnested' hclosed (fun _ => (hg.append_blanks hblank₁).prepend fun x hx =>
      isPlain_of_isBlank (hblank x hx)) (ending_blanks hblanks) ?_
        (.of_brackets_eq_nil (brackets_of_blank hblanks))
    refine .of_brackets_eq_nil ?_
    rw [brackets_append, brackets_append, brackets_of_blank hblank, hnone,
      brackets_of_blank hblank₁]
    rfl

end StructLiteral

end Source

namespace Lowering

/-! ## Accounts -/

theorem opening_of_marks {g : Text} (hne : g ≠ [])
    (h : ∀ x ∈ g, isPlain x = true ∧ isWord x = false) : Opening g := by
  have hlast : ∀ x, g.getLast? = some x → isWord x = false :=
    fun x hx => (h x (mem_of_getLast? hx)).2
  refine ⟨hne, ⟨fun x hx => (h x hx).1, fun x hx => ?_⟩, ?_⟩
  · constructor <;> rintro rfl <;> exact absurd (hlast _ hx) (by decide)
  · cases hg : g.getLast? with
    | none => rfl
    | some x => exact hlast x hg

theorem Ending.head?_ne (h : Ending t) : t.head? ≠ some '\'' := fun hquote =>
  absurd (h.plain.all _ (mem_of_mem_head? hquote)) (by decide)

theorem mem_atEnd (h : r ∈ atEnd c) : c.after = [] ∧ r.2 = 0 := by
  rw [atEnd] at h
  split at h
  next hnil => exact ⟨List.isEmpty_iff.1 hnil, by rw [mem_singleton.1 h]⟩
  next => cases h

/-- A conversion stands at the end of a text, or before the line break that ends it. -/
theorem mem_conversionEnd (h : r ∈ (atEnd <|> ahead (do lit "\n"; atEnd) : Pattern Unit) c) :
    (c.after = [] ∨ c.after = ['\n']) ∧ r.2 = 0 := by
  rcases mem_orElse.1 h with h | h
  · exact ⟨.inl (mem_atEnd h).1, (mem_atEnd h).2⟩
  · obtain ⟨hne, hr⟩ := mem_ahead.1 h
    obtain ⟨q, hq⟩ := exists_mem_of_ne_nil _ hne
    obtain ⟨⟨_, n⟩, hbreak, s, hs, -⟩ := mem_bind.1 hq
    obtain ⟨hpre, rfl⟩ := mem_lit.1 hbreak
    obtain ⟨rest, hrest⟩ := hpre
    have hnil := (mem_atEnd hs).1
    rw [Cursor.after_advance, ← hrest, drop_left] at hnil
    rw [← hrest, hnil]
    exact ⟨.inr rfl, hr⟩

/-- The text is a call of a method that converts an account, with blanks between its parts. -/
def IsConversion (t : Text) : Prop :=
  Text.withoutBlanks t ∈ [".to_account_info()".toList, ".clone()".toList]

instance (t : Text) : Decidable (IsConversion t) := inferInstanceAs (Decidable (_ ∈ _))

/-- A conversion is a dot, a name and an empty argument list, with blanks between. -/
theorem ensures_accountConversion :
    accountConversion.Ensures fun v u => v = [] ∧ IsConversion u ∧ Ending u ∧ Bracketed u := by
  have hblanks : blanks.Ensures fun _ u => ∀ x ∈ u, isBlank x = true :=
    Ensures.of_takes (Takes.many fun _ hx => hx)
  have hplainBlanks := Ensures.and hblanks takesPlain_blanks
  have hmethods : ∀ t ∈ ["to_account_info".toList, "clone".toList],
      Plain t ∧ brackets t = [] ∧ IsConversion ('.' :: (t ++ "()".toList)) := by decide
  have hname := (Ensures.oneOf ["to_account_info", "clone"]).mono fun name u h =>
    (h.1 ▸ hmethods name h.2 : Plain u ∧ _)
  have hargs := Ensures.and (Neutral.filter_tokens (p := (!isBlank ·)) (by simp) ["(", ")"])
    (takesPlain_tokens (by decide) rfl (by decide) : TakesPlain "()".toList noArguments)
  have hend : (atEnd <|> ahead (do lit "\n"; atEnd) : Pattern Unit).Ensures fun _ u => u = [] :=
    fun c r hr => by
    rw [(mem_conversionEnd hr).2]
    exact ⟨Nat.zero_le _, rfl⟩
  refine hblanks.bind fun _ g hg => (Ensures.lit _).bind fun _ _ hdot =>
    Ensures.bind hplainBlanks fun _ b ⟨hblank, hb⟩ =>
    Ensures.bind hname fun _ name ⟨hplainName, hnameBrackets, hconversion⟩ =>
    Ensures.bind hplainBlanks fun _ b' ⟨hblank', hb'⟩ =>
    Ensures.bind hargs fun _ args ⟨hempty, hargs⟩ =>
    Ensures.bind hend fun _ e he => .pure ⟨rfl, ?_⟩
  have hplain : Plain ('.' :: (b ++ (name ++ (b' ++ args)))) :=
    (by decide : Plain ['.']).append (hb.1.append (hplainName.append (hb'.1.append hargs.1)))
  have hquote : (b ++ (name ++ (b' ++ args))).head? ≠ some '\'' := fun hquote =>
    absurd (hplain.all _ (mem_cons_of_mem _ (mem_of_mem_head? hquote))) (by decide)
  have hbrackets : brackets (g ++ ('.' :: (b ++ (name ++ (b' ++ args))))) = "()".toList := by
    rw [brackets_append, brackets_of_blank hg, ← singleton_append, brackets_append,
      brackets_append, brackets_append, brackets_append, hb.2, hnameBrackets, hb'.2, hargs.2]
    rfl
  rw [hdot, he]
  simp only [append_nil]
  refine ⟨?_, (ending_cons (by decide) hquote hplain).prepend_blanks (by simp) hg, ?_⟩
  · have hempty : Text.withoutBlanks args = "()".toList := hempty
    have hsolid : Text.withoutBlanks (g ++ (".".toList ++ (b ++ (name ++ (b' ++ args))))) =
        Text.withoutBlanks (".".toList ++ (name ++ "()".toList)) := by
      simp only [withoutBlanks_append, withoutBlanks_eq_nil hg, withoutBlanks_eq_nil hblank,
        withoutBlanks_eq_nil hblank', hempty]
      rfl
    rw [IsConversion, hsolid]
    exact hconversion
  rw [← bracketed_brackets]
  exact hbrackets ▸ by decide

theorem leaves_accountConversion : accountConversion.Leaves fun rest => rest = [] ∨ rest = ['\n'] :=
  .bind fun _ => .bind fun _ => .bind fun _ => .bind fun _ => .bind fun _ => .bind fun _ =>
    fun c r hr => by
    obtain ⟨e, he, s, hs, rfl⟩ := mem_bind.1 hr
    obtain ⟨hend, hzero⟩ := mem_conversionEnd he
    obtain rfl := mem_singleton.1 hs
    rwa [hzero]

/-- Without its conversion, a text that ends with no blank lacks a bracketed end. -/
theorem exists_conversion (before t : Text) (hlast : t.getLast? ≠ some '\n') :
    ∃ k, t = replacedFrom accountConversion before t ++ k ∧ (k ≠ [] → IsConversion k ∧ Ending k) ∧
      Bracketed k := by
  induction t generalizing before with
  | nil => exact ⟨[], rfl, fun hne => absurd rfl hne, rfl⟩
  | cons x t ih =>
    by_cases hsome : ∃ v n, accountConversion.firstAt ⟨before, x :: t⟩ = some (v, n + 1)
    · obtain ⟨v, n, hfirst⟩ := hsome
      have hmem := mem_of_mem_head? hfirst
      obtain ⟨hle, hv, hconversion, hending, hbracketed⟩ := ensures_accountConversion _ _ hmem
      dsimp only at hle hv hconversion hending hbracketed
      have hdrop : (x :: t).drop (n + 1) = [] := by
        refine (leaves_accountConversion _ _ hmem).resolve_right fun hbreak => hlast ?_
        rw [← take_append_drop (n + 1) (x :: t)]
        dsimp only at hbreak
        rw [hbreak, List.getLast?_concat]
      have htake : (x :: t).take (n + 1) = x :: t := by
        conv => rhs; rw [← take_append_drop (n + 1) (x :: t), hdrop, append_nil]
      rw [replacedFrom_of_some hle hfirst, hdrop, hv, replacedFrom_nil]
      rw [htake] at hconversion hending hbracketed
      exact ⟨x :: t, rfl, fun _ => ⟨hconversion, hending⟩, hbracketed⟩
    · have hlast' : t.getLast? ≠ some '\n' := by
        cases t with
        | nil => simp
        | cons y t => simpa using hlast
      obtain ⟨k, hk, hending⟩ := ih (x :: before) hlast'
      rw [replacedFrom_of_not_some fun v n hfirst => hsome ⟨v, n, hfirst⟩]
      exact ⟨k, by rw [cons_append, ← hk], hending⟩

/-- What an account is referred to by is its expression without the reference marks and blanks in
front and without a conversion at the end. Both are plain texts, and the conversion is bracketed. -/
theorem exists_accountReference (value : Text) :
    ∃ g g', collapseBlanks value = g ++ (accountReference value ++ g') ∧
    (∀ x ∈ g, x = '&' ∨ isBlank x = true) ∧ (Blank g' ∨ IsConversion g') ∧
    (g ≠ [] → Opening g) ∧ brackets g = [] ∧ (g' ≠ [] → Ending g') ∧ Bracketed g' := by
  have hlast : (collapseBlanks value).getLast? ≠ some '\n' := fun hbreak => by
    obtain ⟨-, -, -, -, -, -, hlast⟩ := exists_trim (replaceInCode oneBlank value)
    exact absurd (hlast _ hbreak) (by decide)
  obtain ⟨k, hk, hending, hbracketed⟩ := exists_conversion [] (collapseBlanks value) hlast
  rw [← replaceAll_eq_replacedFrom] at hk
  rw [accountReference]
  generalize accountConversion.replaceAll (collapseBlanks value) = w at hk
  obtain ⟨b, b', htrim, hb, hb', -⟩ := exists_trim (w.dropWhile (· == '&'))
  have hamps : ∀ x ∈ w.takeWhile (· == '&'), x = '&' :=
    fun x hx => by simpa using mem_takeWhile_imp hx
  refine ⟨w.takeWhile (· == '&') ++ b, b' ++ k, ?_, fun x hx => ?_, ?_,
    fun hne => opening_of_marks hne fun x hx => ?_, ?_, fun hne => ?_, ?_⟩
  · rw [hk]
    conv => lhs; rw [← takeWhile_append_dropWhile (p := (· == '&')) (l := w), htrim]
    simp
  · exact (mem_append.1 hx).imp (hamps x) (hb x)
  · by_cases hnil : k = []
    · exact .inl (by rwa [hnil, append_nil])
    · refine .inr ?_
      rw [IsConversion, withoutBlanks_append, withoutBlanks_eq_nil hb']
      exact (hending hnil).1
  · rcases mem_append.1 hx with hx | hx
    · rw [hamps x hx]
      decide
    · refine ⟨isPlain_of_isBlank (hb x hx), ?_⟩
      cases hword : isWord x with
      | false => rfl
      | true =>
        have hblank := hb x hx
        rw [isBlank_of_isWord hword] at hblank
        cases hblank
  · rw [brackets_append, brackets_of_blank hb, brackets_eq_nil fun x hx =>
      by rw [hamps x hx]; decide]
    rfl
  · by_cases hnil : k = []
    · rw [hnil, append_nil] at hne ⊢
      exact ending_blanks hb' hne
    · exact (hending hnil).2.prepend_blanks (Ending.head?_ne (hending hnil).2) hb'
  · exact Bracketed.append (.of_brackets_eq_nil (brackets_of_blank hb')) hbracketed

/-- The expression for an account may be put into a template, once it is cut down to what the
account is referred to by. -/
@[mk_iff]
structure ReadableAccount (value : Text) : Prop where
  closed : Closed value
  collapses : Collapses value
  reference : Closed (accountReference value)

instance (value : Text) : Decidable (ReadableAccount value) :=
  decidable_of_iff _ (readableAccount_iff ..).symm

theorem fits_accountReference (hnested : Nested value) (h : ReadableAccount value) :
    Fits (accountReference value) := by
  obtain ⟨g, g', hvalue, -, -, hg, hnone, hg', hbracketed⟩ := exists_accountReference value
  have hcollapsed := h.collapses.nested hnested
  rw [hvalue] at hcollapsed
  exact h.reference.fits (nested_between hcollapsed h.reference hg hg' (.of_brackets_eq_nil hnone)
    hbracketed)

end Lowering

end AnchorLowering
