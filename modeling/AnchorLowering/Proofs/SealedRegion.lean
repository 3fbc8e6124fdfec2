import AnchorLowering.Proofs.PatternWay
import AnchorLowering.Source.Region

/-!
# What decides a sealed region

Whether a sealed region starts at a place, and where it ends, is decided by the characters of the
region and by whether a name ends right before it. What follows a closed region does not matter,
with one exception: a line comment ends where its line does.
-/

namespace AnchorLowering.Source

open List Pattern

variable {k x : Char} {hashes n n' : Nat} {t u s r w body : Text}

/-! ## Tails -/

theorem stringTail_pos (h : t ≠ []) : 0 < stringTail t := by
  fun_cases stringTail t
  · exact absurd rfl h
  · exact Nat.one_pos
  all_goals exact Nat.add_pos_left (by decide) _

theorem stringTail_le (t : Text) : stringTail t ≤ t.length := by
  fun_induction stringTail t <;> simp_all <;> omega

/-- A string that is closed ends with a quote and stays closed where it was. -/
theorem stringTail_append (hr : r ≠ []) (h : stringTail (u ++ r) = u.length) :
    u.getLast? = some '"' ∧ ∀ r', stringTail (u ++ r') = u.length := by
  fun_induction stringTail u with
  | case1 => exact absurd h (stringTail_pos hr).ne'
  | case2 u =>
    obtain rfl : u = [] := by simpa [stringTail] using h
    exact ⟨rfl, fun r' => by simp [stringTail]⟩
  | case3 x u ih =>
    simp only [cons_append, stringTail, length_cons] at h
    obtain ⟨hlast, htail⟩ := ih (by omega)
    refine ⟨by rw [getLast?_cons, getLast?_cons, hlast]; rfl, fun r' => ?_⟩
    simp only [cons_append, stringTail, length_cons, htail]
    omega
  | case4 x u hquote hescape ih =>
    by_cases hx : x = '\\'
    · -- a backslash with nothing after it in `u` would take a character of `r`
      obtain rfl : u = [] := by
        cases u with
        | nil => rfl
        | cons y u => exact (hescape y u hx rfl).elim
      obtain ⟨y, r, rfl⟩ := exists_cons_of_ne_nil hr
      subst hx
      simp [stringTail] at h
      omega
    · have hstep : ∀ w : Text, stringTail (x :: w) = 1 + stringTail w := by
        intro w
        rw [stringTail]
        · exact hquote
        · exact fun _ _ hx' => (hx hx').elim
      rw [cons_append, hstep, length_cons] at h
      obtain ⟨hlast, htail⟩ := ih (by omega)
      refine ⟨by rw [getLast?_cons, hlast]; rfl, fun r' => ?_⟩
      rw [cons_append, hstep, htail, length_cons]
      omega

theorem blockTail_pos (h : t ≠ []) : 0 < blockTail t := by
  fun_cases blockTail t
  · exact absurd rfl h
  · exact Nat.succ_pos 1
  · omega

theorem blockTail_le (t : Text) : blockTail t ≤ t.length := by
  fun_induction blockTail t with
  | case1 => rfl
  | case2 t => simp
  | case3 x t _ ih => rw [length_cons]; omega

/-- A block comment that is closed ends with a slash and stays closed where it was. -/
theorem blockTail_append (hr : r ≠ []) (h : blockTail (u ++ r) = u.length) :
    u.getLast? = some '/' ∧ ∀ r', blockTail (u ++ r') = u.length := by
  fun_induction blockTail u with
  | case1 => exact absurd h (blockTail_pos hr).ne'
  | case2 u =>
    obtain rfl : u = [] := by simpa [blockTail] using h
    exact ⟨rfl, fun r' => by simp [blockTail]⟩
  | case3 x u hclose ih =>
    by_cases hx : x = '*' ∧ u = []
    · -- a star at the end of `u` would close the comment with a character of `r`, or not at all
      obtain ⟨rfl, rfl⟩ := hx
      have hpos := blockTail_pos hr
      obtain ⟨y, r, rfl⟩ := exists_cons_of_ne_nil hr
      by_cases hy : y = '/'
      · subst hy
        simp [blockTail] at h
      · have hstep : blockTail ('*' :: y :: r) = 1 + blockTail (y :: r) := by
          rw [blockTail]
          rintro z - hz
          exact hy (cons.inj hz).1
        simp only [singleton_append, hstep, length_singleton] at h
        omega
    · have hstep : ∀ w : Text, blockTail (x :: (u ++ w)) = 1 + blockTail (u ++ w) := by
        intro w
        rw [blockTail]
        rintro z rfl hz
        cases u with
        | nil => exact hx ⟨rfl, rfl⟩
        | cons y u => exact hclose u rfl (by rw [(cons.inj hz).1])
      rw [cons_append, hstep, length_cons] at h
      obtain ⟨hlast, htail⟩ := ih (by omega)
      refine ⟨by rw [getLast?_cons, hlast]; rfl, fun r' => ?_⟩
      rw [cons_append, hstep, htail, length_cons]
      omega

theorem rawTail_pos (h : t ≠ []) : 0 < rawTail hashes t := by
  obtain ⟨c, t, rfl⟩ := exists_cons_of_ne_nil h
  rw [rawTail]
  split <;> omega

theorem rawTail_le (hashes : Nat) (t : Text) : rawTail hashes t ≤ t.length := by
  induction t with
  | nil => rfl
  | cons c t ih =>
    rw [rawTail, length_cons]
    split
    · rename_i hc
      simp only [Bool.and_eq_true, isPrefixOf_iff_prefix] at hc
      have := hc.2.length_le
      rw [length_replicate] at this
      omega
    · omega

/-- The rest of a raw string that is closed holds its closing quote and hashes. -/
theorem lt_rawTail (h : rawTail hashes t < t.length) : hashes < rawTail hashes t := by
  induction t with
  | nil => simp at h
  | cons c t ih =>
    rw [rawTail] at h ⊢
    split
    · omega
    · rename_i hc
      rw [if_neg hc, length_cons] at h
      have := ih (by omega)
      omega

/-- A raw string that is closed ends with a quote or a hash and stays closed where it was. -/
theorem rawTail_append (hr : r ≠ []) (h : rawTail hashes (u ++ r) = u.length) :
    (∃ x, u.getLast? = some x ∧ (x = '"' ∨ x = '#')) ∧ ∀ r', rawTail hashes (u ++ r') =
    u.length := by
  induction u with
  | nil => exact absurd h (rawTail_pos hr).ne'
  | cons c u ih =>
    rw [cons_append, rawTail, length_cons] at h
    by_cases hc : (c == '"' && (replicate hashes '#').isPrefixOf (u ++ r)) = true
    · rw [if_pos hc] at h
      simp only [Bool.and_eq_true, beq_iff_eq, isPrefixOf_iff_prefix] at hc
      obtain ⟨rfl, hpre⟩ := hc
      have hlen : u.length = hashes := by omega
      obtain rfl : u = replicate hashes '#' := by
        have := prefix_of_prefix_length_le hpre (prefix_append u r) (by simp [hlen])
        exact (this.eq_of_length (by simp [hlen])).symm
      refine ⟨?_, fun r' => ?_⟩
      · cases hashes with
        | zero => exact ⟨'"', rfl, .inl rfl⟩
        | succ n => exact ⟨'#', by simp [getLast?_cons, getLast?_replicate], .inr rfl⟩
      · rw [cons_append, rawTail, if_pos (by simp), length_cons, hlen]
        omega
    · rw [if_neg hc] at h
      have hlen : rawTail hashes (u ++ r) = u.length := by omega
      have hclosed : hashes < u.length := by
        have hlt : rawTail hashes (u ++ r) < (u ++ r).length := by
          have := length_pos_iff.2 hr
          rw [hlen, length_append]
          omega
        exact hlen ▸ lt_rawTail hlt
      obtain ⟨⟨x, hlast, hx⟩, htail⟩ := ih hlen
      refine ⟨⟨x, by rw [getLast?_cons, hlast]; rfl, hx⟩, fun r' => ?_⟩
      rw [cons_append, rawTail, if_neg, htail, length_cons]
      · omega
      · simp only [Bool.and_eq_true, isPrefixOf_iff_prefix] at hc ⊢
        rintro ⟨hquote, hpre⟩
        refine hc ⟨hquote, ?_⟩
        have := prefix_of_prefix_length_le hpre (prefix_append u r')
          (by simp only [length_replicate]; omega)
        exact this.trans (prefix_append u r)

/-! ## Character literals -/

/-- What stands between the quotes of a character literal. -/
inductive CharBody : Text → Prop where
  | plain {x : Char} (h : x ≠ '\\' ∧ x ≠ '\'' ∧ x ≠ '\n') : CharBody [x]
  | escaped {x : Char} (h : x ≠ '\n') : CharBody ['\\', x]
  | hex {x y : Char} (hx : isHexDigit x = true) (hy : isHexDigit y = true) :
    CharBody ['\\', 'x', x, y]
  | unicode {digits : Text} (hne : digits ≠ []) (hlen : digits.length ≤ 6)
    (h : ∀ x ∈ digits, isHexDigit x = true) :
    CharBody ('\\' :: 'u' :: '\x7b' :: (digits ++ ['\x7d']))

theorem way_escape {before rest : Text} : Way escape before () u rest ↔ CharBody ('\\' :: u) := by
  simp only [escape, way_orElse, way_bind, way_lit, way_one, way_capture, way_many1, way_require,
    way_pure]
  constructor
  · rintro (⟨-, _, _, rfl, rfl, a, _, _, rfl, ⟨rfl, ha⟩, b, _, _, rfl, ⟨rfl, hb⟩, -, rfl⟩ |
      ⟨-, _, _, rfl, rfl, _, digits, _, rfl, ⟨rfl, -, hne, hall⟩, -, _, _, rfl, ⟨hlen, rfl⟩, rfl⟩ |
      ⟨a, _, _, rfl, ⟨rfl, ha⟩, -, rfl⟩)
    · exact .hex ha hb
    · exact .unicode hne (of_decide_eq_true hlen) hall
    · exact .escaped (by simpa using ha)
  · intro h
    cases h with
    | plain h => exact absurd rfl h.1
    | @escaped x h => exact .inr (.inr ⟨x, [x], [], rfl, ⟨rfl, by simpa using h⟩, trivial, rfl⟩)
    | @hex x y hx hy =>
      exact .inl ⟨(), _, [x, y], rfl, rfl, x, [x], [y], rfl, ⟨rfl, hx⟩,
        y, [y], [], rfl, ⟨rfl, hy⟩, trivial, rfl⟩
    | @unicode digits hne hlen h =>
      exact .inr (.inl ⟨(), _, digits ++ ['\x7d'], rfl, rfl, digits, digits, ['\x7d'], rfl,
        ⟨rfl, (), hne, h⟩, (), [], ['\x7d'], rfl, ⟨decide_eq_true hlen, rfl⟩, rfl⟩)

/-- A character literal, with its quotes. -/
def IsCharLiteral (u : Text) : Prop :=
  ∃ body, CharBody body ∧ (u = '\'' :: (body ++ ['\'']) ∨ u = 'b' :: '\'' :: (body ++ ['\'']))

theorem bounded_charLiteral : Bounded charLiteral := by
  have hone {test : Char → Bool} : Bounded (do let _ ← one test) :=
    Bounded.one.bind fun _ => .pure ()
  have hunicode : Bounded (do
      lit "u\x7b"
      let digits ← capture (many1 isHexDigit)
      require (digits.length ≤ 6)
      lit "\x7d") :=
    Bounded.lit.bind fun _ => Bounded.many1.capture.bind fun _ =>
      (Takes.of_zero fun _ _ hr => by rw [(mem_require.1 hr).2]).bind fun _ => Bounded.lit
  have hescape : Bounded escape :=
    (Bounded.lit.bind fun _ => Bounded.one.bind fun _ => hone).orElse (hunicode.orElse hone)
  exact Bounded.lit.opt.bind fun _ => Bounded.lit.bind fun _ =>
    ((Bounded.lit.bind fun _ => hescape).orElse hone).bind fun _ => Bounded.lit

theorem way_charLiteral {before rest : Text} :
    Way charLiteral before () u rest ↔ IsCharLiteral u := by
  have hbody {before u rest : Text} : Way ((do lit "\\"; escape) <|>
      (do let _ ← one fun c => c != '\\' && c != '\'' && c != '\n')) before () u rest ↔
        CharBody u := by
    simp only [way_orElse, way_bind, way_lit, way_one, way_pure, way_escape]
    constructor
    · rintro (⟨-, _, w, rfl, rfl, hw⟩ | ⟨x, _, _, rfl, ⟨rfl, hx⟩, -, rfl⟩)
      · exact hw
      · exact .plain (by simpa [and_assoc] using hx)
    · intro h
      cases h with
      | @plain x h =>
        exact .inr ⟨x, [x], [], rfl, ⟨rfl, by simpa [and_assoc] using h⟩, trivial, rfl⟩
      | escaped h => exact .inl ⟨(), _, _, rfl, rfl, .escaped h⟩
      | hex hx hy => exact .inl ⟨(), _, _, rfl, rfl, .hex hx hy⟩
      | unicode hne hlen h => exact .inl ⟨(), _, _, rfl, rfl, .unicode hne hlen h⟩
  simp only [charLiteral, way_bind, way_lit, way_opt, hbody]
  constructor
  · rintro ⟨_, v, _, rfl, hv, -, _, _, rfl, rfl, -, body, _, rfl, hbody, rfl⟩
    obtain ⟨-, -, rfl⟩ | ⟨-, rfl⟩ := hv
    · exact ⟨body, hbody, .inr rfl⟩
    · exact ⟨body, hbody, .inl rfl⟩
  · rintro ⟨body, hbody, rfl | rfl⟩
    · exact ⟨none, [], _, rfl, .inr ⟨rfl, rfl⟩, (), _, _, rfl, rfl, (), body, _, rfl, hbody, rfl⟩
    · exact ⟨some (), _, _, rfl, .inl ⟨(), rfl, rfl⟩, (), _, _, rfl, rfl, (), body, _, rfl,
        hbody, rfl⟩

theorem isWord_of_isHexDigit (h : isHexDigit x = true) : isWord x = true := by
  have hrange : x.toNat < 0x80 ∧ (isLatinLetter x = true ∨ isDigit x = true) := by
    simp only [isHexDigit, isLatinLetter, isDigit, Bool.or_eq_true, Bool.and_eq_true,
      decide_eq_true_eq, Char.le_def, UInt32.le_iff_toNat_le] at h ⊢
    simp only [Char.toNat, Char.reduceVal, UInt32.reduceToNat] at h ⊢
    omega
  simp only [isWord, if_pos hrange.1, Bool.or_eq_true]
  exact .inl hrange.2

/-- The body of a character literal is one character, or a backslash and a character. Only a word
character can have more after it, and that is word characters and curly brackets. -/
theorem CharBody.shape (h : CharBody body) : (∃ x, x ≠ '\\' ∧ x ≠ '\'' ∧ body = [x]) ∨
      ∃ x more, body = '\\' :: x :: more ∧ (isWord x = true ∨ more = []) ∧
        ∀ y ∈ more, isWord y = true ∨ y = '\x7b' ∨ y = '\x7d' := by
  cases h with
  | @plain x h => exact .inl ⟨x, h.1, h.2.1, rfl⟩
  | @escaped x h => exact .inr ⟨x, [], rfl, .inr rfl, by simp⟩
  | @hex x y hx hy =>
    refine .inr ⟨'x', [x, y], rfl, .inl (by decide), ?_⟩
    simp [isWord_of_isHexDigit hx, isWord_of_isHexDigit hy]
  | @unicode digits hne hlen h =>
    refine .inr ⟨'u', '\x7b' :: (digits ++ ['\x7d']), rfl, .inl (by decide), fun y hy => ?_⟩
    simp only [mem_cons, mem_append, not_mem_nil, or_false] at hy
    obtain rfl | hy | rfl := hy
    · exact .inr (.inl rfl)
    · exact .inl (isWord_of_isHexDigit (h y hy))
    · exact .inr (.inr rfl)

theorem CharBody.eq_of_append {body' rest rest' : Text} (h : CharBody body) (h' : CharBody body')
    (heq : body ++ '\'' :: rest = body' ++ '\'' :: rest') : body = body' := by
  have hrun : ∀ {more : Text} (rest : Text), (∀ y ∈ more, isWord y = true ∨ y = '\x7b' ∨
      y = '\x7d') →
        (more ++ '\'' :: rest).takeWhile (· != '\'') = more := by
    intro more rest hmore
    rw [takeWhile_append_of_pos]
    · simp
    · intro y hy
      obtain hw | rfl | rfl := hmore y hy
      · simp only [bne_iff_ne, ne_eq]
        rintro rfl
        exact absurd hw (by decide)
      · decide
      · decide
  obtain ⟨x, hx, -, rfl⟩ | ⟨x, more, rfl, -, hmore⟩ := h.shape <;>
    obtain ⟨x', hx', -, rfl⟩ | ⟨x', more', rfl, -, hmore'⟩ := h'.shape
  · rw [(cons.inj heq).1]
  · exact absurd (cons.inj heq).1 hx
  · exact absurd (cons.inj heq).1.symm hx'
  · simp only [cons_append, cons.injEq, true_and] at heq
    rw [heq.1, ← hrun rest hmore, heq.2, hrun rest' hmore']

theorem IsCharLiteral.eq_of_prefix {u' : Text} (h : IsCharLiteral u) (h' : IsCharLiteral u')
    (hu : u <+: t) (hu' : u' <+: t) : u = u' := by
  obtain ⟨rest, rfl⟩ := hu
  obtain ⟨rest', heq⟩ := hu'
  obtain ⟨body, hbody, rfl | rfl⟩ := h <;> obtain ⟨body', hbody', rfl | rfl⟩ := h' <;>
    simp only [cons_append, append_assoc, nil_append, cons.injEq, true_and, false_and,
      Char.reduceEq] at heq
  · rw [hbody.eq_of_append hbody' heq.symm]
  · rw [hbody.eq_of_append hbody' heq.symm]

theorem firstAt_charLiteral {c : Cursor} : (charLiteral.firstAt c).map (·.2) = some n ↔
      ∃ u, IsCharLiteral u ∧ u <+: c.after ∧ n = u.length := by
  have hlit {m : Nat} : ((), m) ∈ charLiteral c ↔ ∃ u, IsCharLiteral u ∧ u <+: c.after ∧
      m = u.length := by
    simp only [mem_iff_way bounded_charLiteral, way_charLiteral]
    exact ⟨fun ⟨u, rest, h, hm, hu⟩ => ⟨u, hu, ⟨rest, h.symm⟩, hm⟩, fun ⟨u, hu, ⟨rest, h⟩, hm⟩ =>
      ⟨u, rest, h.symm, hm, hu⟩⟩
  rw [firstAt]
  constructor
  · intro h
    obtain ⟨⟨_, m⟩, hr, rfl⟩ := Option.map_eq_some_iff.1 h
    exact hlit.1 (mem_of_mem_head? hr)
  · rintro ⟨u, hu, hpre, rfl⟩
    have hmem := hlit.2 ⟨u, hu, hpre, rfl⟩
    obtain ⟨⟨_, m⟩, hm⟩ := Option.isSome_iff_exists.1 (isSome_head?.2 (ne_nil_of_mem hmem))
    obtain ⟨u', hu', hpre', rfl⟩ := hlit.1 (mem_of_mem_head? hm)
    rw [hm, hu.eq_of_prefix hu' hpre hpre']
    rfl

/-! ## Texts that start afresh -/

/-- A mark: no word character, and no part of a comment or of a literal. -/
def isMark (k : Char) : Bool := !isWord k && !"/*\"'#\\\x7b\x7d".toList.contains k

/-- A text that completes no quote and no comment mark from before it, where `prev` is the character
before it. It starts with a mark that stands alone, or, where no name ends, with a name or an
opening brace up to a mark. -/
inductive StartsAfresh (prev : Option Char) : Text → Prop where
  | nil : StartsAfresh prev []
  | mark {k : Char} {rest : Text} (hk : isMark k = true) (hrest : rest.head? ≠ some '\'') :
    StartsAfresh prev (k :: rest)
  | name {h : Text} {k : Char} {rest : Text} (hne : h ≠ []) (hprev : prev.any isWord = false)
    (hh : ∀ x ∈ h, isWord x = true ∨ x = '\x7b') (hk : isMark k = true) :
    StartsAfresh prev (h ++ k :: rest)

theorem isWord_eq_false_of_isMark (h : isMark k = true) : isWord k = false := by
  simp_all [isMark]

namespace StartsAfresh

variable {prev : Option Char} {w : Text}

theorem head_cases (h : StartsAfresh prev w) (hx : w.head? = some x) :
    isMark x = true ∨ (prev.any isWord = false ∧ (isWord x = true ∨ x = '\x7b')) := by
  cases h with
  | nil => cases hx
  | mark hk _ =>
    cases hx
    exact .inl hk
  | @name h k rest hne hprev hh hk =>
    obtain ⟨y, h, rfl⟩ := exists_cons_of_ne_nil hne
    cases hx
    exact .inr ⟨hprev, hh x mem_cons_self⟩

theorem head_ne (h : StartsAfresh prev w) (hmark : isMark x = false) (hword : isWord x = false)
    (hbrace : x ≠ '\x7b') : w.head? ≠ some x := by
  intro hx
  obtain hk | ⟨-, hw | hb⟩ := h.head_cases hx
  · simp_all
  · simp_all
  · exact hbrace hb

/-- What stands before a quote in a text that starts afresh holds a mark that is not alone. -/
theorem before_quote (h : StartsAfresh prev w) {z : Text} (hz : z ++ ['\''] <+: w) :
    ∃ a k b, z = a ++ k :: b ∧ isMark k = true ∧ (∀ x ∈ a, isWord x = true ∨ x = '\x7b') ∧
    a ++ b ≠ [] := by
  obtain ⟨rest', hz⟩ := hz
  rw [append_assoc, singleton_append] at hz
  cases h with
  | nil => simp at hz
  | @mark k rest hk hrest =>
    cases z with
    | nil =>
      obtain ⟨rfl, -⟩ := cons.inj hz
      exact absurd hk (by decide)
    | cons y b =>
      obtain ⟨rfl, rfl⟩ := cons.inj hz
      refine ⟨[], y, b, rfl, hk, by simp, ?_⟩
      rintro (rfl : b = [])
      exact hrest rfl
  | @name h k rest hne hprev hh hk =>
    obtain ⟨b, rfl, hb⟩ | ⟨b, rfl, hb⟩ := append_eq_append_iff.1 hz
    · -- the quote would lie in the name
      cases b with
      | nil =>
        obtain ⟨rfl, -⟩ := cons.inj hb
        exact absurd hk (by decide)
      | cons y b =>
        obtain ⟨rfl, -⟩ := cons.inj hb
        exact absurd (hh '\'' (by simp)) (by decide)
    · cases b with
      | nil =>
        obtain ⟨rfl, -⟩ := cons.inj hb
        exact absurd hk (by decide)
      | cons y b =>
        obtain ⟨rfl, -⟩ := cons.inj hb
        exact ⟨h, k, b, rfl, hk, hh, by simp [hne]⟩

end StartsAfresh

/-- The body of a character literal has no mark with a name or an opening brace before it, and none
with anything after it. -/
theorem CharBody.no_mark {a b : Text} (h : CharBody (s ++ (a ++ k :: b))) (hk : isMark k = true)
    (ha : ∀ x ∈ a, isWord x = true ∨ x = '\x7b') : a ++ b = [] := by
  obtain ⟨x, -, -, hbody⟩ | ⟨x, more, hbody, hword, hmore⟩ := h.shape
  · have hlen := congrArg List.length hbody
    simp only [length_append, length_cons, length_nil] at hlen
    exact length_eq_zero_iff.1 (by rw [length_append]; omega)
  · rw [← append_assoc] at hbody
    match hsa : s ++ a, hbody with
    | [], hbody =>
      obtain ⟨rfl, -⟩ := cons.inj hbody
      exact absurd hk (by decide)
    | [y], hbody =>
      simp only [singleton_append, cons.injEq] at hbody
      obtain ⟨rfl, rfl, rfl⟩ := hbody
      have hb : b = [] := by
        rw [isWord_eq_false_of_isMark hk] at hword
        simpa using hword
      obtain ⟨-, ha'⟩ | ⟨-, ha'⟩ := append_eq_singleton_iff.1 hsa
      · rw [ha'] at ha
        exact absurd (ha '\\' mem_cons_self) (by decide)
      · rw [ha', hb]
        rfl
    | y :: y' :: l, hbody =>
      simp only [cons_append, cons.injEq] at hbody
      have hmem : k ∈ more := by simp [← hbody.2.2]
      obtain hw | rfl | rfl := hmore k hmem
      · rw [isWord_eq_false_of_isMark hk] at hw
        exact absurd hw (by decide)
      · exact absurd hk (by decide)
      · exact absurd hk (by decide)

theorem IsCharLiteral.prefix_of_startsAfresh (hu : IsCharLiteral u) (hs : s ≠ [])
    (hw : StartsAfresh s.getLast? w) (hpre : u <+: s ++ w) : u <+: s := by
  by_contra hnot
  obtain ⟨z, rfl⟩ : s <+: u := by
    refine prefix_of_prefix_length_le (prefix_append s w) hpre ?_
    by_contra hlt
    exact hnot (prefix_of_prefix_length_le hpre (prefix_append s w) (by omega))
  have hz : z <+: w := (prefix_append_right_inj s).1 hpre
  obtain ⟨body, q, hbody, hq, heq⟩ : ∃ body q, CharBody body ∧ (q = ['\''] ∨ q = ['b', '\'']) ∧
      s ++ z = q ++ body ++ ['\''] := by
    obtain ⟨body, hbody, heq | heq⟩ := hu
    · exact ⟨body, _, hbody, .inl rfl, heq⟩
    · exact ⟨body, _, hbody, .inr rfl, heq⟩
  obtain rfl | ⟨z, y, rfl⟩ := eq_nil_or_concat' z
  · exact hnot (by simp)
  rw [← append_assoc] at heq
  obtain ⟨heq, hy⟩ := append_inj' heq rfl
  rw [hy] at hz
  obtain ⟨a, k, b, rfl, hk, ha, hab⟩ := hw.before_quote hz
  -- the opening quote lies in `s`, so the body ends with what follows it in `s` and with `z`
  obtain ⟨s', rfl, rfl⟩ | ⟨q', hq', hq''⟩ := append_eq_append_iff.1 heq.symm
  · exact hab (hbody.no_mark hk ha)
  · have hquote : q' = [] ∨ q' = ['\''] := by
      obtain ⟨x, s, rfl⟩ := exists_cons_of_ne_nil hs
      obtain rfl | rfl := hq
      · simp_all
      · cases s <;> simp_all
    obtain rfl | rfl := hquote
    · exact hab (CharBody.no_mark (s := []) (hq'' ▸ hbody) hk ha)
    · rw [hq''] at hz
      obtain ⟨rest, rfl⟩ := hz
      exact hw.head_ne (by decide) (by decide) (by decide) rfl

/-! ## The shapes of sealed regions -/

/-- A raw string is some hashes, a quote and the tail that these hashes close. -/
theorem rawString?_eq_some_iff {skip : Nat} : rawString? skip t = some n ↔ ∃ hashes body,
      t.drop skip = replicate hashes '#' ++ '"' :: body ∧
        n = skip + hashes + 1 + rawTail hashes body := by
  have hdrop : ∀ s : Text, s.drop (s.takeWhile (· == '#')).length = s.dropWhile (· == '#') := by
    intro s
    conv_lhs => arg 2; rw [← takeWhile_append_dropWhile (p := (· == '#')) (l := s)]
    exact drop_left
  simp only [rawString?, hdrop]
  constructor
  · intro h
    split at h
    · rename_i body hbody
      refine ⟨_, body, ?_, (Option.some.inj h).symm⟩
      rw [← hbody, ← eq_replicate_of_mem (l := (t.drop skip).takeWhile (· == '#'))
        fun x hx => by simpa using mem_takeWhile_imp hx, takeWhile_append_dropWhile]
    · cases h
  · rintro ⟨hashes, body, heq, rfl⟩
    have hall : ∀ x ∈ replicate hashes '#', (x == '#') = true := by
      intro x hx
      simp [eq_of_mem_replicate hx]
    rw [heq, dropWhile_append_of_pos hall, takeWhile_append_of_pos hall]
    simp

/-- What may mark a literal as one of bytes: nothing, or a letter where no name ends. -/
def ByteMark (before mark : Text) : Prop :=
  mark = [] ∨ mark = ['b'] ∧ before.head?.any isWord = false

/-- A sealed region of the length starts a text: a line comment, a block comment, a string, a
character literal or a raw string. -/
inductive SealedAt (before : Text) : Text → Nat → Prop where
  | line {rest : Text} :
    SealedAt before ('/' :: '/' :: rest) (2 + (rest.takeWhile (· != '\n')).length)
  | block {rest : Text} : SealedAt before ('/' :: '*' :: rest) (2 + blockTail rest)
  | string {mark rest : Text} (hmark : ByteMark before mark) :
    SealedAt before (mark ++ '"' :: rest) (mark.length + 1 + stringTail rest)
  | char {mark body rest : Text} (hmark : ByteMark before mark) (hbody : CharBody body) :
    SealedAt before (mark ++ '\'' :: (body ++ '\'' :: rest)) (mark.length + 2 + body.length)
  | raw {mark rest : Text} {hashes : Nat} (hmark : mark = [] ∨ mark = ['b'])
    (hfresh : before.head?.any isWord = false) :
    SealedAt before (mark ++ 'r' :: (List.replicate hashes '#' ++ '"' :: rest))
      (mark.length + 2 + hashes + rawTail hashes rest)

theorem SealedAt.cast {before t' : Text} (h : SealedAt before t n) (ht : t = t')
    (hn : n = n') : SealedAt before t' n' :=
  ht ▸ hn ▸ h

theorem sealedLength?_eq_some_iff {before : Text} :
    sealedLength? ⟨before, t⟩ = some n ↔ SealedAt before t n := by
  constructor
  · intro h
    simp only [sealedLength?] at h
    split at h
    · cases h
      exact .line
    · cases h
      exact .block
    · cases h
      exact (SealedAt.string (.inl rfl)).cast rfl (by simp)
    · obtain ⟨u, ⟨body, hbody, rfl | rfl⟩, ⟨rest, hpre⟩, rfl⟩ := firstAt_charLiteral.1 h
      · exact (@SealedAt.char before [] body rest (.inl rfl) hbody).cast (Eq.trans (by simp) hpre)
          (by simp; omega)
      · cases hpre
    · obtain ⟨hfresh, h⟩ := Option.ite_none_right_eq_some.1 h
      obtain ⟨hashes, body, heq, rfl⟩ := rawString?_eq_some_iff.1 h
      rw [drop_succ_cons, drop_zero] at heq
      exact (SealedAt.raw (.inl rfl) (by simpa using hfresh)).cast (by rw [heq]; rfl)
        (by simp; omega)
    · obtain ⟨hfresh, h⟩ := Option.ite_none_right_eq_some.1 h
      obtain ⟨hashes, body, heq, rfl⟩ := rawString?_eq_some_iff.1 h
      rw [drop_succ_cons, drop_succ_cons, drop_zero] at heq
      exact (SealedAt.raw (.inr rfl) (by simpa using hfresh)).cast (by rw [heq]; rfl)
        (by simp; omega)
    · obtain ⟨hfresh, h⟩ := Option.ite_none_right_eq_some.1 h
      cases h
      exact (SealedAt.string (.inr ⟨rfl, by simpa using hfresh⟩)).cast rfl (by simp)
    · obtain ⟨hfresh, h⟩ := Option.ite_none_right_eq_some.1 h
      obtain ⟨u, ⟨body, hbody, rfl | rfl⟩, ⟨rest, hpre⟩, rfl⟩ := firstAt_charLiteral.1 h
      · cases hpre
      · have hmark : ByteMark before ['b'] := .inr ⟨rfl, by simpa using hfresh⟩
        exact (@SealedAt.char before ['b'] body rest hmark hbody).cast (Eq.trans (by simp) hpre)
          (by simp; omega)
    · cases h
  · intro h
    cases h with
    | line => rfl
    | block => rfl
    | @string mark rest hmark =>
      obtain rfl | ⟨rfl, hfresh⟩ := hmark
      · simp [sealedLength?]
      · simp [sealedLength?, hfresh]
    | @char mark body rest hmark hbody =>
      obtain rfl | ⟨rfl, hfresh⟩ := hmark
      · simp only [sealedLength?, nil_append]
        exact firstAt_charLiteral.2 ⟨_, ⟨body, hbody, .inl rfl⟩, ⟨rest, by simp⟩, by simp; omega⟩
      · simp only [sealedLength?, singleton_append, hfresh, Bool.not_false, if_true]
        exact firstAt_charLiteral.2 ⟨_, ⟨body, hbody, .inr rfl⟩, ⟨rest, by simp⟩, by simp; omega⟩
    | @raw mark rest hashes hmark hfresh =>
      obtain rfl | rfl := hmark
      · simp only [sealedLength?, nil_append, hfresh, Bool.not_false, if_true]
        exact rawString?_eq_some_iff.2 ⟨hashes, rest, rfl, by simp; omega⟩
      · simp only [sealedLength?, singleton_append, hfresh, Bool.not_false, if_true]
        exact rawString?_eq_some_iff.2 ⟨hashes, rest, rfl, by simp; omega⟩

/-! ## Changing what stands around -/

/-- A character that may stand in a part. -/
def isPlain (c : Char) : Bool := !"/\"'#".toList.contains c

theorem exists_append_of_head (opening rest : Text) (hs : s ≠ []) (h : s ++ w = opening ++ rest)
    (hw : ∀ y, w.head? = some y → y ∉ opening.tail) : ∃ s', s = opening ++ s' := by
  obtain ⟨z, rfl, rfl⟩ | ⟨s', rfl, -⟩ := append_eq_append_iff.1 h
  · cases z with
    | nil => exact ⟨[], by simp⟩
    | cons y z =>
      obtain ⟨x, s, rfl⟩ := exists_cons_of_ne_nil hs
      exact absurd (by simp) (hw y rfl)
  · exact ⟨s', rfl⟩

namespace SealedAt

variable {before before' t u r : Text} {n : Nat}

theorem unique (h : SealedAt before t n) (h' : SealedAt before t n') : n = n' :=
  Option.some.inj ((sealedLength?_eq_some_iff.2 h).symm.trans (sealedLength?_eq_some_iff.2 h'))

theorem pos (h : SealedAt before t n) : 0 < n := by
  cases h <;> omega

theorem le (h : SealedAt before t n) : n ≤ t.length := by
  cases h with
  | @line rest =>
    have := (takeWhile_sublist (p := (· != '\n')) (l := rest)).length_le
    simp only [length_cons]
    omega
  | @block rest =>
    have := blockTail_le rest
    simp only [length_cons]
    omega
  | @string mark rest _ =>
    have := stringTail_le rest
    simp only [length_append, length_cons]
    omega
  | char => simp only [length_append, length_cons]; omega
  | @raw mark rest hashes _ _ =>
    have := rawTail_le hashes rest
    simp only [length_append, length_cons, length_replicate]
    omega

/-- Whether a name ends before a place matters only where a byte or raw literal would start. -/
theorem of_before (h : SealedAt before t n)
    (hfresh : t.head? = some 'b' ∨ t.head? = some 'r' → before'.head?.any isWord = false) :
    SealedAt before' t n := by
  have hbyte : ∀ {mark s : Text}, ByteMark before mark → t = mark ++ s → ByteMark before' mark := by
    rintro mark s (rfl | ⟨rfl, -⟩) rfl
    · exact .inl rfl
    · exact .inr ⟨rfl, hfresh (.inl rfl)⟩
  cases h with
  | line => exact .line
  | block => exact .block
  | string hmark => exact .string (hbyte hmark rfl)
  | char hmark hbody => exact .char (hbyte hmark rfl) hbody
  | raw hmark _ =>
    refine .raw hmark (hfresh ?_)
    obtain rfl | rfl := hmark
    · exact .inr rfl
    · exact .inl rfl

/-- A region that starts like a byte or raw literal starts where no name ends. -/
theorem fresh (h : SealedAt before t n) (hhead : t.head? = some 'b' ∨ t.head? = some 'r') :
    before.head?.any isWord = false := by
  cases h with
  | line => simp at hhead
  | block => simp at hhead
  | string hmark =>
    obtain rfl | ⟨rfl, hfresh⟩ := hmark
    · simp at hhead
    · exact hfresh
  | char hmark _ =>
    obtain rfl | ⟨rfl, hfresh⟩ := hmark
    · simp at hhead
    · exact hfresh
  | raw _ hfresh => exact hfresh

/-- A text that is as long as the start of another one it begins has that start. -/
theorem exists_append_of_le {v : Text} (h : u ++ r = s ++ v) (hlen : s.length ≤ u.length) :
    ∃ u', u = s ++ u' ∧ v = u' ++ r := by
  obtain ⟨u', hs, rfl⟩ | ⟨u', rfl, rfl⟩ := append_eq_append_iff.1 h
  · have := congrArg List.length hs
    rw [length_append] at this
    obtain rfl : u' = [] := length_eq_zero_iff.1 (by omega)
    exact ⟨[], by simpa using hs.symm, rfl⟩
  · exact ⟨u', rfl, rfl⟩

theorem head_cases (h : SealedAt before t n) :
    ∃ x, t.head? = some x ∧ (x = '/' ∨ x = '"' ∨ x = '\'' ∨ x = 'b' ∨ x = 'r') := by
  cases h with
  | line => exact ⟨'/', rfl, by decide⟩
  | block => exact ⟨'/', rfl, by decide⟩
  | string hmark =>
    obtain rfl | ⟨rfl, -⟩ := hmark
    · exact ⟨'"', rfl, by decide⟩
    · exact ⟨'b', rfl, by decide⟩
  | char hmark _ =>
    obtain rfl | ⟨rfl, -⟩ := hmark
    · exact ⟨'\'', rfl, by decide⟩
    · exact ⟨'b', rfl, by decide⟩
  | raw hmark _ =>
    obtain rfl | rfl := hmark
    · exact ⟨'r', rfl, by decide⟩
    · exact ⟨'b', rfl, by decide⟩

/-- A run that is as long as the start of a text is that start, and ends there. -/
theorem takeWhile_append_eq {test : Char → Bool} (h : ((u ++ r).takeWhile test).length = u.length) :
    (∀ x ∈ u, test x = true) ∧ r.takeWhile test = [] := by
  have hall : ∀ x ∈ u, test x = true := by
    have hu := take_eq_take_takeWhile h.ge
    rw [take_left, ← h, take_length] at hu
    rw [hu]
    exact fun x hx => mem_takeWhile_imp hx
  refine ⟨hall, length_eq_zero_iff.1 ?_⟩
  rw [takeWhile_append_of_pos hall, length_append] at h
  omega

/-- A closed region ends with a character that is not plain, or is a line comment. It stays a region
whatever follows it; a line comment has to be followed by the end of its line or of the text. -/
theorem closed (hr : r ≠ []) (h : SealedAt before (u ++ r) u.length) :
    ("//".toList <+: u ∨ ∃ x, u.getLast? = some x ∧ isPlain x = false) ∧
      ∀ r', ("//".toList <+: u → r' = [] ∨ r'.head? = some '\n') →
      SealedAt before (u ++ r') u.length := by
  generalize ht : u ++ r = t at h
  generalize hn : u.length = n at h ⊢
  cases h with
  | @line rest =>
    obtain ⟨u, rfl, rfl⟩ := exists_append_of_le (s := ['/', '/']) ht (by simp; omega)
    refine ⟨.inl (prefix_append _ u), fun r' hline => ?_⟩
    have hlen : ((u ++ r).takeWhile (· != '\n')).length = u.length := by
      simp only [cons_append, nil_append, length_cons] at hn
      omega
    have hrun : (u ++ r').takeWhile (· != '\n') = u := by
      rw [takeWhile_append_of_pos (takeWhile_append_eq hlen).1]
      obtain rfl | hr' := hline (prefix_append _ u)
      · simp
      · cases r' with
        | nil => simp
        | cons x r' =>
          cases hr'
          simp
    rw [hlen, ← congrArg List.length hrun]
    exact .line
  | @block rest =>
    obtain ⟨u, rfl, rfl⟩ := exists_append_of_le (s := ['/', '*']) ht (by simp; omega)
    have htail : blockTail (u ++ r) = u.length := by
      simp only [cons_append, nil_append, length_cons] at hn
      omega
    obtain ⟨hlast, hclosed⟩ := blockTail_append hr htail
    refine ⟨.inr ⟨'/', by rw [getLast?_append, hlast]; rfl, by decide⟩, fun r' _ => ?_⟩
    rw [htail, ← hclosed r']
    exact .block
  | @string mark rest hmark =>
    rw [append_cons] at ht
    obtain ⟨u, rfl, rfl⟩ := exists_append_of_le ht (by simp; omega)
    have htail : stringTail (u ++ r) = u.length := by
      simp only [length_append, length_singleton] at hn
      omega
    obtain ⟨hlast, hclosed⟩ := stringTail_append hr htail
    refine ⟨.inr ⟨'"', by rw [getLast?_append, hlast]; rfl, by decide⟩, fun r' _ => ?_⟩
    rw [htail, ← hclosed r']
    exact (SealedAt.string hmark).cast (by simp) rfl
  | @char mark body rest hmark hbody =>
    have ht : u ++ r = (mark ++ '\'' :: (body ++ ['\''])) ++ rest := by simp [ht]
    obtain ⟨u, rfl, rfl⟩ := exists_append_of_le ht (by simp; omega)
    obtain rfl : u = [] := by
      simp only [length_append, length_cons, length_nil] at hn
      exact length_eq_zero_iff.1 (by omega)
    refine ⟨.inr ⟨'\'', by simp [getLast?_append, getLast?_cons], by decide⟩, fun r' _ => ?_⟩
    exact (@SealedAt.char before mark body r' hmark hbody).cast (by simp) rfl
  | @raw mark rest hashes hmark hfresh =>
    have ht : u ++ r = (mark ++ 'r' :: (replicate hashes '#' ++ ['"'])) ++ rest := by
      simp [ht]
    obtain ⟨u, rfl, rfl⟩ := exists_append_of_le ht (by simp; omega)
    have htail : rawTail hashes (u ++ r) = u.length := by
      simp only [length_append, length_cons, length_nil, length_replicate] at hn
      omega
    obtain ⟨⟨x, hlast, hx⟩, hclosed⟩ := rawTail_append hr htail
    refine ⟨.inr ⟨x, by rw [getLast?_append, hlast]; rfl, ?_⟩, fun r' _ => ?_⟩
    · obtain rfl | rfl := hx <;> decide
    · rw [htail, ← hclosed r']
      exact (SealedAt.raw hmark hfresh).cast (by simp) rfl

theorem line_end (h : SealedAt before (u ++ r) u.length) (hu : "//".toList <+: u) :
    r = [] ∨ r.head? = some '\n' := by
  obtain ⟨u, rfl⟩ := hu
  have hlen : u.length + 2 = 2 + ((u ++ r).takeWhile (· != '\n')).length := h.unique .line
  have hrun : ((u ++ r).takeWhile (· != '\n')).length = u.length := by omega
  have hstop := (takeWhile_append_eq hrun).2
  cases r with
  | nil => exact .inl rfl
  | cons x r =>
    by_cases hx : x = '\n'
    · exact .inr (by rw [hx]; rfl)
    · simp [hx] at hstop

theorem block_end (h : SealedAt before (u ++ r) u.length) (hu : "/*".toList <+: u) (hr : r ≠ []) :
    u.getLast? = some '/' := by
  obtain ⟨u, rfl⟩ := hu
  have hlen : u.length + 2 = 2 + blockTail (u ++ r) := h.unique .block
  have htail : blockTail (u ++ r) = u.length := by omega
  rw [getLast?_append, (blockTail_append hr htail).1]
  rfl

/-- The opening of a region lies in a text, unless the text after it, which starts afresh, goes on
with a character of the opening that is not its first. -/
theorem opening_cases (opening rest : Text) (hs : s ≠ []) (hw : StartsAfresh s.getLast? w)
    (h : s ++ w = opening ++ rest) (hinner : ∀ y ∈ opening.tail, isMark y = false ∧
      isWord y = false ∧ y ≠ '\x7b') :
    ∃ s', s = opening ++ s' := by
  refine exists_append_of_head opening rest hs h fun y hy hmem => ?_
  obtain ⟨hmark, hword, hbrace⟩ := hinner y hmem
  exact hw.head_ne hmark hword hbrace hy

theorem of_startsAfresh (v : Text) (hs : s ≠ []) (hw : StartsAfresh s.getLast? w)
    (h : SealedAt before (s ++ w) n) : ∃ m, SealedAt before (s ++ v) m := by
  generalize ht : s ++ w = t at h
  cases h with
  | @line rest =>
    obtain ⟨s', rfl⟩ := opening_cases ['/', '/'] rest hs hw ht (by decide)
    exact ⟨_, .line⟩
  | @block rest =>
    obtain ⟨s', rfl⟩ := opening_cases ['/', '*'] rest hs hw ht (by decide)
    exact ⟨_, .block⟩
  | @string mark rest hmark =>
    obtain ⟨s', rfl⟩ := opening_cases (mark ++ ['"']) rest hs hw (by simp [ht]) (by
      obtain rfl | ⟨rfl, -⟩ := hmark <;> decide)
    exact ⟨_, (@SealedAt.string before mark (s' ++ v) hmark).cast (by simp) rfl⟩
  | @char mark body rest hmark hbody =>
    have hlit : IsCharLiteral (mark ++ '\'' :: (body ++ ['\''])) := by
      obtain rfl | ⟨rfl, -⟩ := hmark
      · exact ⟨body, hbody, .inl rfl⟩
      · exact ⟨body, hbody, .inr rfl⟩
    obtain ⟨s', rfl⟩ := hlit.prefix_of_startsAfresh hs hw ⟨rest, by rw [ht]; simp⟩
    exact ⟨_, (@SealedAt.char before mark body (s' ++ v) hmark hbody).cast (by simp) rfl⟩
  | @raw mark rest hashes hmark hfresh =>
    -- the mark of a byte literal is a name, so what starts afresh after it is not the `r`
    obtain ⟨s', rfl, hs'⟩ : ∃ s', s = mark ++ s' ∧ s' ≠ [] := by
      obtain rfl | rfl := hmark
      · exact ⟨s, rfl, hs⟩
      · obtain ⟨y, s, rfl⟩ := exists_cons_of_ne_nil hs
        obtain ⟨rfl, htail⟩ := cons.inj ht
        refine ⟨s, rfl, ?_⟩
        rintro rfl
        have hhead : w.head? = some 'r' := congrArg List.head? htail
        obtain hmark | ⟨hprev, -⟩ := hw.head_cases hhead
        · exact absurd hmark (by decide)
        · exact absurd hprev (by decide)
    rw [append_assoc, append_cancel_left_eq] at ht
    rw [getLast?_append_of_ne_nil _ hs'] at hw
    obtain ⟨s', rfl⟩ := opening_cases ('r' :: (replicate hashes '#' ++ ['"'])) rest hs' hw
      (by simp [ht]) (by
        intro y hy
        simp only [tail_cons, mem_append, mem_replicate, mem_singleton] at hy
        obtain ⟨-, rfl⟩ | rfl := hy <;> decide)
    exact ⟨_, (@SealedAt.raw before mark (s' ++ v) hashes hmark hfresh).cast (by simp) rfl⟩

end SealedAt

end AnchorLowering.Source
