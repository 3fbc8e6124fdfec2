import AnchorLowering.Proofs.Bracketing
import AnchorLowering.Proofs.MarkedEdit

/-!
# What the lowering of calls edits

Each call of another program is replaced, and the bindings that go with it are removed
(`callEdits`). All these edits start where a name starts and stop after a bracket, a question mark
or a semicolon, and what they write ends so too: they cut no name (`cutsNoName_callEdits`).
-/

namespace AnchorLowering

open List Pattern Source

variable {call : Call} {e : Edit} {lowered : LoweredCall} {ms : Marked} {depth k : Nat} {s : Span}
  {p : Char → Bool}
  {a b : Text} {t : CallTarget} {α : Type}

/-! ## Patterns that open a name -/

namespace Pattern

variable {α β : Type}

/-- The pattern matches only where no name runs up to the place. -/
def OpensWord (p : Pattern α) : Prop := ∀ c : Cursor, p c ≠ [] → c.before.head?.any isWord = false

theorem opensWord_wordBoundary {f : Unit → Pattern β} (hf : StartsWithWord (f ())) :
    OpensWord (wordBoundary >>= f) := by
  intro c hc
  obtain ⟨r, hr⟩ := exists_mem_of_ne_nil _ hc
  obtain ⟨s, hs, k, hk, -⟩ := mem_bind.1 hr
  obtain ⟨hne, hzero⟩ := mem_wordBoundary.1 hs
  have hword := hf _ (ne_nil_of_mem hk)
  rw [hzero, Cursor.advance_zero] at hword
  rw [hword] at hne
  exact Bool.eq_false_iff.2 hne

theorem OpensWord.star_bind {p : Pattern α} {f : Unit → Pattern β} (hp : OpensWord p)
    (hf : OpensWord (f ())) :
    OpensWord (star p >>= f) := by
  intro c hc
  obtain ⟨r, hr⟩ := exists_mem_of_ne_nil _ hc
  obtain ⟨s, hs, k, hk, -⟩ := mem_bind.1 hr
  have hs := mem_star.1 hs
  cases hlen : c.after.length with
  | zero =>
    rw [hlen] at hs
    rw [mem_singleton.1 hs, Cursor.advance_zero] at hk
    exact hf c (ne_nil_of_mem hk)
  | succ bound =>
    rw [hlen, mem_starUpTo_succ] at hs
    rcases hs with ⟨q, hq, -⟩ | hzero
    · exact hp c (ne_nil_of_mem hq)
    · rw [hzero, Cursor.advance_zero] at hk
      exact hf c (ne_nil_of_mem hk)

theorem OpensWord.before_of_firstAt {p : Pattern α} (hp : OpensWord p) {c : Cursor} {r : α × Nat}
    (h : p.firstAt c = some r) : c.before.head?.any isWord = false :=
  hp c (ne_nil_of_mem (mem_of_mem_head? h))

end Pattern

/-! ## Places after which nothing goes on -/

namespace Source

/-- No character of the class stands right before the place. -/
def ClearBefore (p : Char → Bool) (t : Text) (place : Nat) : Prop :=
  place ≤ t.length ∧ (t.take place).getLast?.any p = false

/-- The class has none of the characters that end a call, a statement or a block. -/
structure GoesOn (p : Char → Bool) : Prop where
  closer : ∀ x, isCloser x = true → p x = false
  question : p '?' = false
  semicolon : p ';' = false

theorem goesOn_isWord : GoesOn isWord where
  closer := by
    intro x hx
    rcases isCloser_iff.1 hx with rfl | rfl | rfl <;> decide
  question := by decide
  semicolon := by decide

section

variable {p : Char → Bool} {t : Text} {place : Nat}

theorem clearBefore_succ {x : Char} (h : t[place]? = some x) (hx : p x = false) :
    ClearBefore p t (place + 1) := by
  obtain ⟨hlt, rfl⟩ := List.getElem?_eq_some_iff.1 h
  refine ⟨hlt, ?_⟩
  rw [take_succ_eq_append_getElem hlt, List.getLast?_concat]
  exact hx

theorem clearBefore_append {u v : Text} (h : u.getLast?.any p = false) :
    ClearBefore p (u ++ v) u.length :=
  ⟨by simp, by rwa [take_left]⟩

theorem ClearBefore.take_marked (h : ClearBefore p t place) :
    ((marked t).take place).getLast?.any (onChar p) = false := by
  rw [← getLast?_map_fst, map_take, map_fst_marked, h.2]

theorem cutsNoName_of_clearBefore (hlt : e.start < e.stop) (hstart : ClearBefore isWord t e.start)
    (hstop : ClearBefore isWord t e.stop) (hwritten : e.replacement.getLast?.any isWord = false) :
    CutsNoName (marked t) e where
  start_lt_stop := hlt
  stop_le := by
    rw [length_marked]
    exact hstop.1
  before := hstart.take_marked
  through := hstop.take_marked
  written := by rw [← getLast?_map_fst, map_fst_marked, hwritten]

/-- A partner is a closer in code. -/
theorem exists_closer_of_partnerOffset (h : partnerOffset depth ms = some k) :
    ∃ x, ms[k]? = some (x, true) ∧ isCloser x = true := by
  induction ms generalizing depth k with
  | nil => cases h
  | cons m ms ih =>
    obtain ⟨x, code⟩ := m
    have hlater : ∀ {depth}, (partnerOffset depth ms).map (· + 1) = some k →
        ∃ y, ((x, code) :: ms)[k]? = some (y, true) ∧ isCloser y = true := by
      intro depth h
      obtain ⟨j, hj, rfl⟩ := Option.map_eq_some_iff.1 h
      exact ih hj
    unfold partnerOffset at h
    split at h
    · exact hlater h
    · split at h
      · rename_i hclose
        rw [Bool.and_eq_true] at hclose
        split at h
        · cases h
        · obtain rfl := Option.some.inj h
          exact ⟨x, by rw [hclose.1]; rfl, hclose.2⟩
        · exact hlater h
      · exact hlater h

/-- A statement ends with a semicolon in code. -/
theorem getElem?_of_semicolonOffset (h : semicolonOffset depth ms = some k) :
    ms[k]? = some (';', true) := by
  induction ms generalizing depth k with
  | nil => cases h
  | cons m ms ih =>
    obtain ⟨x, code⟩ := m
    have hlater : ∀ {depth}, (semicolonOffset depth ms).map (· + 1) = some k →
        ((x, code) :: ms)[k]? = some (';', true) := by
      intro depth h
      obtain ⟨j, hj, rfl⟩ := Option.map_eq_some_iff.1 h
      exact ih hj
    unfold semicolonOffset at h
    split at h
    · exact hlater h
    · split at h
      · split at h
        · cases h
        · exact hlater h
      · split at h
        · rename_i hend
          simp only [Bool.and_eq_true, beq_iff_eq] at hend
          obtain rfl := Option.some.inj h
          rw [hend.1.1, hend.1.2]
          rfl
        · exact hlater h

theorem getElem?_of_marked {m : Char × Bool} {i : Nat} (h : (marked t)[i]? = some m) :
    t[i]? = some m.1 := by
  have := congrArg (Option.map (·.1)) h
  rwa [← getElem?_map, map_fst_marked] at this

theorem exists_closer_of_matchingClose {close : Nat} (h : matchingClose t place = some close) :
    ∃ x, (marked t)[close]? = some (x, true) ∧ isCloser x = true := by
  obtain ⟨offset, hoffset, rfl⟩ := Option.map_eq_some_iff.1 h
  obtain ⟨x, hx, hclose⟩ := exists_closer_of_partnerOffset hoffset
  rw [getElem?_drop, Nat.add_comm] at hx
  exact ⟨x, hx, hclose⟩

theorem clearBefore_afterMark? {mark : Char} (hmark : p mark = false) (h : ClearBefore p t place) :
    ClearBefore p t ((afterMark? t mark place).getD place) := by
  rw [afterMark?]
  by_cases hthere : t[skipBlanks t place]? == some mark
  · rw [if_pos hthere]
    exact clearBefore_succ (beq_iff_eq.1 hthere) hmark
  · rw [if_neg hthere]
    exact h

/-- A call stops after its closer, its question mark or its semicolon. -/
theorem clearBefore_stop_of_callWithHead? (hp : GoesOn p) {takeSuffix : Bool} {start headStop : Nat}
    (h : callWithHead? t takeSuffix start headStop = some call) : ClearBefore p t call.stop := by
  simp only [callWithHead?, Option.bind_eq_bind] at h
  split at h
  · cases h
  · obtain ⟨close, hclose, hcall⟩ := Option.bind_eq_some_iff.1 h
    obtain ⟨x, hx, hcloser⟩ := exists_closer_of_matchingClose hclose
    have hclear : ClearBefore p t (close + 1) :=
      clearBefore_succ (getElem?_of_marked hx) (hp.closer x hcloser)
    obtain rfl := Option.some.inj hcall
    show ClearBefore p t (if takeSuffix = true then readSuffix t (close + 1) else (false, false,
        close + 1)).2.2
    split
    · exact clearBefore_afterMark? hp.semicolon (clearBefore_afterMark? hp.question hclear)
    · exact hclear

theorem clearBefore_start_of_mem_findCalls {head : Pattern α} (hhead : OpensWord head)
    (h : call ∈ findCalls head t) : ClearBefore isWord t call.start := by
  obtain ⟨u, v, r, rfl, -, hr, hwith⟩ := exists_head_of_mem_findCallsWith h
  rw [(lt_stop_of_callWithHead? hwith).1]
  refine clearBefore_append ?_
  rw [← head?_reverse]
  exact hhead.before_of_firstAt hr

theorem clearBefore_stop_of_mem_findCalls (hp : GoesOn p) {head : Pattern α}
    (h : call ∈ findCalls head t) : ClearBefore p t call.stop := by
  obtain ⟨u, v, r, rfl, -, -, hwith⟩ := exists_head_of_mem_findCallsWith h
  exact clearBefore_stop_of_callWithHead? hp hwith

end

/-! ## Bindings -/

namespace Binding

theorem opensWord_head (name : Text) : OpensWord (head name) :=
  opensWord_wordBoundary (StartsWithWord.lit (by decide)).bind

variable {t name : Text} {b : Binding}

theorem clearBefore_start_of_mem_all (h : b ∈ all t name) : ClearBefore isWord t b.start := by
  obtain ⟨m, hm, hb⟩ := mem_filterMap.1 h
  obtain ⟨u, v, n, rfl, hstart, -, hfirst⟩ := mem_matchesFrom (mem_filter.1 hm).1
  have hbefore := (opensWord_head name).before_of_firstAt hfirst
  rw [append_nil, head?_reverse] at hbefore
  rw [length_nil, Nat.zero_add] at hstart
  rw [(ofHead?_eq_some hb).1, hstart]
  exact clearBefore_append hbefore

theorem clearBefore_stop_of_mem_all (hp : GoesOn p) (h : b ∈ all t name) :
    ClearBefore p t b.stop := by
  obtain ⟨m, -, hb⟩ := mem_filterMap.1 h
  obtain ⟨semicolon, hend, heq⟩ := Option.bind_eq_some_iff.1 hb
  obtain ⟨offset, hoffset, rfl⟩ := Option.map_eq_some_iff.1 hend
  obtain rfl := Option.some.inj heq
  have hmark := getElem?_of_semicolonOffset hoffset
  rw [getElem?_drop, Nat.add_comm] at hmark
  exact clearBefore_succ (getElem?_of_marked hmark) hp.semicolon

/-- The first binding of a name is one of its bindings. -/
theorem mem_all_of_find? (h : find? t name = some b) : b ∈ all t name :=
  mem_of_mem_head? (head?_all_of_find? h)

end Binding

end Source

namespace Lowering

/-! ## The edits -/

/-- What the calls of a body become, with the calls. -/
def loweredCalls (c : Context) (body : Text) : List (Call × LoweredCall) :=
  lowerCalls c body 0 (findTargetCalls body)

/-- The stretches of the bindings that go with the calls of a body. -/
def removedSpans (c : Context) (body : Text) : List Span :=
  (loweredCalls c body).flatMap (·.2.removed)

/-- The edits for the calls of a body: each call is replaced, and bindings go with it. -/
def callEdits (c : Context) (body : Text) : List Edit :=
  (loweredCalls c body).map (fun e => ⟨e.1.start, e.1.stop, e.2.replacement⟩) ++
    (removedSpans c body).map fun s => ⟨s.1, s.2, []⟩

theorem lowerProgramCalls_eq (c : Context) (body : Text) :
    lowerProgramCalls c body = Edit.apply (lowerBalances body)
      (callEdits c (lowerBalances body)) := rfl

section

variable {c : Context} {body : Text}

theorem mem_callEdits_of_call (h : (call, lowered) ∈ loweredCalls c body) :
    ⟨call.start, call.stop, lowered.replacement⟩ ∈ callEdits c body :=
  mem_append_left _ (mem_map_of_mem h)

theorem mem_callEdits_of_removed (h : s ∈ removedSpans c body) :
    ⟨s.1, s.2, []⟩ ∈ callEdits c body :=
  mem_append_right _ (mem_map_of_mem h)

/-- A call that is edited was found with the head of a target. -/
theorem exists_target_of_mem_loweredCalls (h : (call, lowered) ∈ loweredCalls c body) :
    ∃ t ∈ callTargets, ∃ k, call ∈ findCalls t.head body ∧
    lowered = t.lowerOrMark c body call k := by
  obtain ⟨t, k, hmem, rfl⟩ := mem_lowerCalls h
  rw [findTargetCalls, mem_mergeSort] at hmem
  obtain ⟨target, htarget, hmem⟩ := mem_flatMap.1 hmem
  obtain ⟨found, hfound, heq⟩ := mem_map.1 hmem
  obtain ⟨rfl, rfl⟩ := Prod.mk.inj heq
  exact ⟨target, htarget, k, hfound, rfl⟩

theorem loweredCalls_of_single
    (hcalls : (callTargets.flatMap fun t => (findCalls t.head body).map fun call => (call, t)) =
      [(call, t)]) :
    loweredCalls c body = [(call, t.lowerOrMark c body call 0)] := by
  rw [loweredCalls, findTargetCalls, hcalls, mergeSort_singleton]
  rfl

/-- **What is removed are bindings**, each the first of its name. -/
theorem firstOfName_of_mem_removedSpans (h : s ∈ removedSpans c body) :
    ∃ b, FirstOfName body b ∧ s = (b.start, b.stop) := by
  obtain ⟨⟨call, lowered⟩, hlowered, hs⟩ := mem_flatMap.1 h
  obtain ⟨t, k, -, rfl⟩ := mem_lowerCalls hlowered
  exact CallTarget.firstOfName_of_mem_removed hs

end

/-! ## What an instruction ends with -/

section

variable {p : Char → Bool}

theorem getLast?_append_of_ne_nil_any (hne : b ≠ []) (hb : b.getLast?.any p = false) :
    (a ++ b).getLast?.any p = false := by
  rw [getLast?_append_of_ne_nil _ hne, hb]

theorem getLast?_braces (hp : GoesOn p) (inner : Text) : (braces inner).getLast?.any p = false := by
  have hbraces : braces inner = ("\x7b ".toList ++ inner ++ " ".toList) ++ ['\x7d'] := by
    simp [braces, Text.concat]
  rw [hbraces, List.getLast?_concat]
  exact hp.closer _ rfl

/-- The suffix of a call, with a closer before it. -/
theorem getLast?_suffix (hp : GoesOn p) (a : Text) (call : Call) :
    (a ++ (')' :: call.suffix)).getLast?.any p = false := by
  refine getLast?_append_of_ne_nil_any (cons_ne_nil _ _) ?_
  cases htry : call.hasTry <;> cases hend : call.hasSemicolon <;> simp only [Call.suffix,
    htry, hend]
  · exact hp.closer _ rfl
  · exact hp.semicolon
  · exact hp.question
  · exact hp.semicolon

/-- The last of the joined texts ends the whole. -/
theorem suffix_join (separator : Text) (parts : List Text) (last : Text) :
    last <:+ Text.join separator (parts ++ [last]) := by
  induction parts with
  | nil => simp [Text.join]
  | cons part parts ih =>
    have hjoin : Text.join separator (part :: (parts ++ [last])) =
        part ++ (separator ++ Text.join separator (parts ++ [last])) := by
      cases parts <;> simp [Text.join, intercalate_cons_cons]
    rw [cons_append, hjoin]
    exact (ih.trans (suffix_append _ _)).trans (suffix_append _ _)

theorem CallTarget.Issues.getLast? (hp : GoesOn p) {accounts : List (String × Text)} {amount : Text}
    {text : Text} (h : t.Issues accounts amount call.suffix text) :
    text.getLast?.any p = false := by
  cases h with
  | inPlace hsystem => exact getLast?_braces hp _
  | invoked =>
    have htext : Text.concat [t.instruction accounts amount, ".invoke()", call.suffix] =
        (t.instruction accounts amount ++ ".invoke(".toList) ++ (')' :: call.suffix) := by
      simp [Text.concat]
    rw [htext]
    exact getLast?_suffix hp _ call
  | signed signer seeds bump =>
    have htext : ∀ name : Text,
        Text.concat [t.instruction accounts amount, ".invoke_signed(&[", name, "])", call.suffix] =
          (t.instruction accounts amount ++ ".invoke_signed(&[".toList ++ name ++ "]".toList) ++
            (')' :: call.suffix) := by
      intro name
      simp [Text.concat]
    simp only [invokeSigned, append_cons _ _ [_, _], append_cons _ _ [_]]
    obtain ⟨w, hw⟩ := suffix_join " ".toList _ _
    rw [← hw, htext, ← append_assoc]
    exact getLast?_suffix hp _ call

/-- What is written for a call ends with a bracket, a question mark, a semicolon or the end of a
comment. -/
theorem CallTarget.getLast?_replacement (hp : GoesOn p) (hslash : p '/' = false) (t : CallTarget)
    (c : Context) (body : Text) (call : Call) (k : Nat) :
    (t.lowerOrMark c body call k).replacement.getLast?.any p = false := by
  rw [lowerOrMark]
  cases hlower : t.lower? c body call k with
  | none => exact getLast?_append_of_ne_nil_any (cons_ne_nil _ _) hslash
  | some lowered =>
    obtain ⟨_, _, _, _, _, _, _, _, hissues, _⟩ := lower?_cases hlower
    exact hissues.getLast? hp

end

/-! ## Edits that cut no name -/

theorem opensWord_head (h : t ∈ callTargets) : OpensWord t.head := by
  have hprogram : (t.program.toList.head?.any isWord) = true := by
    revert t
    decide
  refine OpensWord.star_bind (opensWord_wordBoundary StartsWithWord.word.bind)
    (opensWord_wordBoundary ?_)
  exact StartsWithWord.bind (p := tokens _) (StartsWithWord.lit hprogram).bind

/-- **The edits for the calls of a body cut no name.** -/
theorem cutsNoName_callEdits {c : Context} {body : Text} (h : e ∈ callEdits c body) :
    CutsNoName (marked body) e := by
  rcases mem_append.1 h with h | h
  · obtain ⟨⟨call, lowered⟩, hlowered, rfl⟩ := mem_map.1 h
    obtain ⟨t, ht, k, hcall, rfl⟩ := exists_target_of_mem_loweredCalls hlowered
    exact cutsNoName_of_clearBefore (start_lt_stop_of_mem_findCalls hcall)
      (clearBefore_start_of_mem_findCalls (opensWord_head ht) hcall)
      (clearBefore_stop_of_mem_findCalls goesOn_isWord hcall)
      (t.getLast?_replacement goesOn_isWord (by decide) c body call k)
  · obtain ⟨s, hs, rfl⟩ := mem_map.1 h
    obtain ⟨b, hb, rfl⟩ := firstOfName_of_mem_removedSpans hs
    have hmem := Binding.mem_all_of_find? hb.2
    exact cutsNoName_of_clearBefore hb.start_lt_stop (Binding.clearBefore_start_of_mem_all hmem)
      (Binding.clearBefore_stop_of_mem_all goesOn_isWord hmem) rfl

end Lowering

end AnchorLowering
