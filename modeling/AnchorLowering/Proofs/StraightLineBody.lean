import AnchorLowering.Proofs.StateRule

/-!
# Straight-line bodies

A straight-line body binds locals to accounts, each on a line of its own, and accesses fields
through them. Its text is read back as it was put together.
-/

namespace AnchorLowering.Lowering

open List Pattern Source

variable {x : Char} {t u g : Text} {s : AliasLine}

/-! ## Straight-line bodies -/

/-- A character that may stand between accesses: it belongs to no name, no call, no literal and no
borrow. -/
def isNeutral (x : Char) : Bool :=
  !isWord x && !isQuoting x && x != '.' && x != '(' && x != ')' && x != '&'

/-- A statement that binds a local to an account, with the rest of its line. -/
structure AliasLine where
  indent : Text
  name : Text
  account : Text
  trail : Text
  deriving DecidableEq

/-- An access to a field through a local, with what stands between it and the next one. -/
@[ext]
structure Access where
  lead : Text
  receiver : Text
  field : Text
  tail : Text
  deriving DecidableEq

/-- The parts of a straight-line body. -/
inductive BodyItem where
  | binding (s : AliasLine)
  | access (a : Access)
  deriving DecidableEq

/-- What a binding binds. -/
def AliasLine.bound (s : AliasLine) : Text :=
  "let ".toList ++ (s.name ++ (" = &mut ".toList ++ (s.account ++ [';'])))

def AliasLine.text (s : AliasLine) : Text := s.indent ++ (s.bound ++ (s.trail ++ ['\n']))

def Access.text (a : Access) : Text := a.lead ++ (a.receiver ++ '.' :: (a.field ++ a.tail))

def BodyItem.text : BodyItem → Text
  | binding s => s.text
  | access a => a.text

/-- The text of a body. -/
def bodyText (body : List BodyItem) : Text := body.flatMap BodyItem.text

/-- The text of accesses only. -/
def accessesText (accesses : List Access) : Text := accesses.flatMap Access.text

/-- The names are names, and the statement has its line for itself. -/
@[mk_iff]
structure AliasLine.Plain (s : AliasLine) : Prop where
  indent : ∀ x ∈ s.indent, isLineBlank x = true
  name : IsName s.name
  name_ne : s.name ≠ "mut".toList
  account : IsName s.account
  trail : ∀ x ∈ s.trail, isLineBlank x = true

/-- The names are names, and something other than a blank parts the access from the next name. -/
@[mk_iff]
structure Access.Plain (a : Access) : Prop where
  lead : ∀ x ∈ a.lead, isBlank x = true
  receiver : IsName a.receiver
  field : IsName a.field
  tail : ∀ x ∈ a.tail, isNeutral x = true
  solid : ∃ x ∈ a.tail, isBlank x = false
  ends : a.tail.getLast?.any isLineBlank = false

def BodyItem.Plain : BodyItem → Prop
  | binding s => s.Plain
  | access a => a.Plain

instance (s : AliasLine) : Decidable s.Plain := decidable_of_iff _ (AliasLine.plain_iff ..).symm

instance (a : Access) : Decidable a.Plain := decidable_of_iff _ (Access.plain_iff ..).symm

instance (item : BodyItem) : Decidable item.Plain :=
  match item with
  | .binding s => inferInstanceAs (Decidable s.Plain)
  | .access a => inferInstanceAs (Decidable a.Plain)

/-- The bindings of a body, in order. -/
def bindings (body : List BodyItem) : List AliasLine :=
  body.filterMap fun item =>
    match item with
    | .binding s => some s
    | .access _ => none

/-- The accesses of a body, in order. -/
def accesses (body : List BodyItem) : List Access :=
  body.filterMap fun item =>
    match item with
    | .binding _ => none
    | .access a => some a

/-! ## Where bindings start -/

theorem isNeutral_iff : isNeutral x = true ↔
    isWord x = false ∧ isQuoting x = false ∧ x ≠ '.' ∧ x ≠ '(' ∧ x ≠ ')' ∧ x ≠ '&' := by
  simp [isNeutral, and_assoc]

/-- A binding starts in the text, after blanks of its line. -/
def OpensBinding (t : Text) : Prop :=
  ∃ g k w, (∀ x ∈ g, isLineBlank x = true) ∧ k ≠ [] ∧ (∀ x ∈ k, isBlank x = true) ∧
  w.head?.any isWord = true ∧
    t = g ++ ("let".toList ++ (k ++ w))

/-- No binding starts in the text, with `rest` after it. -/
def OpensNowhere (t rest : Text) : Prop := ∀ v w, t = v ++ w → w ≠ [] → ¬ OpensBinding (w ++ rest)

theorem OpensNowhere.append {rest : Text} (ht : OpensNowhere t (u ++ rest))
    (hu : OpensNowhere u rest) :
    OpensNowhere (t ++ u) rest := by
  intro v w hsplit hw
  rcases append_eq_append_iff.1 hsplit with ⟨k, rfl, hk⟩ | ⟨k, hk, rfl⟩
  · exact hu k w hk hw
  · by_cases hnil : k = []
    · subst hnil
      exact hu [] _ rfl hw
    · rw [append_assoc]
      exact ht v k hk hnil

theorem word_let : ∀ x ∈ "let".toList, isWord x = true := by decide

/-- A name that a dot follows is no keyword of a binding. -/
theorem not_opensBinding_dotted {r z : Text} (hg : Blank g) (hr : IsName r) :
    ¬ OpensBinding (g ++ (r ++ '.' :: z)) := by
  rintro ⟨g', k, w, hg', hne, hk, -, heq⟩
  obtain ⟨y, k, rfl⟩ := exists_cons_of_ne_nil hne
  have hy := hk y mem_cons_self
  have hname := (append_inj_of_class hg (fun x hx => isBlank_of_isLineBlank (hg' x hx))
    (not_blank_append hr.head? _)
    rfl heq).2
  have hdot := (append_inj_of_class (s := '.' :: z) (t := y :: k ++ w) hr.word word_let rfl
    (by simpa using isWord_of_isBlank hy) hname).2
  rw [← (cons.inj hdot).1] at hy
  cases hy

variable {a : Access}

/-- What follows an access starts with a character that is neither a blank nor part of a name. -/
theorem Access.Plain.tail_split (h : a.Plain) :
    ∃ g x t, a.tail = g ++ x :: t ∧ Blank g ∧ isBlank x = false ∧ isNeutral x = true := by
  obtain ⟨x, hx, hblank⟩ := h.solid
  obtain ⟨y, t, hdrop⟩ : ∃ y t, a.tail.dropWhile isBlank = y :: t := by
    refine exists_cons_of_ne_nil fun hnil => ?_
    rw [dropWhile_eq_nil_iff.1 hnil x hx] at hblank
    cases hblank
  have hsplit : a.tail = a.tail.takeWhile isBlank ++ y :: t := by
    rw [← hdrop, takeWhile_append_dropWhile]
  refine ⟨_, y, t, hsplit, fun z hz => mem_takeWhile_imp hz, ?_, h.tail y (by rw [hsplit]; simp)⟩
  have := head?_dropWhile_not isBlank a.tail
  rw [hdrop] at this
  simpa using this

theorem Access.Plain.opensNowhere (h : a.Plain) (rest : Text) : OpensNowhere a.text rest := by
  refine .append ?_ (.append ?_ ?_)
  · intro v w hsplit _
    have hw : Blank w := fun x hx => h.lead x (by rw [hsplit]; exact mem_append_right v hx)
    simpa using not_opensBinding_dotted (z := a.field ++ a.tail ++ rest) hw h.receiver
  · intro v w hsplit hne
    have hw : IsName w :=
      ⟨hne, fun x hx => h.receiver.word x (by rw [hsplit]; exact mem_append_right v hx)⟩
    simpa using not_opensBinding_dotted (g := []) (z := a.field ++ a.tail ++ rest) (by simp) hw
  · rw [← singleton_append]
    refine .append ?_ (.append ?_ ?_)
    · intro v w hsplit hne
      obtain rfl : w = ['.'] := by
        rcases append_eq_singleton_iff.1 hsplit.symm with ⟨-, rfl⟩ | ⟨-, rfl⟩
        · rfl
        · exact absurd rfl hne
      rintro ⟨g, k, w, hg, -, -, -, heq⟩
      cases g with
      | nil => exact absurd (cons.inj heq).1 (by decide)
      | cons y g =>
        have hy := hg y mem_cons_self
        rw [← (cons.inj heq).1] at hy
        cases hy
    · -- a field of the name `let` has a character after it that starts no name
      intro v w hsplit hne
      have hw : IsName w :=
        ⟨hne, fun x hx => h.field.word x (by rw [hsplit]; exact mem_append_right v hx)⟩
      obtain ⟨g', x, t, htail, hg', hx, hneutral⟩ := h.tail_split
      have hend : (a.tail ++ rest).head?.any isWord = false := by
        rw [htail, append_assoc, cons_append]
        exact head?_gap hg' (isNeutral_iff.1 hneutral).1 _
      rintro ⟨g, k, w', hg, hk, hblank, hhead, heq⟩
      obtain rfl : [] = g :=
        (append_inj_of_class (u := []) (by simp) (fun x hx => isBlank_of_isLineBlank (hg x hx))
        (not_blank_append hw.head? _) rfl heq).1
      obtain ⟨y, k', rfl⟩ := exists_cons_of_ne_nil hk
      have hnext := (append_inj_of_class (t := y :: k' ++ w') hw.word word_let hend
        (by simpa using isWord_of_isBlank (hblank y mem_cons_self)) heq).2
      have hblank' : w'.head?.any isBlank = false := by
        cases w' with
        | nil => cases hhead
        | cons z w' => exact isBlank_of_isWord hhead
      rw [htail, append_assoc] at hnext
      have hsame := (append_inj_of_class hg' hblank (by simpa using hx) hblank' hnext).2
      rw [← hsame] at hhead
      rw [show (x :: t ++ rest).head?.any isWord = isWord x from rfl, (isNeutral_iff.1 hneutral).1]
        at hhead
      cases hhead
    · -- the blanks before a binding do not reach back into what ends otherwise
      intro v w hsplit hne
      rintro ⟨g, k, w', hg, -, -, -, heq⟩
      rcases append_eq_append_iff.1 heq with ⟨m, rfl, -⟩ | ⟨m, rfl, hm⟩
      · have hends := h.ends
        rw [hsplit, getLast?_append_of_ne_nil _ hne, getLast?_eq_some_getLast hne] at hends
        rw [Option.any_some, hg _ (mem_append_left m (getLast_mem hne))] at hends
        cases hends
      · cases m with
        | nil =>
          rw [append_nil] at hsplit hne
          have hends := h.ends
          rw [hsplit, getLast?_append_of_ne_nil _ hne, getLast?_eq_some_getLast hne] at hends
          rw [Option.any_some, hg _ (getLast_mem hne)] at hends
          cases hends
        | cons y m =>
          have hy := (isNeutral_iff.1 (h.tail y (by rw [hsplit]; simp))).1
          rw [← (cons.inj hm).1] at hy
          cases hy

/-- A binding is its keyword and a name, and more. -/
theorem opensBinding_of_way {α : Type} {f : Unit → Text → Pattern α} {before rest : Text} {e : α}
    (hg : ∀ x ∈ g, isLineBlank x = true)
    (h : Way (letKeyword >>= fun a => capture word >>= fun name => f a name) before e u rest) :
    OpensBinding (g ++ (u ++ rest)) := by
  obtain ⟨_, _, _, rfl, hlet, h⟩ := way_bind.1 h
  obtain ⟨k, m, rfl, ⟨hne, hk⟩, hm⟩ := letKeyword_of_way hlet
  obtain ⟨_, name, r, rfl, hway, -⟩ := way_bind.1 h
  obtain ⟨rfl, hname⟩ := isName_of_way_word hway
  refine ⟨g, k, m ++ (name ++ (r ++ rest)), hg, hne, hk, ?_, by simp⟩
  rcases hm with rfl | ⟨k', -, rfl⟩
  · rw [nil_append, head?_append_of_ne_nil _ hname.ne_nil]
    exact hname.head?
  · rfl

theorem opensBinding_of_aliasBinding {before : Text} (h : Context.aliasBinding ⟨before, t⟩ ≠ []) :
    OpensBinding t := by
  obtain ⟨e, u, rest, rfl, hway⟩ := (ne_nil_iff_way bounded_aliasBinding).1 h
  exact opensBinding_of_way (g := []) (by simp) hway

theorem opensBinding_of_dropAlias {c : Context} {aliases : Table Text} {before : Text}
    (h : dropAlias c aliases ⟨before, t⟩ ≠ []) : OpensBinding t := by
  obtain ⟨v, u, rest, rfl, hway⟩ := (ne_nil_iff_way (bounded_dropAlias c aliases)).1 h
  obtain ⟨-, e, halias⟩ := way_dropAlias hway
  obtain ⟨_, g, _, rfl, hg, halias⟩ := way_bind.1 halias
  simpa using opensBinding_of_way (way_many.1 hg) halias

/-! ## Reading a binding -/

section

variable {s : AliasLine} (hs : s.Plain) {before : Text} (hbefore : before.head?.any isWord = false)
  (rest : Text)

include hs hbefore in
theorem AliasLine.Plain.head?_indent : (s.indent.reverse ++ before).head?.any isWord = false := by
  cases hlast : s.indent.reverse with
  | nil => exact hbefore
  | cons x t =>
    have hx := hs.indent x (by rw [← mem_reverse, hlast]; exact mem_cons_self)
    exact isWord_of_isBlank (isBlank_of_isLineBlank hx)

include hs hbefore in
theorem AliasLine.Plain.prefers_letKeyword :
    Prefers letKeyword before () "let ".toList (s.name ++ (" = &mut ".toList ++ rest)) := by
  have hspace : ∀ x ∈ [' '], isBlank x = true := by decide
  have hmut : (do lit "mut"; blanks1 : Pattern Unit) ⟨[' '] ++ ("let".toList.reverse ++ before),
      s.name ++ (" = &mut ".toList ++ rest)⟩ = [] := by
    by_contra hne
    have hbounded : Bounded (do lit "mut"; blanks1 : Pattern Unit) :=
      Bounded.lit.bind fun _ => Bounded.many1
    obtain ⟨_, u, rest', heq, hway⟩ := (ne_nil_iff_way hbounded).1 hne
    obtain ⟨_, _, k, rfl, hlit, hk⟩ := way_bind.1 hway
    obtain rfl := way_lit.1 hlit
    obtain ⟨hk, hblank⟩ := way_many1.1 hk
    obtain ⟨y, k, rfl⟩ := exists_cons_of_ne_nil hk
    rw [append_assoc] at heq
    exact hs.name_ne (append_inj_of_class (s := " = &mut ".toList ++ rest) (t := y :: k ++ rest')
      hs.name.word (by decide) rfl
      (by simpa using isWord_of_isBlank (hblank y mem_cons_self)) heq).1
  refine Prefers.bind (u := []) (prefers_wordBoundary (by rw [hbefore]; exact Bool.noConfusion)) ?_
  refine Prefers.bind (u := "let".toList) (w := [' ']) (prefers_lit _ _ _) ?_
  refine Prefers.bind (u := [' ']) (w := [])
    (prefers_many1 (by decide) hspace (not_blank_append hs.name.head? _)) ?_
  exact Prefers.bind (u := []) (w := []) (prefers_opt_none hmut) (prefers_pure _)

include hs in
theorem AliasLine.Plain.prefers_borrow :
    Prefers (opt borrow) before (some ()) "&mut ".toList (s.account ++ rest) := by
  have hspace : ∀ x ∈ [' '], isBlank x = true := by decide
  have hblank : (s.account ++ rest).head?.any isBlank = false := not_blank_append hs.account.head? _
  refine Prefers.opt ?_
  refine Prefers.bind (u := ['&']) (w := "mut ".toList) (prefers_lit _ _ _) ?_
  refine Prefers.bind (u := []) (w := "mut ".toList) (prefers_many (by simp) rfl) ?_
  refine Prefers.bind (e := some ()) (u := "mut ".toList) (w := []) (Prefers.opt ?_)
    (prefers_pure _)
  exact Prefers.bind (u := "mut".toList) (w := [' ']) (prefers_lit _ _ _)
    (prefers_many1 (by decide) hspace hblank)

include hs in
/-- An account of its own is not reached through the context. -/
theorem AliasLine.Plain.not_through_context :
    (do tokens ["ctx", ".", "accounts", "."]; blanks : Pattern Unit) ⟨before,
      s.account ++ ';' :: rest⟩ = [] := by
  by_contra hne
  have hbounded : Bounded (do tokens ["ctx", ".", "accounts", "."]; blanks : Pattern Unit) :=
    Bounded.tokens.bind fun _ => Bounded.many
  obtain ⟨_, u, rest', heq, hway⟩ := (ne_nil_iff_way hbounded).1 hne
  obtain ⟨_, _, k, rfl, htokens, -⟩ := way_bind.1 hway
  obtain ⟨g, w, rfl, hg, htokens⟩ := way_tokens_cons.1 htokens
  obtain ⟨w, rfl⟩ := prefix_of_way_tokens htokens
  have hctx : ∀ x ∈ "ctx".toList, (isWord x || isBlank x) = true := by decide
  have hclass : ∀ x ∈ "ctx".toList ++ g, (isWord x || isBlank x) = true := by
    intro x hx
    rcases mem_append.1 hx with hx | hx
    · exact hctx x hx
    · rw [hg x hx, Bool.or_true]
  have hdot := (append_inj_of_class (p := fun x => isWord x || isBlank x) (s := ';' :: rest)
    (t := '.' :: (w ++ (k ++ rest')))
    (fun x hx => by rw [hs.account.word x hx, Bool.true_or]) hclass rfl rfl (by simpa using heq)).2
  exact absurd (cons.inj hdot).1 (by decide)

include hs hbefore

/-- **A binding is read as its names**, up to the semicolon. -/
theorem AliasLine.Plain.prefers_aliasBinding :
    Prefers Context.aliasBinding before (s.name, s.account) s.bound rest := by
  have hand : ("&mut ".toList ++ (s.account ++ ([';'] ++ rest))).head?.any isBlank = false := rfl
  refine Prefers.bind (by simpa using hs.prefers_letKeyword hbefore (s.account ++ ';' :: rest)) ?_
  refine Prefers.bind (prefers_word hs.name rfl) ?_
  refine Prefers.bind (u := " = ".toList) (w := "&mut ".toList ++ (s.account ++ [';']))
    (prefers_spaced (by decide) rfl) ?_
  refine Prefers.bind (by simpa using hs.prefers_borrow ([';'] ++ rest)) ?_
  refine Prefers.bind (u := []) (prefers_opt_none (by simpa using hs.not_through_context rest)) ?_
  refine Prefers.bind (prefers_word hs.account rfl) ?_
  refine Prefers.bind (u := []) (prefers_many (by simp) rfl) ?_
  exact Prefers.bind (u := [';']) (w := []) (prefers_lit _ _ _) (prefers_pure _)

theorem AliasLine.Plain.prefers_aliasStatement :
    Prefers aliasStatement before (s.name, s.account) s.text rest := by
  have htext : s.text = s.indent ++ ("let ".toList ++ (s.name ++ (" = ".toList ++ ("&mut ".toList ++
      (s.account ++ ([] ++ ([';'] ++ (s.trail ++ ['\n'])))))))) := by
    simp [AliasLine.text, AliasLine.bound]
  rw [htext]
  refine Prefers.bind (prefers_many hs.indent rfl) ?_
  refine Prefers.bind
    (by
      simpa using hs.prefers_letKeyword (hs.head?_indent hbefore)
        (s.account ++ ';' :: (s.trail ++ '\n' :: rest))) ?_
  refine Prefers.bind (prefers_word hs.name rfl) ?_
  refine Prefers.bind (prefers_spaced (by decide) rfl) ?_
  refine Prefers.bind (by simpa using hs.prefers_borrow (';' :: (s.trail ++ '\n' :: rest))) ?_
  refine Prefers.bind (prefers_word hs.account rfl) ?_
  refine Prefers.bind (prefers_many (by simp) rfl) ?_
  refine Prefers.bind (prefers_lit _ _ _) ?_
  refine Prefers.bind (prefers_many hs.trail rfl) ?_
  exact Prefers.bind (u := ['\n']) (w := []) (Prefers.opt (prefers_lit _ _ _)) (prefers_pure _)

end

/-- The binding is left out, by this table. -/
def AliasLine.isFolded (c : Context) (aliases : Table Text) (s : AliasLine) : Bool :=
  (c.account? s.account).isSome && (s.name == s.account || aliases.get? s.name == some s.account)

theorem AliasLine.text_ne_nil (s : AliasLine) : s.text ≠ [] := by simp [AliasLine.text]

theorem AliasLine.Plain.replacedFrom_dropAlias (hs : s.Plain) {before : Text}
    (hbefore : before.head?.any isWord = false) (c : Context) (aliases : Table Text) (rest : Text) :
    replacedFrom (dropAlias c aliases) before (s.text ++ rest) =
      (if s.isFolded c aliases then [] else s.text) ++ replacedFrom (dropAlias c aliases)
      (s.text.reverse ++ before) rest := by
  refine replacedFrom_of_firstAt s.text_ne_nil ?_
  have hprefers : Prefers (dropAlias c aliases) before
      (if s.isFolded c aliases then [] else s.text) (s.text ++ []) rest :=
    Prefers.bind (hs.prefers_aliasStatement hbefore _).withText (prefers_pure _)
  rwa [append_nil] at hprefers

/-! ## The bindings of a body -/

theorem head?_of_aliasBinding {before : Text} (h : Context.aliasBinding ⟨before, t⟩ ≠ []) :
    t.head? = some 'l' := by
  obtain ⟨e, u, rest, rfl, hway⟩ := (ne_nil_iff_way bounded_aliasBinding).1 h
  obtain ⟨_, _, _, rfl, hlet, -⟩ := way_bind.1 hway
  obtain ⟨k, m, rfl, -⟩ := letKeyword_of_way hlet
  rfl

section

variable {body : List BodyItem}

theorem BodyItem.Plain.head?_reverse {item : BodyItem} (h : item.Plain) (before : Text) :
    (item.text.reverse ++ before).head?.any isWord = false := by
  cases item with
  | binding s =>
    simp [BodyItem.text, AliasLine.text]
    decide
  | access a =>
    have ha : a.Plain := h
    obtain ⟨x, hx, -⟩ := ha.solid
    obtain ⟨t, y, ht⟩ : ∃ t y, a.tail = t ++ [y] := by
      rcases eq_nil_or_concat' a.tail with hnil | htail
      · rw [hnil] at hx
        cases hx
      · exact htail
    have hy := (isNeutral_iff.1 (ha.tail y (by rw [ht]; simp))).1
    simpa [BodyItem.text, Access.text, ht] using hy

/-- The bindings of a body are found in order. -/
theorem map_value_matchesFrom (h : ∀ item ∈ body, item.Plain) {before : Text}
    (hbefore : before.head?.any isWord = false) :
    (matchesFrom Context.aliasBinding 0 before (bodyText body)).map (·.value) =
      (bindings body).map fun s => (s.name, s.account) := by
  induction body generalizing before with
  | nil => rfl
  | cons item body ih =>
    have hitem := h item mem_cons_self
    have hrest := ih (fun item hi => h item (mem_cons_of_mem _ hi)) (hitem.head?_reverse before)
    cases item with
    | access a =>
      show (matchesFrom _ 0 before (a.text ++ bodyText body)).map _ = (bindings body).map _
      rw [matchesFrom_append, ← hrest]
      · rfl
      · intro v w hvw hw
        by_contra hne
        exact Access.Plain.opensNowhere hitem _ v w hvw hw (opensBinding_of_aliasBinding hne)
    | binding s =>
      have hs : s.Plain := hitem
      have hquiet : ∀ {u before rest : Text}, Blank u → ∀ v w, u = v ++ w → w ≠ [] →
          Context.aliasBinding ⟨v.reverse ++ before, w ++ rest⟩ = [] := by
        intro u before rest hu v w hvw hw
        by_contra hne
        obtain ⟨x, w, rfl⟩ := exists_cons_of_ne_nil hw
        obtain rfl : x = 'l' := by simpa using head?_of_aliasBinding hne
        exact absurd (hu 'l' (by rw [hvw]; simp)) (by decide)
      have hend : ∀ x ∈ s.trail ++ ['\n'], isBlank x = true :=
        forall_mem_append.2 ⟨fun x hx => isBlank_of_isLineBlank (hs.trail x hx), by decide⟩
      show (matchesFrom _ 0 before (s.text ++ bodyText body)).map _ = (s.name, s.account) ::
          (bindings body).map _
      have htext : s.text ++ bodyText body =
          s.indent ++ (s.bound ++ ((s.trail ++ ['\n']) ++ bodyText body)) := by
        simp [AliasLine.text]
      rw [htext, matchesFrom_append (hquiet fun x hx => isBlank_of_isLineBlank (hs.indent x hx)),
        (hs.prefers_aliasBinding (hs.head?_indent hbefore) _).matchesFrom_eq
        (by simp [AliasLine.bound]), matchesFrom_append (hquiet hend),
        map_cons, ← hrest]
      simp [BodyItem.text, AliasLine.text]

end

/-! ## Characters of a body -/

theorem isNeutral_of_isBlank (h : isBlank x = true) : isNeutral x = true := by
  have hne : ∀ y ∈ ['.', '(', ')', '&', '/', '"', '\''], x ≠ y := by
    rintro y hy rfl
    have hall : ∀ y ∈ ['.', '(', ')', '&', '/', '"', '\''], isBlank y = false := by decide
    rw [hall x hy] at h
    cases h
  have hquoting : isQuoting x = false := by simp [isQuoting, hne]
  exact isNeutral_iff.2 ⟨isWord_of_isBlank h, hquoting, by simp [hne]⟩

theorem Access.Plain.mem_text (h : a.Plain) (hx : x ∈ a.text) :
    isWord x = true ∨ isNeutral x = true ∨ x = '.' := by
  simp only [Access.text, mem_append, mem_cons] at hx
  rcases hx with hx | hx | rfl | hx | hx
  · exact .inr (.inl (isNeutral_of_isBlank (h.lead x hx)))
  · exact .inl (h.receiver.word x hx)
  · exact .inr (.inr rfl)
  · exact .inl (h.field.word x hx)
  · exact .inr (.inl (h.tail x hx))

theorem AliasLine.Plain.mem_text (h : s.Plain) (hx : x ∈ s.text) :
    isWord x = true ∨ isNeutral x = true ∨ x = '&' := by
  have hlet : ∀ x ∈ "let ".toList, isWord x = true ∨ isNeutral x = true ∨ x = '&' := by decide
  have hmut : ∀ x ∈ " = &mut ".toList, isWord x = true ∨ isNeutral x = true ∨ x = '&' := by decide
  have hend : ∀ x ∈ [';', '\n'], isWord x = true ∨ isNeutral x = true ∨ x = '&' := by decide
  simp only [AliasLine.text, AliasLine.bound, mem_append, mem_cons, not_mem_nil, or_false] at hx
  rcases hx with hx | (hx | hx | hx | hx | hx) | hx | hx
  · exact .inr (.inl (isNeutral_of_isBlank (isBlank_of_isLineBlank (h.indent x hx))))
  · exact hlet x hx
  · exact .inl (h.name.word x hx)
  · exact hmut x hx
  · exact .inl (h.account.word x hx)
  · exact hend x (by simp [hx])
  · exact .inr (.inl (isNeutral_of_isBlank (isBlank_of_isLineBlank (h.trail x hx))))
  · exact hend x (by simp [hx])

/-- A character that no part of a body has. -/
def isForeign (x : Char) : Bool := isQuoting x || x == '(' || x == ')'

theorem isForeign_eq_false (h : isWord x = true ∨ isNeutral x = true ∨ x = '.' ∨ x = '&') :
    isForeign x = false := by
  rcases h with h | h | rfl | rfl
  · have hall : ∀ y ∈ ['(', ')'], isWord y = false := by decide
    have hne : ∀ y ∈ ['(', ')'], x ≠ y := by
      rintro y hy rfl
      rw [hall x hy] at h
      cases h
    simp [isForeign, isQuoting_of_isPlain (isPlain_of_isWord h), hne]
  · obtain ⟨-, hquoting, -, hopen, hclose, -⟩ := isNeutral_iff.1 h
    simp [isForeign, hquoting, hopen, hclose]
  · rfl
  · rfl

/-- A text without calls, comments and literals. -/
def Calm (t : Text) : Prop := ∀ x ∈ t, isForeign x = false

theorem Calm.bare (h : Calm t) : Bare t := by
  intro x hx
  have := h x hx
  simp only [isForeign, Bool.or_eq_false_iff] at this
  exact this.1.1

theorem Calm.not_mem (h : Calm t) (hx : isForeign x = true) : x ∉ t := by
  intro hmem
  rw [h x hmem] at hx
  cases hx

theorem calm_bodyText {body : List BodyItem} (h : ∀ item ∈ body, item.Plain) :
    Calm (bodyText body) := by
  intro x hx
  obtain ⟨item, hitem, hx⟩ := mem_flatMap.1 hx
  have hplain := h item hitem
  refine isForeign_eq_false ?_
  cases item with
  | binding s => exact (AliasLine.Plain.mem_text hplain hx).imp id (Or.imp id .inr)
  | access a => exact (Access.Plain.mem_text hplain hx).imp id (Or.imp id .inl)

theorem calm_accessesText {as : List Access} (h : ∀ a ∈ as, a.Plain) : Calm (accessesText as) := by
  intro x hx
  obtain ⟨a, ha, hx⟩ := mem_flatMap.1 hx
  exact isForeign_eq_false (((h a ha).mem_text hx).imp id (Or.imp id .inl))

end AnchorLowering.Lowering
