import AnchorLowering.Lowering.StateAccess
import AnchorLowering.Proofs.CodeStretch
import AnchorLowering.Proofs.Lexeme
import AnchorLowering.Proofs.PatternWay

/-!
# Field accesses in code

An access to a field of a state account is the account's name where a receiver may start, a dot, and
the field's name, which is not called. Names are whole words, so the rule that routes such accesses
to the handles is a function on lexemes (`replaceAll_write`).
-/

namespace AnchorLowering

open List Pattern Source Lexeme

variable {x : Char} {c : Cursor} {ls rest : List Lexeme} {n : Nat} {b : StateBinding}
  {a before f v g : Text}

/-- The account and the fields of a binding have names. -/
@[mk_iff]
structure StateBinding.Named (b : StateBinding) : Prop where
  account : IsName b.account
  fields : ∀ f ∈ b.fields, IsName f

instance (b : StateBinding) : Decidable b.Named :=
  decidable_of_iff _ (StateBinding.named_iff ..).symm

namespace Lowering

/-- The name of the handle of an account. -/
def handleName (account : Text) : Text := account ++ "_state".toList

theorem isName_handleName {t : Text} (h : IsName t) : IsName (handleName t) :=
  h.append (by decide)

/-! ## The text of an access -/

/-- A receiver may start after this text, which is given backwards. -/
def mayOpen : Text → Bool
  | [] => true
  | '.' :: rest => rest.head? == some '.'
  | c :: _ => !isWord c

theorem receiverStart_eq : receiverStart = behind mayOpen := rfl

theorem mayOpen_cons (h : x ≠ '.') (before : Text) : mayOpen (x :: before) = !isWord x := by
  unfold mayOpen
  split
  · rename_i heq
    cases heq
  · rename_i heq
    exact absurd (cons.inj heq).1 h
  · rename_i heq
    rw [(cons.inj heq).1]

theorem ne_dot_of_isWord (h : isWord x = true) : x ≠ '.' := by
  rintro rfl
  exact absurd h (by decide)

theorem ne_dot_of_isBlank (h : isBlank x = true) : x ≠ '.' := by
  rintro rfl
  exact absurd h (by decide)

theorem mayOpen_eq_false (h : before.head?.any isWord = true) : mayOpen before = false := by
  cases before with
  | nil => cases h
  | cons x before =>
    have hx : isWord x = true := h
    rw [mayOpen_cons (ne_dot_of_isWord hx), hx]
    rfl

/-- An opening bracket comes next, after blanks. -/
def IsCalled (t : Text) : Prop :=
  ∃ g rest, (∀ x ∈ g, isBlank x = true) ∧ t = g ++ '(' :: rest

theorem notAhead_call {before rest : Text} :
    (do blanks; lit "(" : Pattern Unit) ⟨before, rest⟩ = [] ↔ ¬ IsCalled rest := by
  have hbounded : Bounded (do blanks; lit "(" : Pattern Unit) :=
    Bounded.many.bind fun _ => Bounded.lit
  rw [← not_iff_not, not_not, ← ne_eq, ne_nil_iff_way hbounded]
  simp only [blanks, way_bind, way_many, way_lit]
  constructor
  · rintro ⟨-, _, tail, rfl, -, g, _, rfl, hg, rfl⟩
    exact ⟨g, tail, hg, by simp⟩
  · rintro ⟨g, tail, hg, rfl⟩
    exact ⟨(), g ++ "(".toList, tail, by simp, (), g, _, rfl, hg, rfl⟩

/-- The text of an access to a field: the account, a dot with blanks around it, and the field. -/
def accessText (account g g' field : Text) : Text := account ++ (g ++ '.' :: (g' ++ field))

theorem bounded_fieldAccess (b : StateBinding) : Bounded (fieldAccess b) :=
  Takes.bind (Takes.behind.bind fun _ => Bounded.lit) fun _ => Bounded.spaced.bind fun _ =>
    Bounded.oneOf.bind fun _ =>
    Takes.wordBoundary.bind fun _ => Takes.notAhead.bind fun _ => .pure _

theorem mem_fieldAccess (hb : b.Named) : (v, n) ∈ fieldAccess b c ↔ mayOpen c.before = true ∧
    ∃ g g' f rest,
      Blank g ∧ Blank g' ∧ f ∈ b.fields ∧
      c.after = accessText b.account g g' f ++ rest ∧ rest.head?.any isWord = false ∧
      ¬ IsCalled rest ∧ v = b.handle ++ '.' :: f ∧ n = (accessText b.account g g' f).length := by
  -- after a field a word boundary is the end of the word
  have hboundary : ∀ {u f rest : Text}, f ∈ b.fields →
      ((f.reverse ++ u).head?.any isWord ≠ rest.head?.any isWord ↔ rest.head?.any isWord =
        false) := by
    intro u f rest hf
    have hlast := (hb.fields f hf).getLast?
    have hne := (hb.fields f hf).ne_nil
    rw [head?_append_of_ne_nil _ (by simpa using hne), head?_reverse, hlast]
    simp
  rw [mem_iff_way (bounded_fieldAccess b)]
  simp only [fieldAccess, receiver, receiverStart_eq, longestFirst, way_bind, way_behind, way_lit,
    way_spaced, way_oneOf, way_wordBoundary, way_notAhead, way_pure, notAhead_call, mem_mergeSort]
  constructor
  · rintro ⟨_, rest, hafter, rfl, -, _, _, rfl, ⟨-, _, _, rfl, ⟨rfl, hopen⟩, rfl⟩, -, _, _, rfl,
      ⟨g, g', rfl, hg, hg'⟩, f, _, _, rfl, ⟨rfl, hf⟩, -, _, _, rfl, ⟨rfl, hbound⟩, -, _, _, rfl,
      ⟨rfl, hcalled⟩, rfl, rfl⟩
    simp only [append_nil, nil_append] at hafter hbound hcalled ⊢
    refine ⟨hopen, g, g', _, rest, hg, hg', hf, ?_, (hboundary hf).1 hbound, hcalled, ?_, ?_⟩
    · rw [hafter]
      simp [accessText]
    · simp [Text.concat]
    · simp [accessText]
  · rintro ⟨hopen, g, g', f, rest, hg, hg', hf, hafter, hbound, hcalled, rfl, rfl⟩
    refine ⟨_, rest, hafter, rfl, (), b.account, _, rfl, ⟨(), [], _, rfl, ⟨rfl, hopen⟩, rfl⟩, (),
      g ++ ('.' :: g'), f, by simp, ⟨g, g', rfl, hg, hg'⟩, f, f, [],
      by simp, ⟨rfl, hf⟩, (), [], [], rfl,
      ⟨rfl, (hboundary hf).2 hbound⟩, (), [], [], rfl, ⟨rfl, hcalled⟩, ?_, rfl⟩
    simp [Text.concat]

/-! ## Several accounts at once -/

/-- An access to a field of any of the accounts, replaced by the access to the handle. -/
def anyFieldAccess (bs : List StateBinding) : Pattern Text := fun c => bs.flatMap (fieldAccess · c)

theorem anyFieldAccess_singleton (b : StateBinding) : anyFieldAccess [b] = fieldAccess b := by
  funext c
  exact append_nil _

variable {bs : List StateBinding}

/-- An access in a text starts with a word, where a receiver may start. -/
theorem mayOpen_of_anyFieldAccess (hbs : ∀ b ∈ bs, b.Named)
    (h : anyFieldAccess bs c ≠ []) : mayOpen c.before = true ∧ c.after.head?.any isWord = true := by
  obtain ⟨⟨v, n⟩, hmem⟩ := exists_mem_of_ne_nil _ h
  obtain ⟨b, hb, hmem⟩ := mem_flatMap.1 hmem
  obtain ⟨hopen, g, g', f, rest, -, -, -, hafter, -⟩ := (mem_fieldAccess (hbs b hb)).1 hmem
  refine ⟨hopen, ?_⟩
  have hne := (hbs b hb).account.ne_nil
  rw [hafter, accessText, append_assoc, head?_append_of_ne_nil _ hne]
  exact (hbs b hb).account.head?

theorem exists_swapped (hb : b.Named) (h : (v, n) ∈ fieldAccess b c) :
    n ≤ c.after.length ∧ Nonempty (Swapped c.before (c.after.take n) v) := by
  obtain ⟨hopen, g, g', f, rest, hg, hg', hf, hafter, -, -, rfl, rfl⟩ := (mem_fieldAccess hb).1 h
  have hhandle : IsName b.handle := isName_handleName hb.account
  refine ⟨by rw [hafter, length_append]; omega, ⟨?_⟩⟩
  refine ⟨b.account ++ (g ++ '.' :: g'), b.handle ++ ['.'], f, ?_, ?_, ?_, ?_, ?_, ⟨?_, ?_⟩,
    ?_, ?_, ?_⟩
  · rw [hafter, take_left]
    simp [accessText]
  · simp
  · by_contra hword
    rw [mayOpen_eq_false (by simpa using hword)] at hopen
    cases hopen
  · rw [head?_append_of_ne_nil _ hb.account.ne_nil]
    exact hb.account.head?
  · rw [← append_assoc, getLast?_append_cons]
    cases hlast : g'.getLast? with
    | none =>
      rw [getLast?_eq_none_iff.1 hlast]
      rfl
    | some x =>
      rw [getLast?_cons, hlast]
      by_contra hx
      have hblank := hg' x (mem_of_getLast? hlast)
      rw [isBlank_of_isWord (by simpa using hx)] at hblank
      cases hblank
  · exact forall_mem_append.2 ⟨fun x hx => isPlain_of_isWord (hhandle.word x hx), by decide⟩
  · intro x hx
    obtain rfl : '.' = x := by simpa using hx
    decide
  · rw [List.getLast?_concat]
    decide
  · exact append_ne_nil_of_right_ne_nil _ (cons_ne_nil _ _)
  · intro prev rest hprev
    rw [append_assoc]
    exact .name hhandle.ne_nil hprev (fun x hx => .inl (hhandle.word x hx)) (by decide)

theorem keepsStretches_anyFieldAccess (hbs : ∀ b ∈ bs, b.Named) :
    KeepsStretches (anyFieldAccess bs) := by
  refine .of_swapped fun c v n hmem => ?_
  obtain ⟨b, hb, hmem⟩ := mem_flatMap.1 hmem
  exact exists_swapped (hbs b hb) hmem

/-! ## The lexemes of an access -/

/-- An opening bracket comes next, after a gap. -/
def isCalled (ls : List Lexeme) : Bool :=
  match dropGap ls with
  | .mark x :: _ => x == '('
  | _ => false

/-- The member that is named right after a word, without being called, and what follows it. -/
def memberAfter? (ls : List Lexeme) : Option (Text × List Lexeme) :=
  match dropGap ls with
  | .mark x :: ls =>
    if x = '.' then
      match dropGap ls with
      | .word f :: rest => if isCalled rest then none else some (f, rest)
      | _ => none
    else none
  | _ => none

theorem isCalled_iff (h : Lexed ls) : isCalled ls = true ↔ IsCalled (write ls) := by
  obtain ⟨hlexed, hhead, g, hg, hwrite⟩ := h.dropGap
  constructor
  · intro hcalled
    unfold isCalled at hcalled
    split at hcalled
    · rename_i x ls' hdrop
      obtain rfl : x = '(' := by simpa using hcalled
      rw [hdrop] at hwrite
      exact ⟨g, write ls', hg, hwrite⟩
    · cases hcalled
  · rintro ⟨g', rest, hg', heq⟩
    have hrest := h.write_dropGap hg' (s := '(' :: rest) (show isBlank '(' = false by decide) heq
    obtain ⟨ls', hls', -⟩ := hlexed.exists_mark_cons (by constructor <;> decide) hrest
    rw [isCalled, hls']
    rfl

/-- A member after a word: what stands between, and what follows. -/
theorem memberAfter?_eq_some (heq : memberAfter? ls = some (f, rest)) :
    isCalled rest = false ∧ ∃ ls', dropGap ls = .mark '.' :: ls' ∧
    dropGap ls' = .word f :: rest := by
  unfold memberAfter? at heq
  split at heq
  · rename_i x ls' hdrop
    split at heq
    · rename_i hx
      split at heq
      · rename_i f' rest' hdrop'
        split at heq
        · cases heq
        · rename_i hcalled
          obtain ⟨rfl, rfl⟩ := Prod.mk.inj (Option.some.inj heq)
          exact ⟨by simpa using hcalled, ls', by rw [hdrop, hx], hdrop'⟩
      · cases heq
    · cases heq
  · cases heq

theorem memberAfter?_of_dropGap {ls' rest : List Lexeme} (hdot : dropGap ls = .mark '.' :: ls')
    (hword : dropGap ls' = .word f :: rest) (hcalled : isCalled rest = false) :
    memberAfter? ls = some (f, rest) := by
  simp [memberAfter?, hdot, hword, hcalled]

theorem write_of_memberAfter? (h : Lexed ls)
    (heq : memberAfter? ls = some (f, rest)) : Lexed (.word f :: rest) ∧ ¬ IsCalled (write rest) ∧
      ∃ g g', Blank g ∧ Blank g' ∧ write ls = g ++ '.' :: (g' ++ (f ++ write rest)) := by
  obtain ⟨hcalled, ls', hdot, hword⟩ := memberAfter?_eq_some heq
  obtain ⟨hlexed, -, g, hg, hwrite⟩ := h.dropGap
  rw [hdot] at hlexed hwrite
  obtain ⟨hlexed', -, g', hg', hwrite'⟩ := hlexed.2.2.dropGap
  rw [hword] at hlexed' hwrite'
  refine ⟨hlexed', ?_, g, g', hg, hg', ?_⟩
  · rw [← isCalled_iff hlexed'.2.2, hcalled]
    exact Bool.false_ne_true
  · rw [hwrite, write_cons, hwrite']
    rfl

theorem exists_memberAfter? (h : Lexed ls) {g' rest : Text} (hg : Blank g)
    (hg' : Blank g') (hf : IsName f) (hend : rest.head?.any isWord = false)
    (hcalled : ¬ IsCalled rest) (heq : write ls = g ++ '.' :: (g' ++ (f ++ rest))) :
    ∃ ls', memberAfter? ls = some (f, ls') ∧ write ls' = rest := by
  have hdot := h.write_dropGap hg (s := '.' :: (g' ++ (f ++ rest)))
    (show isBlank '.' = false by decide) heq
  obtain ⟨ls₁, hls₁, hwrite₁⟩ := h.dropGap.1.exists_mark_cons (by constructor <;> decide) hdot
  have hlexed₁ : Lexed ls₁ := by
    have hlexed := h.dropGap.1
    rw [hls₁] at hlexed
    exact hlexed.2.2
  have hblank : (f ++ rest).head?.any isBlank = false := by
    obtain ⟨x, f, rfl⟩ := exists_cons_of_ne_nil hf.ne_nil
    exact isBlank_of_isWord (hf.word x mem_cons_self)
  have hword := hlexed₁.write_dropGap hg' hblank hwrite₁
  obtain ⟨ls₂, hls₂, hwrite₂⟩ := hlexed₁.dropGap.1.exists_word_cons hf hend hword
  refine ⟨ls₂, memberAfter?_of_dropGap hls₁ hls₂ ?_, hwrite₂⟩
  have hlexed₂ : Lexed ls₂ := by
    have hlexed := hlexed₁.dropGap.1
    rw [hls₂] at hlexed
    exact hlexed.2.2
  rw [← hwrite₂, ← isCalled_iff hlexed₂] at hcalled
  simpa using hcalled

/-! ## Routing lexemes -/

/-- Where a walk over lexemes stands: in an access that is routed, or between accesses. Between
accesses it tells whether a receiver may start here, and whether a dot comes right before. -/
inductive Position where
  | free (opens dotted : Bool)
  | inside

/-- Routes the accesses among lexemes. The test tells which members of which accounts are routed. -/
def route (routed : Text → Text → Bool) : Position → List Lexeme → List Lexeme
  | _, [] => []
  | .free opens _, .word a :: ls =>
    if opens && (memberAfter? ls).any (routed a ·.1) then .word (handleName a) ::
      route routed .inside ls
    else .word a :: route routed (.free false false) ls
  | .free _ _, .gap g :: ls => .gap g :: route routed (.free true false) ls
  | .free _ dotted, .mark x :: ls =>
    .mark x :: route routed (.free (x != '.' || dotted) (x == '.')) ls
  | .inside, .word f :: ls => .word f :: route routed (.free false false) ls
  | .inside, .gap _ :: ls => route routed .inside ls
  | .inside, .mark x :: ls => .mark x :: route routed .inside ls

/-- The member of the account is one of the fields that are routed. -/
def isField (bs : List StateBinding) (account field : Text) : Bool :=
  bs.any fun b => b.account == account && b.fields.contains field

theorem isField_iff : isField bs a f = true ↔ ∃ b ∈ bs, b.account = a ∧ f ∈ b.fields := by
  simp [isField]

theorem route_inside_dropGap (routed : Text → Text → Bool) (ls : List Lexeme) :
    route routed .inside ls = route routed .inside (dropGap ls) := by
  unfold dropGap
  split <;> rfl

/-- Inside an access that is routed the gaps are left out. -/
theorem route_inside {routed : Text → Text → Bool} (h : memberAfter? ls = some (f, rest)) :
    route routed .inside ls = .mark '.' :: .word f :: route routed (.free false false) rest := by
  obtain ⟨-, ls', hdot, hword⟩ := memberAfter?_eq_some h
  rw [route_inside_dropGap, hdot]
  show Lexeme.mark '.' :: route routed .inside ls' = _
  rw [route_inside_dropGap, hword]
  rfl

theorem mem_anyFieldAccess_word (hbs : ∀ b ∈ bs, b.Named) (h : Lexed (.word a :: ls)) :
    (v, n) ∈ anyFieldAccess bs ⟨before, a ++ write ls⟩ ↔ mayOpen before = true ∧ ∃ f rest,
      memberAfter? ls = some (f, rest) ∧ isField bs a f = true ∧ v = handleName a ++ '.' :: f ∧
        n + (write rest).length = (a ++ write ls).length := by
  constructor
  · intro hmem
    obtain ⟨b, hb, hmem⟩ := mem_flatMap.1 hmem
    obtain ⟨hopen, g, g', f, rest, hg, hg', hf, hafter, hend, hcalled, rfl, rfl⟩ :=
      (mem_fieldAccess (hbs b hb)).1 hmem
    have hnamed := hbs b hb
    have hafter : a ++ write ls = b.account ++ (g ++ '.' :: (g' ++ (f ++ rest))) := by
      simpa [accessText] using hafter
    have hdot : (g ++ '.' :: (g' ++ (f ++ rest))).head?.any isWord = false := by
      cases g with
      | nil => exact show isWord '.' = false by decide
      | cons x g =>
        by_contra hx
        have hblank := hg x mem_cons_self
        rw [isBlank_of_isWord (by simpa using hx)] at hblank
        cases hblank
    obtain ⟨rfl, hrest⟩ := append_inj_of_class h.1.word hnamed.account.word h.2.1 hdot hafter
    obtain ⟨ls', hmember, rfl⟩ :=
      exists_memberAfter? h.2.2 hg hg' (hnamed.fields f hf) hend hcalled hrest
    refine ⟨hopen, f, ls', hmember, isField_iff.2 ⟨b, hb, rfl, hf⟩, rfl, ?_⟩
    rw [hrest, accessText]
    simp
    omega
  · rintro ⟨hopen, f, rest, hmember, hfield, rfl, hn⟩
    obtain ⟨b, hb, rfl, hf⟩ := isField_iff.1 hfield
    obtain ⟨hlexed, hcalled, g, g', hg, hg', hwrite⟩ := write_of_memberAfter? h.2.2 hmember
    refine mem_flatMap.2 ⟨b, hb, (mem_fieldAccess (hbs b hb)).2
      ⟨hopen, g, g', f, write rest, hg, hg', hf, ?_, hlexed.2.1, hcalled, rfl, ?_⟩⟩
    · rw [hwrite]
      simp [accessText]
    · rw [hwrite] at hn
      simp only [length_append, length_cons] at hn
      simp only [accessText, length_append, length_cons]
      omega

/-! ## The rule on a stretch of code -/

/-- Where the rule matches nowhere in a text, the text stays. -/
theorem replacedFrom_append {rule : Pattern Text} {before u rest : Text}
    (h : ∀ v w, u = v ++ w → w ≠ [] → rule ⟨v.reverse ++ before, w ++ rest⟩ = []) :
    replacedFrom rule before (u ++ rest) = u ++ replacedFrom rule (u.reverse ++ before) rest := by
  induction u generalizing before with
  | nil => rfl
  | cons x u ih =>
    have hother : ∀ v n, rule.firstAt ⟨before, x :: (u ++ rest)⟩ ≠ some (v, n + 1) := by
      intro v n
      have hnil : rule ⟨before, x :: (u ++ rest)⟩ = [] := h [] (x :: u) rfl (cons_ne_nil x u)
      rw [firstAt, hnil]
      simp
    rw [cons_append, replacedFrom_of_not_some hother, ih]
    · simp
    · intro v w hvw hw
      have hnil := h (x :: v) w (by rw [hvw]; rfl) hw
      simpa using hnil

/-- The position after a text, which is given backwards. -/
def positionAfter (before : Text) : Position := .free (mayOpen before) (before.head? == some '.')

theorem positionAfter_word {w : Text} (hw : IsName w) (before : Text) :
    positionAfter (w.reverse ++ before) = .free false false := by
  have hlast := hw.getLast?
  have hhead : (w.reverse ++ before).head? = w.getLast? := by
    rw [head?_append_of_ne_nil _ (by simpa using hw.ne_nil), head?_reverse]
  rw [positionAfter, mayOpen_eq_false (by rw [hhead, hlast]), hhead]
  rw [getLast?_eq_some_getLast hw.ne_nil] at hlast ⊢
  have hne := ne_dot_of_isWord (show isWord (w.getLast hw.ne_nil) = true from hlast)
  simp [hne]

theorem positionAfter_gap (hne : g ≠ []) (hg : Blank g) (before : Text) :
    positionAfter (g.reverse ++ before) = .free true false := by
  obtain ⟨x, t, hx⟩ : ∃ x t, g.reverse = x :: t := exists_cons_of_ne_nil (by simpa using hne)
  have hblank : isBlank x = true := hg x (by rw [← mem_reverse, hx]; exact mem_cons_self)
  have hdot := ne_dot_of_isBlank hblank
  have hword : isWord x = false := by
    by_contra hword
    rw [isBlank_of_isWord (by simpa using hword)] at hblank
    cases hblank
  rw [positionAfter, hx, cons_append, mayOpen_cons hdot, hword]
  simp [hdot]

theorem positionAfter_mark (hx : isWord x = false) (before : Text) :
    positionAfter (x :: before) = .free (x != '.' || before.head? == some '.') (x == '.') := by
  by_cases hdot : x = '.'
  · subst hdot
    rfl
  · rw [positionAfter, mayOpen_cons hdot, hx]
    simp [hdot]

theorem length_dropGap_le (ls : List Lexeme) : (dropGap ls).length ≤ ls.length := by
  unfold dropGap
  split
  · exact Nat.le_succ _
  · exact Nat.le_refl _

theorem length_of_memberAfter? (h : memberAfter? ls = some (f, rest)) :
    rest.length < ls.length := by
  obtain ⟨-, ls', hdot, hword⟩ := memberAfter?_eq_some h
  have hle := length_dropGap_le ls
  have hle' := length_dropGap_le ls'
  rw [hdot, length_cons] at hle
  rw [hword, length_cons] at hle'
  omega

/-- An access that the rule matches is replaced, and the rule goes on after it. -/
theorem replacedFrom_access (hbs : ∀ b ∈ bs, b.Named) (h : Lexed (.word a :: ls))
    (hopen : mayOpen before = true)
    (hm : memberAfter? ls = some (f, rest)) (hfield : isField bs a f = true) :
    ∃ u, replacedFrom (anyFieldAccess bs) before (a ++ write ls) =
      handleName a ++ '.' :: f ++ replacedFrom (anyFieldAccess bs) (f.reverse ++ u)
        (write rest) := by
  obtain ⟨-, -, g, g', -, -, hwrite⟩ := write_of_memberAfter? h.2.2 hm
  have hafter : a ++ write ls = accessText a g g' f ++ write rest := by
    rw [hwrite]
    simp [accessText]
  have hlen : (accessText a g g' f).length + (write rest).length = (a ++ write ls).length := by
    rw [hafter, length_append]
  -- every way of the rule here is this access
  have hfirst : (anyFieldAccess bs).firstAt ⟨before, a ++ write ls⟩ =
      some (handleName a ++ '.' :: f, (accessText a g g' f).length) := by
    have hmem : (handleName a ++ '.' :: f, (accessText a g g' f).length) ∈
        anyFieldAccess bs ⟨before, a ++ write ls⟩ :=
      (mem_anyFieldAccess_word hbs h).2 ⟨hopen, f, rest, hm, hfield, rfl, hlen⟩
    obtain ⟨⟨v, n⟩, ways, hways⟩ := exists_cons_of_ne_nil (ne_nil_of_mem hmem)
    have hfirst : (v, n) ∈ anyFieldAccess bs ⟨before, a ++ write ls⟩ := by
      rw [hways]
      exact mem_cons_self
    obtain ⟨-, f', rest', hm', -, rfl, hn⟩ := (mem_anyFieldAccess_word hbs h).1 hfirst
    obtain ⟨rfl, rfl⟩ := Prod.mk.inj (Option.some.inj (hm.symm.trans hm'))
    rw [firstAt, hways, head?_cons]
    congr 2
    omega
  obtain ⟨x, t, hxt⟩ : ∃ x t, a ++ write ls = x :: t :=
    exists_cons_of_ne_nil (append_ne_nil_of_left_ne_nil h.1.ne_nil _)
  obtain ⟨k, hk⟩ : ∃ k, (accessText a g g' f).length = k + 1 :=
    Nat.exists_eq_succ_of_ne_zero fun hzero =>
      h.1.ne_nil (append_eq_nil_iff.1 (eq_nil_of_length_eq_zero hzero)).1
  have htake : (x :: t).take (k + 1) = accessText a g g' f := by
    rw [← hxt, hafter, ← hk, take_left]
  have hdrop : (x :: t).drop (k + 1) = write rest := by
    rw [← hxt, hafter, ← hk, drop_left]
  rw [hxt, hk] at hfirst
  have hreach : k + 1 ≤ (x :: t).length := by
    rw [← hxt, ← hlen]
    omega
  refine ⟨(a ++ (g ++ '.' :: g')).reverse ++ before, ?_⟩
  rw [hxt, replacedFrom_of_some hreach hfirst, htake, hdrop]
  simp [accessText]

/-- On a stretch of code the rule does what routing does on its lexemes. -/
theorem replacedFrom_write (hbs : ∀ b ∈ bs, b.Named) (h : Lexed ls) (before : Text) :
    replacedFrom (anyFieldAccess bs) before (write ls) =
    write (route (isField bs) (positionAfter before) ls) := by
  induction hn : ls.length using Nat.strong_induction_on generalizing before ls with
  | _ n ih =>
    have hnone : ∀ {c : Cursor}, mayOpen c.before = false ∨ c.after.head?.any isWord = false →
        anyFieldAccess bs c = [] := by
      intro c hc
      by_contra hne
      obtain ⟨hopen, hword⟩ := mayOpen_of_anyFieldAccess hbs hne
      rw [hopen, hword] at hc
      simp at hc
    cases ls with
    | nil => rfl
    | cons l ls =>
      cases l with
      | gap g =>
        obtain ⟨⟨hne, hg⟩, -, hls⟩ := h
        rw [write_cons, text_gap, replacedFrom_append, ih ls.length (by rw [← hn]; simp) hls _ rfl,
          positionAfter_gap hne hg]
        · rfl
        · intro v w hvw hw
          refine hnone (.inr ?_)
          obtain ⟨x, w, rfl⟩ := exists_cons_of_ne_nil hw
          by_contra hx
          have hblank := hg x (by rw [hvw]; simp)
          rw [isBlank_of_isWord (by simpa using hx)] at hblank
          cases hblank
      | mark x =>
        obtain ⟨⟨hx, -⟩, -, hls⟩ := h
        rw [write_cons, text_mark, replacedFrom_append, ih ls.length (by rw [← hn]; simp) hls _ rfl]
        · show x :: write (route _ (positionAfter (x :: before)) ls) = _
          rw [positionAfter_mark hx]
          rfl
        · intro v w hvw hw
          refine hnone (.inr ?_)
          obtain ⟨y, w, rfl⟩ := exists_cons_of_ne_nil hw
          obtain rfl : y = x := by
            have hmem : y ∈ [x] := by rw [hvw]; simp
            exact mem_singleton.1 hmem
          exact hx
      | word a =>
        have hname := h.1
        by_cases hmatch : mayOpen before = true ∧ (memberAfter? ls).any (isField bs a ·.1) = true
        · obtain ⟨hopen, hmember⟩ := hmatch
          cases hm : memberAfter? ls with
          | none =>
            rw [hm] at hmember
            cases hmember
          | some m =>
            obtain ⟨f, rest⟩ := m
            rw [hm] at hmember
            have hlexed := (write_of_memberAfter? h.2.2 hm).1
            have hshorter : rest.length < n := by
              rw [← hn]
              exact Nat.lt_succ_of_lt (length_of_memberAfter? hm)
            obtain ⟨u, hreplaced⟩ := replacedFrom_access hbs h hopen hm hmember
            rw [write_cons, text_word, hreplaced, ih rest.length hshorter hlexed.2.2 _ rfl,
              positionAfter_word hlexed.1, positionAfter, route,
              if_pos (by rw [hopen, hm]; exact hmember), route_inside hm]
            simp
        · rw [write_cons, text_word, replacedFrom_append, ih ls.length (by rw [← hn]; simp)
            h.2.2 _ rfl,
            positionAfter_word hname]
          · rw [positionAfter, route, if_neg (by simpa using hmatch)]
            rfl
          · intro v w hvw hw
            cases v with
            | nil =>
              obtain rfl : a = w := hvw
              by_contra hne
              obtain ⟨⟨v, n⟩, hmem⟩ := exists_mem_of_ne_nil _ hne
              obtain ⟨hopen, f, rest, hm, hfield, -⟩ := (mem_anyFieldAccess_word hbs h).1 hmem
              exact hmatch ⟨hopen, by rw [hm]; exact hfield⟩
            | cons x v =>
              -- inside the word no receiver starts
              refine hnone (.inl (mayOpen_eq_false ?_))
              have hv : IsName (x :: v) :=
                ⟨cons_ne_nil x v,
                  fun y hy => hname.word y (by rw [hvw]; exact mem_append_left _ hy)⟩
              have hlast := hv.getLast?
              rw [head?_append_of_ne_nil _ (by simp), head?_reverse, hlast]

/-- On a stretch of code the rule does what routing does on its lexemes. -/
theorem replaceAll_write (hbs : ∀ b ∈ bs, b.Named) (h : Lexed ls) :
    (anyFieldAccess bs).replaceAll (write ls) = write (route (isField bs) (.free true false) ls) :=
  replacedFrom_write hbs h []

end Lowering

end AnchorLowering
