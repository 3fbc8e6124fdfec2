import AnchorLowering.Lowering.AccountAccess
import AnchorLowering.Proofs.PreferredWay
import AnchorLowering.Proofs.SequenceRules
import AnchorLowering.Proofs.StatementText

/-!
# The rules for state accesses

The rules that inline aliases and route fields each read one name as a receiver, and more after it
(`ReceiverRule`); they match nowhere but at their own name. The rule for loads reads a receiver and
a call (`way_loadRule`). A statement that binds an alias is dropped or kept as a whole
(`way_dropAlias`), and a key that is assigned to a field behind a handle gets a star before it, with
the left side of the assignment as it was (`exists_key_of_way`).
-/

namespace AnchorLowering.Lowering

open List Pattern Source

variable {before rest t u v w account g : Text} {e : Text × Text} {α : Type} {b : StateBinding}

/-! ## Reading a receiver -/

/-- A rule that reads the name as a receiver, and more after it. -/
structure ReceiverRule (name : Text) (rule : Pattern Text) : Prop where
  bounded : Bounded rule
  way : ∀ {before v u rest}, Way rule before v u rest → mayOpen before = true ∧ Bare v ∧ ∃ tail,
    u = name ++ tail ∧
    '&' ∉ tail ∧ (tail ++ rest).head?.any isWord = false

theorem mayOpen_after_name {r before : Text} (hr : IsName r) :
    mayOpen ('.' :: (r.reverse ++ before)) = false := by
  obtain ⟨x, t, hx⟩ := exists_cons_of_ne_nil (l := r.reverse) (by simpa using hr.ne_nil)
  have hword : isWord x = true := hr.word x (by rw [← mem_reverse, hx]; exact mem_cons_self)
  rw [hx]
  show ((x :: t ++ before).head? == some '.') = false
  simpa using ne_dot_of_isWord hword

namespace ReceiverRule

variable {name : Text} {rule : Pattern Text} (h : ReceiverRule name rule) (hname : IsName name)

include h

/-- A rule on receivers writes no quote that was not there. -/
theorem keepsBare : KeepsBare rule := fun _ _ _ _ hway _ => (h.way hway).2.1

/-- Where no receiver may start the rule does not match. -/
theorem eq_nil_of_closed (hbefore : mayOpen before = false) : rule ⟨before, t⟩ = [] := by
  by_contra hne
  obtain ⟨v, u, rest, hsplit, hway⟩ := (ne_nil_iff_way h.bounded).1 hne
  have hopen := (h.way hway).1
  rw [hbefore] at hopen
  cases hopen

include hname

/-- The rule matches only where a receiver starts that is the name. -/
theorem eq_of_ne_nil (hw : ∀ x ∈ w, isWord x = true) (ht : t.head?.any isWord = false)
    (hne : rule ⟨before, w ++ t⟩ ≠ []) : w = name := by
  obtain ⟨v, u, rest, hsplit, hway⟩ := (ne_nil_iff_way h.bounded).1 hne
  obtain ⟨-, -, tail, rfl, -, hhead⟩ := h.way hway
  rw [append_assoc] at hsplit
  exact (append_inj_of_class hw hname.word ht hhead hsplit).1

theorem opensName : OpensName rule := by
  intro before t hne
  obtain ⟨v, u, rest, hsplit, hway⟩ := (ne_nil_iff_way h.bounded).1 hne
  obtain ⟨hopen, -, tail, rfl, -, -⟩ := h.way hway
  refine ⟨?_, ?_⟩
  · by_contra hword
    rw [mayOpen_eq_false (by simpa using hword)] at hopen
    cases hopen
  · rw [hsplit, append_assoc, head?_append_of_ne_nil _ hname.ne_nil]
    exact hname.head?

end ReceiverRule

theorem way_receiver {name before rest : Text} {a : Unit} :
    Way (receiver name) before a u rest ↔ mayOpen before = true ∧ u = name := by
  simp only [receiver, receiverStart_eq, way_bind, way_behind, way_lit]
  constructor
  · rintro ⟨_, _, _, rfl, ⟨rfl, hopen⟩, rfl⟩
    exact ⟨hopen, rfl⟩
  · rintro ⟨hopen, rfl⟩
    exact ⟨(), [], u, rfl, ⟨rfl, hopen⟩, rfl⟩

/-! ## Loads -/

/-- The rule that drops loads of a record. -/
def loadRule (b : StateBinding) : Pattern Text := do return (← recordLoad b).2

/-- A load is taken as a whole, and the account stands in its place. -/
theorem way_loadRule (h : Way (loadRule b) before v u rest) :
    mayOpen before = true ∧ v = b.account ∧ ∃ g g' w k k' k'', Blank g ∧ Blank g' ∧
      (∀ x ∈ w, isWord x = true) ∧ Blank k ∧ Blank k' ∧
      Blank k'' ∧
      u = b.account ++
      (g ++ '.' :: (g' ++
        ("load".toList ++ (w ++ (k ++ '(' :: (k' ++ ')' :: (k'' ++ ['?']))))))) := by
  obtain ⟨_, _, _, rfl, hload, hreturn⟩ := way_bind.1 h
  obtain ⟨hvalue, rfl⟩ := way_pure.1 hreturn
  obtain ⟨_, _, _, rfl, hreceiver, hload⟩ := way_bind.1 hload
  obtain ⟨hopen, rfl⟩ := way_receiver.1 hreceiver
  obtain ⟨_, _, _, rfl, hdot, hload⟩ := way_bind.1 hload
  obtain ⟨g, g', rfl, hg, hg'⟩ := way_spaced.1 hdot
  obtain ⟨_, _, _, rfl, hlit, hload⟩ := way_bind.1 hload
  obtain rfl := way_lit.1 hlit
  obtain ⟨o, w, _, rfl, hw, hload⟩ := way_bind.1 hload
  obtain ⟨_, k, _, rfl, hk, hload⟩ := way_bind.1 hload
  obtain ⟨_, _, _, rfl, htokens, hpure⟩ := way_bind.1 hload
  obtain ⟨rfl, rfl⟩ := way_pure.1 hpure
  obtain ⟨k', _, rfl, hk', htokens⟩ := way_tokens_cons.1 htokens
  obtain ⟨k'', _, rfl, hk'', hmark⟩ := way_tokens_cons.1 htokens
  obtain rfl := way_lit.1 hmark
  have hword : ∀ t ∈ ["_mut".toList, "_init".toList], ∀ x ∈ t, isWord x = true := by decide
  have hw : ∀ x ∈ w, isWord x = true := by
    rcases way_opt.1 hw with ⟨t, -, ht⟩ | ⟨-, rfl⟩
    · obtain ⟨rfl, ht⟩ := way_oneOf.1 ht
      exact hword _ ht
    · simp
  exact ⟨hopen, hvalue, g, g', w, k, k', k'', hg, hg', hw, way_many.1 hk, hk', hk'', by simp⟩

theorem bounded_recordLoad (b : StateBinding) : Bounded (recordLoad b) :=
  Takes.bind (Takes.behind.bind fun _ => Bounded.lit) fun _ => Bounded.spaced.bind fun _ =>
    Bounded.lit.bind fun _ =>
    (Takes.opt Bounded.oneOf).bind fun _ => Bounded.many.bind fun _ => Bounded.tokens.bind
      fun _ => .pure _

theorem bounded_loadRule (b : StateBinding) : Bounded (loadRule b) :=
  (bounded_recordLoad b).bind fun _ => .pure _

/-- The field that a key is stored in, up to the sign of the assignment. -/
theorem bounded_keyTarget (handles : List Text) : Bounded (do
    wordBoundary
    let _ ← oneOf handles
    spaced "."
    word
    indices
    blanks
    lit "="
    notAhead (lit "=")
    blanks) := by
  have hindices : Bounded indices :=
    Takes.star (Bounded.many.bind fun _ => Bounded.lit.bind fun _ => Bounded.many.bind fun _ =>
      Bounded.lit)
  exact Takes.wordBoundary.bind fun _ => Bounded.oneOf.bind fun _ => Bounded.spaced.bind fun _ =>
    Bounded.many1.bind fun _ =>
    hindices.bind fun _ => Bounded.many.bind fun _ => Bounded.lit.bind fun _ => Takes.notAhead.bind
      fun _ => Bounded.many

theorem head?_gap (hg : Blank g) {x : Char} (hx : isWord x = false) (t : Text) :
    (g ++ x :: t).head?.any isWord = false := by
  cases g with
  | nil => simpa using hx
  | cons y g => simpa using isWord_of_isBlank (hg y mem_cons_self)

/-! ## Aliases -/

theorem mem_set {table : Table α} {name : Text} {value : α} {e : Text × α}
    (h : e ∈ table.set name value) :
    e ∈ table ∨ e = (name, value) := by
  induction table with
  | nil => exact .inr (by simpa [Table.set] using h)
  | cons entry rest ih =>
    rw [Table.set] at h
    split at h
    · rename_i hname
      rcases mem_cons.1 h with rfl | h
      · exact .inr (by rw [beq_iff_eq.1 hname])
      · exact .inl (mem_cons_of_mem _ h)
    · rcases mem_cons.1 h with rfl | h
      · exact .inl mem_cons_self
      · exact (ih h).imp (mem_cons_of_mem _) id

theorem mem_of_mem_ofEntries {entries : List (Text × α)} {e : Text × α}
    (h : e ∈ Table.ofEntries entries) :
    e ∈ entries := by
  have hfold : ∀ (entries : List (Text × α)) (table : Table α),
      e ∈ entries.foldl (fun table e => table.set e.1 e.2) table → e ∈ table ∨ e ∈ entries := by
    intro entries
    induction entries with
    | nil => exact fun table h => .inl h
    | cons entry entries ih =>
      intro table h
      rcases ih _ h with h | h
      · exact (mem_set h).imp id fun heq => mem_cons.2 (.inl heq)
      · exact .inr (mem_cons_of_mem _ h)
  exact (hfold entries [] h).resolve_left not_mem_nil

theorem bounded_word : Bounded (capture word) := Bounded.many1.capture

theorem bounded_mut : Bounded (opt (do lit "mut"; blanks1)) :=
  Takes.opt (Bounded.lit.bind fun _ => Bounded.many1)

theorem bounded_letKeyword : Bounded letKeyword :=
  Takes.wordBoundary.bind fun _ => Bounded.lit.bind fun _ => Bounded.many1.bind fun _ =>
    bounded_mut.bind fun _ => .pure _

theorem bounded_borrow : Bounded borrow :=
  Bounded.lit.bind fun _ => Bounded.many.bind fun _ => bounded_mut.bind fun _ => .pure _

theorem bounded_aliasBinding : Bounded Context.aliasBinding := by
  have hctx : Bounded (opt (do tokens ["ctx", ".", "accounts", "."]; blanks)) :=
    Takes.opt (Bounded.tokens.bind fun _ => Bounded.many)
  exact bounded_letKeyword.bind fun _ => bounded_word.bind fun _ => Bounded.spaced.bind fun _ =>
    bounded_borrow.opt.bind fun _ => hctx.bind fun _ => bounded_word.bind fun _ =>
      Bounded.many.bind fun _ =>
      Bounded.lit.bind fun _ => .pure _

theorem isName_of_way_word (h : Way (capture word) before w u rest) : u = w ∧ IsName w := by
  obtain ⟨rfl, _, hw⟩ := way_capture.1 h
  obtain ⟨hne, hword⟩ := way_many1.1 hw
  exact ⟨rfl, hne, hword⟩

/-- An alias binds a name to a name. -/
theorem isName_of_way_aliasBinding (h : Way Context.aliasBinding before e u rest) :
    IsName e.1 ∧ IsName e.2 := by
  obtain ⟨_, _, _, -, -, h⟩ := way_bind.1 h
  obtain ⟨name, _, _, -, hname, h⟩ := way_bind.1 h
  obtain ⟨_, _, _, -, -, h⟩ := way_bind.1 h
  obtain ⟨_, _, _, -, -, h⟩ := way_bind.1 h
  obtain ⟨_, _, _, -, -, h⟩ := way_bind.1 h
  obtain ⟨account, _, _, -, haccount, h⟩ := way_bind.1 h
  obtain ⟨_, _, _, -, -, h⟩ := way_bind.1 h
  obtain ⟨_, _, _, -, -, h⟩ := way_bind.1 h
  obtain ⟨rfl, -⟩ := way_pure.1 h
  exact ⟨(isName_of_way_word hname).2, (isName_of_way_word haccount).2⟩

/-- An alias and what it stands for are names. -/
theorem isName_of_mem_aliases {c : Context} (h : e ∈ c.aliases t) : IsName e.1 ∧ IsName e.2 := by
  have hmem := (mem_filter.1 (mem_of_mem_ofEntries h)).1
  obtain ⟨m, hm, rfl⟩ := mem_map.1 hmem
  obtain ⟨u, v, n, -, -, -, hfirst⟩ := mem_matchesFrom (mem_of_mem_filter hm)
  obtain ⟨w, rest, -, -, hway⟩ := (mem_iff_way bounded_aliasBinding).1 (mem_of_mem_head? hfirst)
  exact isName_of_way_aliasBinding hway

/-- The rule that replaces an alias. -/
def aliasRule (e : Text × Text) : Pattern Text := do
  wholeReceiver e.1
  pure e.2

/-- Putting the account in the place of its alias is a rule on receivers. -/
theorem receiverRule_alias (hname : IsName e.1) (haccount : IsName e.2) :
    ReceiverRule e.1 (aliasRule e) where
  bounded := Takes.bind (Takes.bind (Takes.behind.bind fun _ => Bounded.lit) fun _ =>
    .wordBoundary) fun _ => .pure _
  way := by
    intro before v u rest h
    obtain ⟨_, _, _, rfl, hreceiver, hreturn⟩ := way_bind.1 h
    obtain ⟨rfl, rfl⟩ := way_pure.1 hreturn
    obtain ⟨_, _, _, rfl, hreceiver, hboundary⟩ := way_bind.1 hreceiver
    obtain ⟨hopen, rfl⟩ := way_receiver.1 hreceiver
    obtain ⟨rfl, hne⟩ := way_wordBoundary.1 hboundary
    refine ⟨hopen, .of_word haccount.word, [], by simp, by simp, ?_⟩
    have hlast := hname.getLast?
    rw [head?_append_of_ne_nil _ (by simpa using hname.ne_nil), head?_reverse, hlast] at hne
    simpa using hne

/-! ## Fields -/

/-- An access is the account, a dot and one of the fields, with blanks around the dot. -/
theorem way_fieldAccess (hb : b.Named) :
    Way (fieldAccess b) before v u rest ↔ mayOpen before = true ∧ ∃ g g' f, Blank g ∧
      Blank g' ∧ f ∈ b.fields ∧ u = accessText b.account g g' f ∧ rest.head?.any isWord = false ∧
      ¬ IsCalled rest ∧ v = b.handle ++ '.' :: f := by
  rw [Way, mem_fieldAccess hb]
  constructor
  · rintro ⟨hopen, g, g', f, rest', hg, hg', hf, hsplit, hhead, hcalled, hv, hlen⟩
    obtain ⟨rfl, rfl⟩ := List.append_inj hsplit hlen
    exact ⟨hopen, g, g', f, hg, hg', hf, rfl, hhead, hcalled, hv⟩
  · rintro ⟨hopen, g, g', f, hg, hg', hf, rfl, hhead, hcalled, hv⟩
    exact ⟨hopen, g, g', f, rest, hg, hg', hf, rfl, hhead, hcalled, hv, rfl⟩

/-- The field of an access can be read off its text. -/
theorem accessText_inj {g' f k k' f' rest rest' : Text} (hg : Blank g)
    (hg' : Blank g') (hk : Blank k) (hk' : Blank k') (hf : IsName f)
    (hf' : IsName f') (hrest : rest.head?.any isWord = false)
    (hrest' : rest'.head?.any isWord = false)
    (h : accessText account g g' f ++ rest = accessText account k k' f' ++ rest') :
    g = k ∧ g' = k' ∧ f = f' ∧ rest = rest' := by
  simp only [accessText, append_assoc, cons_append] at h
  obtain ⟨rfl, hdot⟩ := append_inj_of_class hg hk rfl rfl (append_cancel_left h)
  obtain ⟨rfl, hfield⟩ := append_inj_of_class hg' hk' (not_blank_append hf.head? rest)
    (not_blank_append hf'.head? rest')
    (cons.inj hdot).2
  obtain ⟨rfl, rfl⟩ := append_inj_of_class hf.word hf'.word hrest hrest' hfield
  exact ⟨rfl, rfl, rfl, rfl⟩

/-- Routing an access is a rule on receivers. -/
theorem receiverRule_field (hb : b.Named) : ReceiverRule b.account (fieldAccess b) where
  bounded := bounded_fieldAccess b
  way := by
    intro before v u rest h
    obtain ⟨hopen, g, g', f, hg, hg', hf, rfl, -, -, rfl⟩ := (way_fieldAccess hb).1 h
    have hfield := hb.fields f hf
    have hhandle : IsName b.handle := isName_handleName hb.account
    refine ⟨hopen, (Bare.of_word hhandle.word).append (.cons rfl (.of_word hfield.word)),
      _, rfl, ?_, ?_⟩
    · simp only [mem_append, mem_cons, not_or]
      exact ⟨fun hmem => absurd (hg _ hmem) (by decide),
        by decide, fun hmem => absurd (hg' _ hmem) (by decide),
        fun hmem => absurd (hfield.word _ hmem) (by decide)⟩
    · rw [append_assoc]
      exact head?_gap hg rfl _

/-! ## Alias statements -/

variable {c : Context} {aliases : Table Text}

theorem isBlank_of_isLineBlank {x : Char} (h : isLineBlank x = true) : isBlank x = true := by
  simp only [isLineBlank, Bool.or_eq_true, beq_iff_eq] at h
  rcases h with rfl | rfl <;> decide

theorem bounded_aliasStatement : Bounded aliasStatement :=
  Bounded.many.bind fun _ => bounded_letKeyword.bind fun _ => bounded_word.bind fun _ =>
    Bounded.spaced.bind fun _ =>
    bounded_borrow.opt.bind fun _ => bounded_word.bind fun _ => Bounded.many.bind fun _ =>
      Bounded.lit.bind fun _ =>
      Bounded.many.bind fun _ => Bounded.lit.opt.bind fun _ => .pure _

/-- The binding of an alias is removed or kept as it is. -/
theorem way_dropAlias (h : Way (dropAlias c aliases) before v u rest) :
    (v = [] ∨ v = u) ∧ ∃ e, Way aliasStatement before e u rest := by
  obtain ⟨⟨e, w⟩, _, _, rfl, hway, h⟩ := way_bind.1 h
  obtain ⟨rfl, hway⟩ := way_withText.1 hway
  obtain ⟨rfl, rfl⟩ := way_pure.1 h
  refine ⟨?_, e, by simpa using hway⟩
  dsimp only
  split
  · exact .inl rfl
  · exact .inr (append_nil _).symm

theorem bounded_dropAlias (c : Context) (aliases : Table Text) : Bounded (dropAlias c aliases) :=
  bounded_aliasStatement.withText.bind fun _ => .pure _

theorem keepsBare_dropAlias (c : Context) (aliases : Table Text) :
    KeepsBare (dropAlias c aliases) := by
  intro before v u rest hway hbare
  rcases (way_dropAlias hway).1 with rfl | rfl
  · exact .nil
  · exact hbare

/-! ## Key assignments -/

theorem bounded_keyCall : Bounded keyCall := by
  have hlink : Bounded link :=
    Takes.wordBoundary.bind fun _ => Bounded.many1.bind fun _ => Bounded.spaced
  exact Takes.bind (hlink.bind fun _ => Takes.star hlink) fun _ => Bounded.lit.bind fun _ =>
    Bounded.many.bind fun _ => Bounded.tokens

/-- A call for a key ends with its bracket. -/
theorem getLast?_of_way_keyCall {a : Unit} (h : Way keyCall before a u rest) :
    u.getLast? = some ')' := by
  obtain ⟨_, _, _, rfl, -, h⟩ := way_bind.1 h
  obtain ⟨_, _, _, rfl, -, h⟩ := way_bind.1 h
  obtain ⟨_, k, _, rfl, -, h⟩ := way_bind.1 h
  obtain ⟨k', _, rfl, -, hclose⟩ := way_tokens_cons.1 h
  obtain rfl := way_lit.1 hclose
  simp [getLast?_append, getLast?_cons]

theorem bounded_keyAssignment (handles : List Text) : Bounded (keyAssignment handles) :=
  (bounded_keyTarget handles).capture.bind fun _ => bounded_keyCall.capture.bind fun _ =>
    Takes.notAhead.bind fun _ => .pure _

/-- A match of the rule for key assignments is a left side and a key, and only a star comes between
them. -/
theorem exists_key_of_way {handles : List Text} (h : Way (keyAssignment handles) before v u rest) :
    ∃ left key, u = left ++ key ∧ v = left ++ '*' :: key ∧ key.getLast? = some ')' := by
  obtain ⟨left, _, _, rfl, hleft, h⟩ := way_bind.1 h
  obtain ⟨key, _, _, rfl, hkey, h⟩ := way_bind.1 h
  obtain ⟨_, _, _, rfl, hstop, h⟩ := way_bind.1 h
  obtain ⟨rfl, rfl⟩ := way_pure.1 h
  obtain ⟨rfl, -⟩ := way_notAhead.1 hstop
  obtain ⟨rfl, -⟩ := way_capture.1 hleft
  obtain ⟨rfl, _, hkey⟩ := way_capture.1 hkey
  exact ⟨left, key, by simp, by simp [Text.concat], getLast?_of_way_keyCall hkey⟩

theorem keepsBare_keyAssignment (handles : List Text) : KeepsBare (keyAssignment handles) := by
  intro before v u rest hway hbare
  obtain ⟨left, key, rfl, rfl, -⟩ := exists_key_of_way hway
  exact hbare.left.append (.cons rfl hbare.right)

end AnchorLowering.Lowering
