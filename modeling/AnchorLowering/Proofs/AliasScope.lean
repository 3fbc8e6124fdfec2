import AnchorLowering.Proofs.RoutingOrder
import AnchorLowering.Proofs.StraightLineBody

/-!
# Aliases and their scopes

A straight-line body binds locals to accounts and accesses fields through them. What an access means
is said by the nearest binding of its receiver before it (`resolved`). Lowering reads the bindings
into one table for the whole body, in which the last binding of a name wins, and then renames
receivers by that table and routes them to handles, one entry and one account after the other
(`landing`).

Main result: `lowerState_eq_resolved_iff`.

A name that is bound a second time, to another account, is not safe
(`shadowed_alias_lands_in_last_account`).
-/

namespace AnchorLowering.Lowering

open List Pattern Source

variable {as bs : List Access} {b : StateBinding} {aliases scope : Table Text}
  {account before f name p q r rest t : Text} {e : Text × Text} {goal : Text → Text →
    Text} {α ι : Type}
  {rule : Pattern Text} {c : Context} {s : AliasLine}

/-! ## What an access means -/

/-- The accesses of a body, each to the handle of the account that its receiver is bound to last
before it. A receiver that is not bound is an account itself. -/
def resolved (scope : Table Text) : List BodyItem → List Access
  | [] => []
  | .binding s :: body => resolved ((s.name, s.account) :: scope) body
  | .access a :: body =>
    { a with receiver := handleName ((scope.get? a.receiver).getD a.receiver) } ::
    resolved scope body

/-- The one table of a body: a later binding replaces an earlier one. -/
def aliasTable (body : List BodyItem) : Table Text :=
  .ofEntries ((bindings body).map fun s => (s.name, s.account))

/-- A receiver after one entry of the table. -/
def rename (receiver : Text) (entry : Text × Text) : Text :=
  if receiver = entry.1 then entry.2 else receiver

/-- The receiver where an access lands: it is renamed by one entry after the other, and routed by
one account after the other. -/
def landing (aliases : Table Text) (states : List StateBinding) (receiver field : Text) : Text :=
  states.foldl (redirect field) (aliases.foldl rename receiver)

/-- The table of the body agrees with its scopes. -/
@[mk_iff]
structure FollowsScopes (c : Context) (body : List BodyItem) : Prop where
  bindings : ∀ s ∈ bindings body, s.name = s.account ∨ (aliasTable body).get? s.name =
    some s.account
  accesses : (accesses body).map
    (fun a => { a with receiver := landing (aliasTable body) c.states a.receiver a.field }) =
    resolved [] body

instance (c : Context) (body : List BodyItem) : Decidable (FollowsScopes c body) :=
  decidable_of_iff _ (followsScopes_iff ..).symm

/-! ## What does not occur -/

theorem mem_of_way_recordLoad {before u rest : Text} {e : Bool × Text}
    (h : Way (recordLoad b) before e u rest) : '(' ∈ u := by
  have hrule : Way (loadRule b) before e.2 u rest :=
    way_bind.2 ⟨e, u, [], (append_nil u).symm, h, way_pure.2 ⟨rfl, rfl⟩⟩
  obtain ⟨-, -, g, g', w, k, k', k'', -, -, -, -, -, -, rfl⟩ := way_loadRule hrule
  simp

theorem replaceInCode_eq_self_of_not_mem (hrule : Bounded rule)
    (htakes : ∀ {before v u rest}, Way rule before v u rest → x ∈ u) (hbare : Bare t) (hx : x ∉ t) :
    replaceInCode rule t = t := by
  refine replaceInCode_eq_self hbare ?_
  rw [occurs, Source.find?, Source.findAll, findAll_eq_nil hrule htakes hx]
  rfl

theorem unloadRecords_eq_self (states : List StateBinding) (h : Calm t) :
    unloadRecords states t = (t, []) := by
  induction states with
  | nil => rfl
  | cons b states ih =>
    have hopen : '(' ∉ t := h.not_mem rfl
    have hloads : loadsForWriting t b = false := by
      rw [loadsForWriting, Source.findAll,
        findAll_eq_nil (bounded_recordLoad b) mem_of_way_recordLoad hopen]
      rfl
    have hdrop : dropLoads t b = t :=
      replaceInCode_eq_self_of_not_mem (bounded_loadRule b) (fun hway => by
        obtain ⟨_, _, _, rfl, hload, hreturn⟩ := way_bind.1 hway
        obtain ⟨-, rfl⟩ := way_pure.1 hreturn
        exact mem_append_left _ (mem_of_way_recordLoad hload)) h.bare hopen
    rw [unloadRecords, hloads, hdrop, ih]
    rfl

theorem storeKeys_eq_self (h : Calm t) : storeKeys c t = t := by
  refine replaceInCode_eq_self_of_not_mem (x := ')') (bounded_keyAssignment _)
    (fun hway => ?_) h.bare (h.not_mem rfl)
  obtain ⟨left, key, rfl, -, hlast⟩ := exists_key_of_way hway
  exact mem_append_right _ (mem_of_getLast? hlast)

/-! ## Rules on accesses -/

variable {a : Access}

/-- The access with another receiver. -/
def Access.toward (goal : Text → Text → Text) (a : Access) : Access :=
  { a with receiver := goal a.receiver a.field }

/-- The rule gives every access a receiver, and changes nothing else. -/
structure Redirects (rule : Pattern Text) (goal : Text → Text → Text) : Prop where
  opens : ∀ ⦃before t⦄, rule ⟨before, t⟩ ≠ [] → mayOpen before = true ∧ t.head?.any isWord = true
  access : ∀ {before r f rest}, mayOpen before = true → IsName r → IsName f →
    rest.head?.any isWord = false →
    ¬ IsCalled rest → replacedFrom rule before (r ++ '.' :: (f ++ rest)) =
      goal r f ++ '.' :: (f ++ replacedFrom rule (f.reverse ++ '.' :: (r.reverse ++ before)) rest)

section

variable {rule : Pattern Text} (hopens : ∀ ⦃before t⦄, rule ⟨before, t⟩ ≠ [] →
  mayOpen before = true ∧ t.head?.any isWord = true)

include hopens

theorem opensName_of_opens : OpensName rule := by
  intro before t hne
  obtain ⟨hopen, hword⟩ := hopens hne
  refine ⟨?_, hword⟩
  by_contra hbefore
  rw [mayOpen_eq_false (by simpa using hbefore)] at hopen
  cases hopen

theorem quiet_member_of_opens (hr : IsName r) (hf : IsName f) :
    Quiet rule (r.reverse ++ before) ('.' :: f) rest := by
  have hname := opensName_of_opens hopens
  have hdot : ∀ x ∈ ['.'], isWord x = false := by decide
  rw [← singleton_append]
  refine (hname.quiet_marks hdot).append (hname.quiet_name hf.word ?_)
  by_contra hne
  have hopen := (hopens hne).1
  rw [show ['.'].reverse ++ (r.reverse ++ before) = '.' :: (r.reverse ++ before) from rfl,
    mayOpen_after_name hr] at hopen
  cases hopen

/-- A rule that only reads the receiver leaves the member of an access. -/
theorem replacedFrom_member (hr : IsName r) (hf : IsName f) :
    replacedFrom rule (r.reverse ++ before) ('.' :: (f ++ rest)) =
      '.' :: (f ++ replacedFrom rule (f.reverse ++ '.' :: (r.reverse ++ before)) rest) := by
  have hquiet : Quiet rule (r.reverse ++ before) ('.' :: f) rest :=
    quiet_member_of_opens hopens hr hf
  simpa using hquiet.replacedFrom_eq

end

theorem mayOpen_append {g before : Text} (hg : ∀ x ∈ g, isNeutral x = true)
    (h : mayOpen before = true) :
    mayOpen (g.reverse ++ before) = true := by
  cases hlast : g.reverse with
  | nil => exact h
  | cons x t =>
    obtain ⟨hword, -, hdot, -⟩ :=
      isNeutral_iff.1 (hg x (by rw [← mem_reverse, hlast]; exact mem_cons_self))
    rw [cons_append, mayOpen_cons hdot, hword]
    rfl

theorem Access.Plain.not_called (h : a.Plain) (rest : Text) :
    (a.tail ++ rest).head?.any isWord = false ∧ ¬ IsCalled (a.tail ++ rest) := by
  obtain ⟨g, x, t, htail, hg, hx, hneutral⟩ := h.tail_split
  obtain ⟨hword, -, -, hopen, -⟩ := isNeutral_iff.1 hneutral
  rw [htail, append_assoc, cons_append]
  refine ⟨head?_gap hg hword _, ?_⟩
  rintro ⟨g', rest', hg', heq⟩
  exact hopen (cons.inj (append_inj_of_class (s := x :: (t ++ rest)) hg hg' (by simpa using hx) rfl
    heq).2).1

/-- **A rule that redirects accesses acts on each of them.** -/
theorem Redirects.replacedFrom_eq (h : Redirects rule goal) (has : ∀ a ∈ as, a.Plain)
    (hbefore : mayOpen before = true) :
    replacedFrom rule before (accessesText as) = accessesText (as.map (Access.toward goal)) := by
  have hname := opensName_of_opens h.opens
  induction as generalizing before with
  | nil => rfl
  | cons a as ih =>
    have ha := has a mem_cons_self
    have hlead : ∀ x ∈ a.lead, isWord x = false := fun x hx => isWord_of_isBlank (ha.lead x hx)
    have htail : ∀ x ∈ a.tail, isWord x = false := fun x hx => (isNeutral_iff.1 (ha.tail x hx)).1
    obtain ⟨hword, hcalled⟩ := ha.not_called (accessesText as)
    have hopen := mayOpen_append (fun x hx => isNeutral_of_isBlank (ha.lead x hx)) hbefore
    -- past the solid character a receiver may start again, whatever stood before
    have hrest : ∀ out : Text, mayOpen (a.tail.reverse ++ out) = true := by
      intro out
      obtain ⟨g, x, t, hsplit, -, -, hneutral⟩ := ha.tail_split
      have hx := isNeutral_iff.1 hneutral
      have hsolid : mayOpen (x :: (g.reverse ++ out)) = true := by
        rw [mayOpen_cons hx.2.2.1, hx.1]
        rfl
      rw [hsplit]
      simpa using mayOpen_append (g := t) (fun y hy => ha.tail y (by rw [hsplit]; simp [hy])) hsolid
    have hsplit : accessesText (a :: as) =
        a.lead ++ (a.receiver ++ '.' :: (a.field ++ (a.tail ++ accessesText as))) := by
      simp [accessesText, Access.text]
    rw [hsplit, (hname.quiet_marks hlead).replacedFrom_eq,
      h.access hopen ha.receiver ha.field hword hcalled,
      (hname.quiet_marks htail).replacedFrom_eq, ih (fun b hb => has b (mem_cons_of_mem a hb))
      (hrest _)]
    simp [accessesText, Access.text, Access.toward]

theorem Redirects.replaceInCode_eq (h : Redirects rule goal) (has : ∀ a ∈ as, a.Plain) :
    replaceInCode rule (accessesText as) = accessesText (as.map (Access.toward goal)) := by
  rw [replaceInCode_of_bare (calm_accessesText has).bare]
  exact h.replacedFrom_eq has rfl

theorem redirects_alias (hname : IsName e.1) (haccount : IsName e.2) :
    Redirects (aliasRule e) fun r _ => rename r e := by
  have hrule := receiverRule_alias hname haccount
  have hopens : ∀ ⦃before t⦄, aliasRule e ⟨before, t⟩ ≠ [] → mayOpen before = true ∧
      t.head?.any isWord = true := by
    intro before t hne
    refine ⟨?_, (hrule.opensName hname hne).2⟩
    by_contra hclosed
    exact hne (hrule.eq_nil_of_closed (by simpa using hclosed))
  refine ⟨hopens, fun {before r f rest} hopen hr hf hrest hcalled => ?_⟩
  unfold rename
  by_cases heq : r = e.1
  · subst heq
    have hend : Prefers wordBoundary (e.1.reverse ++ before) () [] ('.' :: (f ++ rest)) := by
      refine prefers_wordBoundary ?_
      rw [head?_append_of_ne_nil _ (by simpa using hr.ne_nil), head?_reverse, hr.getLast?]
      exact Bool.noConfusion
    have hstart : Prefers receiverStart before () [] (e.1 ++ '.' :: (f ++ rest)) := by
      rw [receiverStart_eq, Prefers, firstAt, behind, if_pos hopen]
      rfl
    have hprefers : Prefers (aliasRule e) before e.2 ((([] ++ e.1) ++ []) ++ [])
        ('.' :: (f ++ rest)) :=
      Prefers.bind (Prefers.bind (Prefers.bind hstart (prefers_lit _ _ _)) hend) (prefers_pure _)
    rw [nil_append, append_nil, append_nil] at hprefers
    rw [if_pos rfl, replacedFrom_of_firstAt hr.ne_nil hprefers, replacedFrom_member hopens hr hf]
  · have hquiet : Quiet (aliasRule e) before r ('.' :: (f ++ rest)) := by
      refine (opensName_of_opens hopens).quiet_name hr.word ?_
      by_contra hne
      exact heq (hrule.eq_of_ne_nil hname hr.word rfl hne)
    rw [if_neg heq, hquiet.replacedFrom_eq, replacedFrom_member hopens hr hf]

theorem redirects_field (hb : b.Named) : Redirects (fieldAccess b) fun r f => redirect f r b := by
  have hrule := receiverRule_field hb
  have hopens : ∀ ⦃before t⦄, fieldAccess b ⟨before, t⟩ ≠ [] → mayOpen before = true ∧
      t.head?.any isWord = true := by
    intro before t hne
    refine ⟨?_, (hrule.opensName hb.account hne).2⟩
    by_contra hclosed
    exact hne (hrule.eq_nil_of_closed (by simpa using hclosed))
  refine ⟨hopens, fun {before r f rest} hopen hr hf hrest hcalled => ?_⟩
  have htext : r ++ '.' :: (f ++ rest) = accessText r [] [] f ++ rest := by simp [accessText]
  unfold redirect
  by_cases hfield : r = b.account ∧ f ∈ b.fields
  · obtain ⟨rfl, hmem⟩ := hfield
    have hfirst : (fieldAccess b).firstAt ⟨before, accessText b.account [] [] f ++ rest⟩ =
        some (b.handle ++ '.' :: f, (accessText b.account [] [] f).length) := by
      refine firstAt_of_way (bounded_fieldAccess b) ((way_fieldAccess hb).2
        ⟨hopen, [], [], f, by simp, by simp, hmem, rfl, hrest, hcalled, rfl⟩) ?_
      intro v u rest' hway heq
      obtain ⟨-, g, g', f', hg, hg', hf', rfl, hrest', -, rfl⟩ := (way_fieldAccess hb).1 hway
      obtain ⟨rfl, rfl, rfl, -⟩ :=
        accessText_inj hg hg' (by simp) (by simp) (hb.fields f' hf') hf hrest' hrest heq
      exact ⟨rfl, rfl⟩
    rw [htext, replacedFrom_of_firstAt (by simp [accessText]) hfirst, if_pos ⟨rfl, hmem⟩]
    simp [accessText]
  · have hquiet : Quiet (fieldAccess b) before r ('.' :: (f ++ rest)) := by
      refine (opensName_of_opens hopens).quiet_name hr.word ?_
      by_contra hne
      have hacc := hrule.eq_of_ne_nil hb.account hr.word rfl hne
      subst hacc
      obtain ⟨v, u, rest', hsplit, hway⟩ := (ne_nil_iff_way (bounded_fieldAccess b)).1 hne
      obtain ⟨-, g, g', f', hg, hg', hf', rfl, hrest', -⟩ := (way_fieldAccess hb).1 hway
      rw [htext] at hsplit
      obtain ⟨-, -, rfl, -⟩ :=
        accessText_inj (by simp) (by simp) hg hg' hf (hb.fields f' hf') hrest hrest' hsplit
      exact hfield ⟨rfl, hf'⟩
    rw [if_neg hfield, hquiet.replacedFrom_eq, replacedFrom_member hopens hr hf]

theorem Access.Plain.toward (h : a.Plain) (goal : Text → Text → Text)
    (hgoal : IsName (goal a.receiver a.field)) :
    (a.toward goal).Plain where
  lead := h.lead
  receiver := hgoal
  field := h.field
  tail := h.tail
  solid := h.solid
  ends := h.ends

/-- Rules that redirect accesses, one after the other. -/
theorem foldl_accessesText (step : Text → ι → Text) (goal : ι → Text → Text → Text) {l : List ι}
    (hstep : ∀ i ∈ l, ∀ as : List Access, (∀ a ∈ as, a.Plain) →
      step (accessesText as) i = accessesText (as.map (Access.toward (goal i))))
    (hname : ∀ i ∈ l, ∀ r f, IsName r → IsName (goal i r f)) (has : ∀ a ∈ as, a.Plain) :
    l.foldl step (accessesText as) =
    accessesText (as.map (Access.toward fun r f => l.foldl (fun r i => goal i r f) r)) ∧
      ∀ a ∈ as.map (Access.toward fun r f => l.foldl (fun r i => goal i r f) r), a.Plain := by
  induction l generalizing as with
  | nil =>
    have hsame : as.map (Access.toward fun r f => [].foldl (fun r i => goal i r f) r) = as :=
      map_id _
    exact ⟨by rw [hsame]; rfl, by rw [hsame]; exact has⟩
  | cons i l ih =>
    have hplain : ∀ a ∈ as.map (Access.toward (goal i)), a.Plain := by
      intro a' ha'
      obtain ⟨a, ha, rfl⟩ := mem_map.1 ha'
      exact (has a ha).toward _ (hname i mem_cons_self _ _ (has a ha).receiver)
    have hrest := ih (fun j hj => hstep j (mem_cons_of_mem i hj))
      (fun j hj => hname j (mem_cons_of_mem i hj)) hplain
    rw [map_map] at hrest
    rw [foldl_cons, hstep i mem_cons_self as has]
    exact hrest

section

variable {c : Context} (hnamed : ∀ b ∈ c.states, b.Named)

theorem inlineAlias_accessesText (he : IsName e.1 ∧ IsName e.2) (has : ∀ a ∈ as, a.Plain) :
    inlineAlias (accessesText as) e =
    accessesText (as.map (Access.toward fun r _ => rename r e)) := by
  rw [inlineAlias]
  split
  · rename_i heq
    have hsame : Access.toward (fun r _ => rename r e) = id := by
      funext a
      rw [Access.toward, rename, ← beq_iff_eq.1 heq]
      split
      · rename_i hr
        rw [← hr]
        rfl
      · rfl
    rw [hsame, map_id]
  · exact (redirects_alias he.1 he.2).replaceInCode_eq has

theorem isName_rename (he : IsName e.1 ∧ IsName e.2) (hr : IsName r) : IsName (rename r e) := by
  unfold rename
  split
  · exact he.2
  · exact hr

theorem isName_redirect (hb : b.Named) (hr : IsName r) : IsName (redirect f r b) := by
  unfold redirect
  split
  · exact isName_handleName hb.account
  · exact hr

include hnamed

/-- **Every access lands where the table and the accounts take it.** -/
theorem routed_accessesText (haliases : ∀ e ∈ aliases, IsName e.1 ∧ IsName e.2)
    (has : ∀ a ∈ as, a.Plain) :
    storeKeys c (routeFields c (aliases.foldl inlineAlias (accessesText as))) =
        accessesText (as.map (Access.toward (landing aliases c.states))) ∧
      ∀ a ∈ as.map (Access.toward (landing aliases c.states)), a.Plain := by
  obtain ⟨hinline, hplain⟩ :=
    foldl_accessesText inlineAlias (fun e r _ => rename r e) (l := aliases)
    (fun e he as has => inlineAlias_accessesText (haliases e he) has)
    (fun e he r _ hr => isName_rename (haliases e he) hr) has
  obtain ⟨hroute, hplain'⟩ :=
    foldl_accessesText routeBinding (fun b r f => redirect f r b) (l := c.states)
    (fun b hb as has => by
      rw [routeBinding_eq, anyFieldAccess_singleton]
      exact (redirects_field (hnamed b hb)).replaceInCode_eq has)
    (fun b hb r f hr => isName_redirect (hnamed b hb) hr) hplain
  rw [map_map] at hroute hplain'
  have hlanding : Access.toward (fun r f => c.states.foldl (fun r b => redirect f r b) r) ∘
      Access.toward (fun r _ => aliases.foldl rename r) =
      Access.toward (landing aliases c.states) := rfl
  refine ⟨?_, by rw [← hlanding]; exact hplain'⟩
  rw [hinline, routeFields, hroute, storeKeys_eq_self (calm_accessesText hplain')]
  rfl

end

/-! ## Bindings that are left -/

theorem mem_replacedFrom (hrule : Bounded rule) {x : Char}
    (hkeeps : ∀ {before v u rest}, Way rule before v u rest → x ∈ u → x ∈ v) (hx : x ∈ t)
    (before : Text) :
    x ∈ replacedFrom rule before t := by
  induction hn : t.length using Nat.strong_induction_on generalizing before t with
  | _ n ih =>
    cases t with
    | nil => cases hx
    | cons y t =>
      rcases replacedFrom_cases hrule before y t with ⟨v, u, rest, hsplit, hne, -, hway, heq⟩ | heq
      · rw [heq]
        rw [hsplit] at hx
        rcases mem_append.1 hx with hx | hx
        · exact mem_append_left _ (hkeeps hway hx)
        · refine mem_append_right v (ih rest.length ?_ hx _ rfl)
          rw [← hn, hsplit, length_append]
          have := length_pos_of_ne_nil hne
          omega
      · rw [heq]
        rcases mem_cons.1 hx with rfl | hx
        · exact mem_cons_self
        · exact mem_cons_of_mem y (ih t.length (by rw [← hn]; simp) hx _ rfl)

/-- The text is bare and has a borrow mark in it. -/
def Borrows (t : Text) : Prop := Bare t ∧ '&' ∈ t

theorem Borrows.replaceInCode (hrule : Bounded rule) (hbare : KeepsBare rule)
    (hkeeps : ∀ {before v u rest}, Way rule before v u rest → '&' ∈ u → '&' ∈ v) (h : Borrows t) :
    Borrows (replaceInCode rule t) := by
  rw [replaceInCode_of_bare h.1]
  exact ⟨hbare.replaceAll hrule h.1, mem_replacedFrom hrule hkeeps h.2 []⟩

theorem Borrows.replaceInCode_receiver (hrule : ReceiverRule name rule) (hname : IsName name)
    (h : Borrows t) : Borrows (Source.replaceInCode rule t) := by
  refine h.replaceInCode hrule.bounded hrule.keepsBare fun hway hmem => ?_
  obtain ⟨-, -, tail, rfl, htail, -⟩ := hrule.way hway
  rcases mem_append.1 hmem with hmem | hmem
  · exact absurd (hname.word _ hmem) (by decide)
  · exact absurd hmem htail

theorem Borrows.foldl {step : Text → ι → Text} {l : List ι}
    (hstep : ∀ i ∈ l, ∀ t, Borrows t → Borrows (step t i))
    (h : Borrows t) : Borrows (l.foldl step t) := by
  induction l generalizing t with
  | nil => exact h
  | cons i l ih => exact ih (fun j hj => hstep j (mem_cons_of_mem i hj)) (hstep i mem_cons_self t h)

/-- **A borrow stays** where receivers are renamed and routed and keys are stored. -/
theorem Borrows.routed (hnamed : ∀ b ∈ c.states, b.Named)
    (haliases : ∀ e ∈ aliases, IsName e.1 ∧ IsName e.2) (h : Borrows t) :
    Borrows (storeKeys c (routeFields c (aliases.foldl inlineAlias t))) := by
  have hinline : Borrows (aliases.foldl inlineAlias t) := by
    refine h.foldl fun e he t ht => ?_
    rw [inlineAlias]
    split
    · exact ht
    · exact ht.replaceInCode_receiver (receiverRule_alias (haliases e he).1 (haliases e he).2)
        (haliases e he).1
  have hroute : Borrows (routeFields c (aliases.foldl inlineAlias t)) := by
    refine hinline.foldl fun b hb t ht => ?_
    rw [routeBinding]
    split
    · exact ht
    · exact ht.replaceInCode_receiver (receiverRule_field (hnamed b hb)) (hnamed b hb).account
  refine hroute.replaceInCode (bounded_keyAssignment _) (keepsBare_keyAssignment _)
    fun hway hmem => ?_
  obtain ⟨left, key, rfl, rfl, -⟩ := exists_key_of_way hway
  exact (mem_append.1 hmem).elim (mem_append_left _) fun hkey =>
    mem_append_right _ (mem_cons_of_mem _ hkey)

/-! ## The handles before a body -/

theorem not_mem_bindHandle (hb : b.Named) (hrecord : IsName b.record) (mutable : Bool) :
    '&' ∉ bindHandle b mutable := by
  have hname : ∀ {t : Text}, IsName t → '&' ∉ t :=
    fun ht hmem => absurd (ht.word _ hmem) (by decide)
  have hhandle : '&' ∉ b.handle := hname (isName_handleName hb.account)
  unfold bindHandle
  split <;> simp [Text.concat, hhandle, hname hb.account, hname hrecord]

/-- The borrows of a body with its handles are those of the body. -/
theorem mem_bindHandles (hnamed : ∀ b ∈ c.states, b.Named ∧ IsName b.record) (written : List Text) :
    '&' ∈ bindHandles c written t ↔ '&' ∈ t := by
  refine ⟨fun hmem => (mem_append.1 hmem).resolve_left fun hmem => ?_, mem_append_right _⟩
  obtain ⟨statement, hstatement, hmem⟩ := mem_flatMap.1 hmem
  obtain ⟨b, hb, hhandle⟩ := mem_filterMap.1 hstatement
  rw [handleFor?] at hhandle
  split at hhandle
  · obtain rfl := Option.some.inj hhandle
    exact (mem_append.1 hmem).elim (not_mem_bindHandle (hnamed b hb).1 (hnamed b hb).2 _)
      (by decide)
  · cases hhandle

/-- No name goes on from the statements that bind handles. -/
theorem head?_prologue (statements : List Text) :
    (statements.flatMap (· ++ ['\n'])).reverse.head?.any isWord = false := by
  rcases eq_nil_or_concat' statements with rfl | ⟨statements, t, rfl⟩
  · rfl
  · simp
    decide

/-- Two accesses that differ in their receivers at most. -/
def Access.Alike (a b : Access) : Prop := a.lead = b.lead ∧ a.field = b.field ∧ a.tail = b.tail

theorem accessesText_concat (as : List Access) (a : Access) :
    accessesText (as ++ [a]) = accessesText as ++ a.text := by
  simp [accessesText]

/-- **The receivers of accesses can be read off the text from its end**, whatever stands before. -/
theorem reverse_accesses_inj (h : Forall₂ Access.Alike as bs) (has : ∀ a ∈ as, a.Plain)
    (hbs : ∀ b ∈ bs, b.Plain)
    (hp : p.reverse.head?.any isWord = false) (hq : q.reverse.head?.any isWord = false)
    (heq : p ++ accessesText as.reverse = q ++ accessesText bs.reverse) : as = bs := by
  -- no name goes on after the accesses before the last one and its blanks
  have hopen : ∀ {as : List Access} {p g : Text}, (∀ a ∈ as, a.Plain) →
      p.reverse.head?.any isWord = false →
      Blank g → (p ++ accessesText as.reverse ++ g).reverse.head?.any isWord = false := by
    intro as p g has hp hg
    rw [reverse_append]
    cases hlast : g.reverse with
    | cons x t =>
      have hx := hg x (by rw [← mem_reverse, hlast]; exact mem_cons_self)
      exact isWord_of_isBlank hx
    | nil =>
      cases as with
      | nil => simpa [accessesText] using hp
      | cons a as =>
        have ha : BodyItem.Plain (.access a) := has a mem_cons_self
        rw [reverse_cons, accessesText_concat, nil_append, ← append_assoc, reverse_append]
        exact ha.head?_reverse _
  induction h with
  | nil => rfl
  | @cons a b as bs hab hrest ih =>
    obtain ⟨hlead, hfield, htail⟩ := hab
    have ha := has a mem_cons_self
    have hb := hbs b mem_cons_self
    have has' := fun x hx => has x (mem_cons_of_mem a hx)
    have hbs' := fun x hx => hbs x (mem_cons_of_mem b hx)
    rw [reverse_cons, reverse_cons, accessesText_concat, accessesText_concat, Access.text,
      Access.text, ← hlead, ← hfield, ← htail] at heq
    have hcut : (p ++ accessesText as.reverse ++ a.lead) ++ a.receiver =
        (q ++ accessesText bs.reverse ++ a.lead) ++ b.receiver := by
      have : ((p ++ accessesText as.reverse ++ a.lead) ++ a.receiver) ++ '.' ::
          (a.field ++ a.tail) =
          ((q ++ accessesText bs.reverse ++ a.lead) ++ b.receiver) ++ '.' ::
          (a.field ++ a.tail) := by
        simpa using heq
      exact append_cancel_right this
    have hreversed : a.receiver.reverse ++ (p ++ accessesText as.reverse ++ a.lead).reverse =
        b.receiver.reverse ++ (q ++ accessesText bs.reverse ++ a.lead).reverse := by
      rw [← reverse_append, ← reverse_append, hcut]
    obtain ⟨hreceiver, hbefore⟩ :=
      append_inj_of_class (fun x hx => ha.receiver.word x (mem_reverse.1 hx))
      (fun x hx => hb.receiver.word x (mem_reverse.1 hx)) (hopen has' hp ha.lead)
      (hopen hbs' hq ha.lead) hreversed
    rw [Access.ext hlead (reverse_injective hreceiver) hfield htail,
      ih has' hbs' (append_cancel_right (reverse_injective hbefore))]

theorem accesses_inj (h : Forall₂ Access.Alike as bs) (has : ∀ a ∈ as, a.Plain)
    (hbs : ∀ b ∈ bs, b.Plain)
    (hp : p.reverse.head?.any isWord = false) (hq : q.reverse.head?.any isWord = false)
    (heq : p ++ accessesText as = q ++ accessesText bs) : as = bs := by
  have hsame : as.reverse = bs.reverse := reverse_accesses_inj (forall₂_reverse_iff.2 h)
    (fun a ha => has a (mem_reverse.1 ha)) (fun b hb => hbs b (mem_reverse.1 hb)) hp hq
    (by simpa using heq)
  exact reverse_injective hsame

/-! ## Lowering a body -/

section

variable {c : Context} {body : List BodyItem} (hbody : ∀ item ∈ body, item.Plain)

theorem mem_bindings : s ∈ bindings body ↔ .binding s ∈ body := by
  rw [bindings, mem_filterMap]
  constructor
  · rintro ⟨item, hitem, heq⟩
    cases item with
    | binding s' =>
      obtain rfl := Option.some.inj heq
      exact hitem
    | access a => cases heq
  · exact fun h => ⟨_, h, rfl⟩

theorem mem_accesses : a ∈ accesses body ↔ .access a ∈ body := by
  rw [accesses, mem_filterMap]
  constructor
  · rintro ⟨item, hitem, heq⟩
    cases item with
    | binding s => cases heq
    | access a' =>
      obtain rfl := Option.some.inj heq
      exact hitem
  · exact fun h => ⟨_, h, rfl⟩

include hbody

theorem plain_of_mem_bindings : ∀ s ∈ bindings body, s.Plain :=
  fun _ hs => hbody _ (mem_bindings.1 hs)

theorem plain_of_mem_accesses : ∀ a ∈ accesses body, a.Plain :=
  fun _ ha => hbody _ (mem_accesses.1 ha)

theorem isName_of_mem_aliasTable : ∀ e ∈ aliasTable body, IsName e.1 ∧ IsName e.2 := by
  intro e he
  obtain ⟨s, hs, rfl⟩ := mem_map.1 (mem_of_mem_ofEntries he)
  have hplain := plain_of_mem_bindings hbody s hs
  exact ⟨hplain.name, hplain.account⟩

theorem aliases_bodyText (haccounts : ∀ s ∈ bindings body, (c.account? s.account).isSome = true) :
    c.aliases (bodyText body) = aliasTable body := by
  rw [Context.aliases, findAll_of_bare (calm_bodyText hbody).bare, findAll_eq_matchesFrom,
    map_value_matchesFrom hbody rfl, filter_eq_self.2]
  · rfl
  · intro e he
    obtain ⟨s, hs, rfl⟩ := mem_map.1 he
    exact haccounts s hs

/-- The bindings that agree with the table are left out. -/
theorem replacedFrom_dropAlias (aliases : Table Text) (hbefore : before.head?.any isWord = false) :
    replacedFrom (dropAlias c aliases) before (bodyText body) = body.flatMap fun item =>
      match item with
      | .binding s => if s.isFolded c aliases then [] else s.text
      | .access a => a.text := by
  induction body generalizing before with
  | nil => rfl
  | cons item body ih =>
    have hitem := hbody item mem_cons_self
    have hrest := ih (fun item hi => hbody item (mem_cons_of_mem _ hi)) (hitem.head?_reverse before)
    rw [flatMap_cons, ← hrest]
    cases item with
    | binding s => exact AliasLine.Plain.replacedFrom_dropAlias hitem hbefore c aliases _
    | access a =>
      refine replacedFrom_append fun v w hvw hw => ?_
      by_contra hne
      exact Access.Plain.opensNowhere hitem _ v w hvw hw (opensBinding_of_dropAlias hne)

theorem dropAlias_of_folded (h : ∀ s ∈ bindings body, s.isFolded c aliases = true) :
    replaceInCode (dropAlias c aliases) (bodyText body) = accessesText (accesses body) := by
  rw [replaceInCode_of_bare (calm_bodyText hbody).bare, replaceAll_eq_replacedFrom,
    replacedFrom_dropAlias hbody aliases rfl]
  clear hbody
  induction body with
  | nil => rfl
  | cons item body ih =>
    have hrest := ih fun s hs => h s (mem_bindings.2 (mem_cons_of_mem _ (mem_bindings.1 hs)))
    rw [flatMap_cons, hrest]
    cases item with
    | binding s =>
      dsimp only
      rw [h s (mem_bindings.2 mem_cons_self)]
      rfl
    | access a => rfl

/-- A binding that does not agree with the table stays. -/
theorem borrows_dropAlias (hs : s ∈ bindings body)
    (h : s.isFolded c aliases = false) :
    Borrows (replaceInCode (dropAlias c aliases) (bodyText body)) := by
  have hbare := (calm_bodyText hbody).bare
  rw [replaceInCode_of_bare hbare]
  refine ⟨(keepsBare_dropAlias c aliases).replaceAll (bounded_dropAlias c aliases) hbare, ?_⟩
  rw [replaceAll_eq_replacedFrom, replacedFrom_dropAlias hbody aliases rfl]
  refine mem_flatMap.2 ⟨_, mem_bindings.1 hs, ?_⟩
  dsimp only
  rw [h]
  simp [AliasLine.text, AliasLine.bound]

omit hbody in
theorem alike_resolved (goal : Text → Text → Text) (scope : Table Text) :
    Forall₂ Access.Alike ((accesses body).map (Access.toward goal)) (resolved scope body) := by
  induction body generalizing scope with
  | nil => exact .nil
  | cons item body ih =>
    cases item with
    | binding s => exact ih _
    | access a => exact .cons ⟨rfl, rfl, rfl⟩ (ih scope)

theorem plain_resolved (hscope : ∀ e ∈ scope, IsName e.2) : ∀ a ∈ resolved scope body, a.Plain := by
  induction body generalizing scope with
  | nil => exact fun a ha => nomatch ha
  | cons item body ih =>
    have hrest := fun item hi => hbody item (mem_cons_of_mem _ hi)
    have hitem := hbody item mem_cons_self
    cases item with
    | binding s =>
      have hs : s.Plain := hitem
      refine ih hrest fun e he => ?_
      rcases mem_cons.1 he with rfl | he
      · exact hs.account
      · exact hscope e he
    | access a =>
      have ha : a.Plain := hitem
      intro a' ha'
      rcases mem_cons.1 ha' with rfl | ha'
      · refine ha.toward (fun r _ => handleName ((scope.get? r).getD r)) (isName_handleName ?_)
        cases hget : scope.get? a.receiver with
        | none => exact ha.receiver
        | some account =>
          obtain ⟨l, l', rfl, -⟩ := lookup_eq_some_iff.1 hget
          exact hscope (a.receiver, account) (by simp)
      · exact ih hrest hscope a' ha'

end

/-- **Lowering respects scopes** exactly where the one table of the body does. Then no binding is
left, and every access goes to the handle of the account that its receiver is bound to last before
it. -/
theorem lowerState_eq_resolved_iff {c : Context} (hstates : c.states ≠ [])
    (hnamed : ∀ b ∈ c.states, b.Named ∧ IsName b.record) {body : List BodyItem}
    (hbody : ∀ item ∈ body, item.Plain)
    (haccounts : ∀ s ∈ bindings body, (c.account? s.account).isSome = true) :
    lowerState c (bodyText body) = bindHandles c [] (accessesText (resolved [] body)) ↔
    FollowsScopes c body := by
  have hnames : ∀ b ∈ c.states, b.Named := fun b hb => (hnamed b hb).1
  have htable := isName_of_mem_aliasTable hbody
  have hlower : lowerState c (bodyText body) = bindHandles c [] (storeKeys c (routeFields c
      ((aliasTable body).foldl inlineAlias (replaceInCode (dropAlias c (aliasTable body))
        (bodyText body))))) := by
    rw [lowerState, if_neg (by simpa using hstates),
      unloadRecords_eq_self c.states (calm_bodyText hbody)]
    dsimp only
    rw [foldAliases, aliases_bodyText hbody haccounts]
  have hresolved : ∀ a ∈ resolved [] body, a.Plain :=
    plain_resolved hbody fun _ he => absurd he List.not_mem_nil
  have hfolded : ∀ s ∈ bindings body, s.isFolded c (aliasTable body) = true ↔
      s.name = s.account ∨ (aliasTable body).get? s.name = some s.account := by
    intro s hs
    simp [AliasLine.isFolded, haccounts s hs]
  rw [hlower]
  constructor
  · intro heq
    have hbindings : ∀ s ∈ bindings body, s.isFolded c (aliasTable body) = true := by
      intro s hs
      by_contra hkept
      -- a binding that stays brings a borrow, and the resolved body has none
      have hborrow := ((borrows_dropAlias hbody hs (by simpa using hkept)).routed hnames htable).2
      have hmem := (mem_bindHandles hnamed []).2 hborrow
      rw [heq] at hmem
      obtain ⟨a, ha, hmem⟩ := List.mem_flatMap.1 ((mem_bindHandles hnamed []).1 hmem)
      exact absurd ((hresolved a ha).mem_text hmem) (by decide)
    refine ⟨fun s hs => (hfolded s hs).1 (hbindings s hs), ?_⟩
    obtain ⟨hroute, hplain⟩ := routed_accessesText hnames htable (plain_of_mem_accesses hbody)
    rw [dropAlias_of_folded hbody hbindings, hroute] at heq
    exact accesses_inj (alike_resolved _ []) hplain hresolved (head?_prologue _)
      (head?_prologue _) heq
  · intro h
    have hroute := (routed_accessesText hnames htable (plain_of_mem_accesses hbody)).1
    have hmap : (accesses body).map (Access.toward (landing (aliasTable body) c.states)) =
        resolved [] body := h.accesses
    rw [dropAlias_of_folded hbody fun s hs => (hfolded s hs).2 (h.bindings s hs), hroute, hmap]

/-- Aliases of two accounts. One is bound twice, to the same account. -/
def steadyBody : List BodyItem :=
  [.binding ⟨[], "a", "pool", []⟩, .binding ⟨"    ", "b", "vault", " "⟩,
    .access ⟨[], "a", "total", " ="⟩,
   .access ⟨" ", "b", "total", ";\n"⟩, .binding ⟨[], "a", "pool", []⟩,
   .access ⟨[], "a", "owner", ";\n"⟩]

/-- Aliases that are bound again to the same account go to its handle throughout. -/
theorem lowerState_steadyBody :
    (∀ item ∈ steadyBody, item.Plain) ∧ FollowsScopes (holderContext ["pool", "vault"]) steadyBody ∧
      lowerState (holderContext ["pool", "vault"]) (bodyText steadyBody) =
        bindHandles (holderContext ["pool", "vault"]) []
          "pool_state.total = vault_state.total;\npool_state.owner;\n" := by
  have hnamed : ∀ b ∈ (holderContext ["pool", "vault"]).states, b.Named ∧ IsName b.record := by
    decide
  have hplain : ∀ item ∈ steadyBody, item.Plain := by decide
  have haccounts : ∀ s ∈ bindings steadyBody,
      ((holderContext ["pool", "vault"]).account? s.account).isSome = true := by
    decide
  have hscopes : FollowsScopes (holderContext ["pool", "vault"]) steadyBody := by decide
  exact ⟨hplain, hscopes, (lowerState_eq_resolved_iff (by decide) hnamed hplain haccounts).2
    hscopes⟩

/-- An alias that is bound to one account, and then to another. -/
def shadowedBody : List BodyItem :=
  [.binding ⟨[], "a", "pool", []⟩, .access ⟨[], "a", "total", ";\n"⟩,
    .binding ⟨[], "a", "vault", []⟩,
   .access ⟨[], "a", "total", ";\n"⟩]

/-- **A second binding of an alias takes over the accesses before it.** The first access goes to the
second account, and the first binding is left behind under another name. -/
theorem shadowed_alias_lands_in_last_account :
    bodyText shadowedBody = "let a = &mut pool;\na.total;\nlet a = &mut vault;\na.total;\n".toList ∧
      (resolved [] shadowedBody).map (·.receiver) = ["pool_state".toList, "vault_state".toList] ∧
      lowerState (holderContext ["pool", "vault"]) (bodyText shadowedBody) =
        ("let vault_state = Vault::from_account_info(vault)?;\n" ++
          "let vault = &mut pool;\nvault_state.total;\nvault_state.total;\n").toList := by
  have hfold : foldAliases (holderContext ["pool", "vault"]) (bodyText shadowedBody) =
      "let vault = &mut pool;\nvault.total;\nvault.total;\n".toList := by
    decide +kernel
  have hroute : routeFields (holderContext ["pool", "vault"])
      "let vault = &mut pool;\nvault.total;\nvault.total;\n" =
      "let vault = &mut pool;\nvault_state.total;\nvault_state.total;\n".toList := by
    rw [routeFields, states_holderContext]
    cbv
  have hunload : unloadRecords (holderContext ["pool", "vault"]).states (bodyText shadowedBody) =
      (bodyText shadowedBody, []) := by
    decide +kernel
  refine ⟨by decide, by decide, ?_⟩
  rw [lowerState, if_neg (by decide), hunload]
  dsimp only
  rw [hfold, hroute]
  decide +kernel

end AnchorLowering.Lowering
