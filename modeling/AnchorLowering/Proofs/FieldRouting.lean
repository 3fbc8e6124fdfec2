import AnchorLowering.Proofs.FieldAccess

/-!
# Routing one account after the other

Field accesses are routed to the handles one account after the other, each over the text that the
one before it has left. What is written for one account can be taken for something else when a later
account is routed: a handle may be another account, and a member that stands behind a gap may be a
receiver too.
-/

namespace AnchorLowering.Lowering

open List Pattern Source Lexeme

variable {T : List Lexeme} {b : StateBinding} {a f : Text}

/-! ## What routing keeps -/

section Route

variable {routed first second : Text → Text → Bool} {opens dotted : Bool} {ls rest : List Lexeme}

/-- A word that is routed is the receiver of a member that is. -/
theorem exists_of_any_memberAfter? (h : (memberAfter? ls).any (routed a ·.1) = true) :
    ∃ f rest, memberAfter? ls = some (f, rest) ∧ routed a f = true := by
  cases hm : memberAfter? ls with
  | none =>
    rw [hm] at h
    cases h
  | some m =>
    rw [hm] at h
    exact ⟨m.1, m.2, rfl, h⟩

theorem route_word_of_match (hm : memberAfter? ls = some (f, rest)) (h : routed a f = true) :
    route routed (.free true dotted) (.word a :: ls) =
      .word (handleName a) :: .mark '.' :: .word f :: route routed (.free false false) rest := by
  rw [route, if_pos (by rw [hm]; exact h), route_inside hm]

theorem route_word_of_no_match (h : opens = true → ∀ f rest, memberAfter? ls = some (f, rest) →
    routed a f = false) :
    route routed (.free opens dotted) (.word a :: ls) = .word a :: route routed (.free false false)
      ls := by
  rw [route, if_neg]
  intro hmatch
  obtain ⟨hopen, hany⟩ := Bool.and_eq_true_iff.1 hmatch
  obtain ⟨f, rest, hm, hf⟩ := exists_of_any_memberAfter? hany
  rw [h hopen f rest hm] at hf
  cases hf

/-- Routing keeps a gap a gap, and what follows it is routed. -/
theorem dropGap_route (routed : Text → Text → Bool) (opens dotted : Bool) (ls : List Lexeme) :
    ∃ opens' dotted',
      dropGap (route routed (.free opens dotted) ls) = route routed (.free opens' dotted')
        (dropGap ls) := by
  cases ls with
  | nil => exact ⟨opens, dotted, rfl⟩
  | cons l ls =>
    cases l with
    | word a =>
      refine ⟨opens, dotted, ?_⟩
      show dropGap (route routed _ (.word a :: ls)) = route routed _ (.word a :: ls)
      rw [route]
      split
      · rfl
      · rfl
    | gap g => exact ⟨true, false, rfl⟩
    | mark x => exact ⟨opens, dotted, rfl⟩

/-- Routing keeps a mark that comes first, and makes none. -/
theorem route_eq_mark_iff {x : Char} : route routed (.free opens dotted) ls = .mark x :: T ↔
      ∃ ls', ls = .mark x :: ls' ∧ T = route routed (.free (x != '.' || dotted) (x == '.'))
        ls' := by
  constructor
  · intro h
    cases ls with
    | nil => cases h
    | cons l ls =>
      cases l with
      | word a =>
        rw [route] at h
        split at h
        · cases h
        · cases h
      | gap g => cases h
      | mark y =>
        obtain ⟨hy, rfl⟩ := cons.inj h
        cases hy
        exact ⟨ls, rfl, rfl⟩
  · rintro ⟨ls', rfl, rfl⟩
    rfl

/-- A word that comes first after routing is one that came first, or the handle of one. -/
theorem eq_or_exists_of_route_eq_word {w : Text}
    (h : route routed (.free opens dotted) ls = .word w :: T) :
    (∃ ls', ls = .word w :: ls' ∧ T = route routed (.free false false) ls') ∨
      ∃ a f, routed a f = true ∧ w = handleName a := by
  cases ls with
  | nil => cases h
  | cons l ls =>
    cases l with
    | word a =>
      rw [route] at h
      split at h
      · rename_i hmatch
        obtain ⟨f, -, -, hf⟩ := exists_of_any_memberAfter? (Bool.and_eq_true_iff.1 hmatch).2
        obtain ⟨hw, -⟩ := cons.inj h
        cases hw
        exact .inr ⟨a, f, hf, rfl⟩
      · obtain ⟨hw, rfl⟩ := cons.inj h
        cases hw
        exact .inl ⟨ls, rfl, rfl⟩
    | gap g => cases h
    | mark x => cases h

theorem isCalled_eq_true_iff : isCalled ls = true ↔ ∃ rest, dropGap ls = .mark '(' :: rest := by
  unfold isCalled
  split
  · rename_i x rest hdrop
    rw [hdrop, beq_iff_eq]
    constructor
    · rintro rfl
      exact ⟨rest, rfl⟩
    · rintro ⟨_, h⟩
      cases h
      rfl
  · rename_i hmark
    constructor
    · exact nofun
    · rintro ⟨rest, h⟩
      exact absurd h (hmark '(' rest)

theorem isCalled_route : isCalled (route routed (.free opens dotted) ls) = isCalled ls := by
  rw [Bool.eq_iff_iff, isCalled_eq_true_iff, isCalled_eq_true_iff]
  obtain ⟨opens', dotted', hdrop⟩ := dropGap_route routed opens dotted ls
  simp only [hdrop, route_eq_mark_iff]
  constructor
  · rintro ⟨_, ls', hls', -⟩
    exact ⟨ls', hls'⟩
  · rintro ⟨ls', hls'⟩
    exact ⟨_, ls', hls', rfl⟩

/-- A member after a routed text is a member of the text before, or a handle. -/
theorem memberAfter?_route (h : memberAfter? (route routed (.free opens false) ls) = some (f, T)) :
    (∃ rest, memberAfter? ls = some (f, rest)) ∨ ∃ a g, routed a g = true ∧ f = handleName a := by
  obtain ⟨hcalled, T', hdot, hword⟩ := memberAfter?_eq_some h
  obtain ⟨o₁, d₁, hdrop₁⟩ := dropGap_route routed opens false ls
  rw [hdrop₁, route_eq_mark_iff] at hdot
  obtain ⟨ls₁, hls₁, rfl⟩ := hdot
  obtain ⟨o₂, d₂, hdrop₂⟩ := dropGap_route routed ('.' != '.' || d₁) ('.' == '.') ls₁
  rw [hdrop₂] at hword
  rcases eq_or_exists_of_route_eq_word hword with ⟨ls₂, hls₂, rfl⟩ | hhandle
  · rw [isCalled_route] at hcalled
    exact .inl ⟨ls₂, memberAfter?_of_dropGap hls₁ hls₂ hcalled⟩
  · exact .inr hhandle

/-- A member that is no account which is routed stays a member. -/
theorem memberAfter?_route_of_some (h : memberAfter? ls = some (f, rest))
    (hf : ∀ g, routed f g = false) : memberAfter? (route routed (.free opens false) ls) =
      some (f, route routed (.free false false) rest) := by
  obtain ⟨hcalled, ls₁, hdot, hword⟩ := memberAfter?_eq_some h
  obtain ⟨o₁, d₁, hdrop₁⟩ := dropGap_route routed opens false ls
  rw [hdot] at hdrop₁
  obtain ⟨o₂, d₂, hdrop₂⟩ := dropGap_route routed ('.' != '.' || d₁) ('.' == '.') ls₁
  rw [hword, route_word_of_no_match fun _ g _ _ => hf g] at hdrop₂
  refine memberAfter?_of_dropGap hdrop₁ hdrop₂ ?_
  rw [isCalled_route, hcalled]

/-! ## Routing twice -/

/-- What is routed first is not taken for something else by what is routed second: the handle of an
access has no member to route, and neither an account nor its handle is a member. -/
structure Uncaptured (first second : Text → Text → Bool) : Prop where
  handle : ∀ a f, first a f = true → second (handleName a) f = false
  account : ∀ a f b, first a f = true → second b a = false
  member : ∀ a f b, first a f = true → second b (handleName a) = false

theorem route_route (h : Uncaptured first second) (opens dotted : Bool) (ls : List Lexeme) :
    route second (.free opens dotted) (route first (.free opens dotted) ls) =
      route (fun a f => first a f || second a f) (.free opens dotted) ls := by
  induction hn : ls.length using Nat.strong_induction_on generalizing opens dotted ls with
  | _ n ih =>
    cases ls with
    | nil => rfl
    | cons l ls =>
      have hls := ih ls.length (by rw [← hn]; exact Nat.lt_succ_self _)
      cases l with
      | gap g =>
        show Lexeme.gap g :: _ = Lexeme.gap g :: _
        rw [hls true false ls rfl]
      | mark x =>
        show Lexeme.mark x :: _ = Lexeme.mark x :: _
        rw [hls _ _ ls rfl]
      | word a =>
        have hshorter : ∀ {f rest}, memberAfter? ls = some (f, rest) → rest.length < n := by
          intro f rest hm
          rw [← hn]
          exact Nat.lt_succ_of_lt (length_of_memberAfter? hm)
        cases opens with
        | false =>
          have hclosed : ∀ {routed : Text → Text → Bool} {ls : List Lexeme},
              route routed (.free false dotted) (.word a :: ls) = .word a :: route routed
                (.free false false) ls :=
            route_word_of_no_match nofun
          rw [hclosed, hclosed, hclosed, hls false false ls rfl]
        | true =>
          by_cases hfirst : (memberAfter? ls).any (first a ·.1) = true
          · -- the access is routed first, and its handle is left alone
            obtain ⟨f, rest, hm, hf⟩ := exists_of_any_memberAfter? hfirst
            rw [route_word_of_match hm hf, route_word_of_match hm (by rw [hf]; rfl),
              ← ih rest.length (hshorter hm) false false rest rfl, route_word_of_no_match]
            · rfl
            · intro _ g T hT
              obtain ⟨-, ls', hdot, hword⟩ := memberAfter?_eq_some hT
              cases hdot
              cases hword
              exact h.handle a f hf
          · have hnone : ∀ f rest, memberAfter? ls = some (f, rest) → first a f = false := by
              intro f rest hm
              rw [hm] at hfirst
              simpa using hfirst
            rw [route_word_of_no_match fun _ => hnone]
            by_cases hsecond : (memberAfter? ls).any (second a ·.1) = true
            · -- the access is routed second, and its member stays in place until then
              obtain ⟨f, rest, hm, hf⟩ := exists_of_any_memberAfter? hsecond
              have hkept : ∀ g, first f g = false := by
                intro g
                by_contra hg
                rw [h.account f g a (by simpa using hg)] at hf
                cases hf
              rw [route_word_of_match (memberAfter?_route_of_some hm hkept) hf,
                ih rest.length (hshorter hm) false false rest rfl,
                route_word_of_match hm (by rw [hf]; exact Bool.or_true _)]
            · rw [route_word_of_no_match, route_word_of_no_match, hls false false ls rfl]
              · intro _ f rest hm
                rw [hnone f rest hm]
                rw [hm] at hsecond
                simpa using hsecond
              · intro _ f T hT
                rcases memberAfter?_route hT with ⟨rest, hm⟩ | ⟨b, g, hb, rfl⟩
                · rw [hm] at hsecond
                  simpa using hsecond
                · exact h.member b g a hb

/-! ## Lexemes stay lexed -/

theorem head?_write_route (h : Lexed ls) :
    (write (route routed (.free opens dotted) ls)).head? = (write ls).head? := by
  cases ls with
  | nil => rfl
  | cons l ls =>
    cases l with
    | word a =>
      obtain ⟨x, a, rfl⟩ := exists_cons_of_ne_nil h.1.ne_nil
      rw [route]
      split
      · rfl
      · rfl
    | gap g =>
      show (g ++ _).head? = (g ++ _).head?
      rw [head?_append_of_ne_nil _ h.1.1, head?_append_of_ne_nil _ h.1.1]
    | mark x => rfl

theorem lexed_route (h : Lexed ls) (opens dotted : Bool) :
    Lexed (route routed (.free opens dotted) ls) := by
  induction hn : ls.length using Nat.strong_induction_on generalizing opens dotted ls with
  | _ n ih =>
    cases ls with
    | nil => trivial
    | cons l ls =>
      have hls := ih ls.length (by rw [← hn]; exact Nat.lt_succ_self _) h.2.2
      cases l with
      | gap g =>
        refine ⟨h.1, ?_, hls true false rfl⟩
        show Option.any isBlank (write (route _ _ ls)).head? = false
        rw [head?_write_route h.2.2]
        exact h.2.1
      | mark x => exact ⟨h.1, trivial, hls _ _ rfl⟩
      | word a =>
        by_cases hmatch : (opens && (memberAfter? ls).any (routed a ·.1)) = true
        · obtain ⟨rfl, hany⟩ := Bool.and_eq_true_iff.1 hmatch
          obtain ⟨f, rest, hm, hf⟩ := exists_of_any_memberAfter? hany
          obtain ⟨⟨hname, hend, hrest⟩, -⟩ := write_of_memberAfter? h.2.2 hm
          have hshorter : rest.length < n := by
            rw [← hn]
            exact Nat.lt_succ_of_lt (length_of_memberAfter? hm)
          rw [route_word_of_match hm hf]
          refine ⟨isName_handleName h.1, show isWord '.' = false by decide, ⟨by decide, by decide⟩,
            trivial, hname, ?_, ih rest.length hshorter hrest _ _ rfl⟩
          show Option.any isWord (write (route _ _ rest)).head? = false
          rw [head?_write_route hrest]
          exact hend
        · rw [route, if_neg hmatch]
          refine ⟨h.1, ?_, hls false false rfl⟩
          show Option.any isWord (write (route _ _ ls)).head? = false
          rw [head?_write_route h.2.2]
          exact h.2.1

end Route

/-! ## Routing all accounts -/

/-- Routes the field accesses of all accounts at once. -/
def routeTogether (c : Context) (t : Text) : Text := replaceInCode (anyFieldAccess c.states) t

/-- What is routed for the first account is not taken for something else when the second one is
routed. -/
@[mk_iff]
structure LeavesAlone (b b' : StateBinding) : Prop where
  handle : ∀ f ∈ b.fields, f ∈ b'.fields → b'.account ≠ b.handle
  account : b.fields ≠ [] → b.account ∉ b'.fields
  member : b.fields ≠ [] → b.handle ∉ b'.fields

instance (b b' : StateBinding) : Decidable (LeavesAlone b b') :=
  decidable_of_iff _ (leavesAlone_iff ..).symm

/-- The receiver of an access to a field after the fields of one account are routed. -/
def redirect (field receiver : Text) (b : StateBinding) : Text :=
  if receiver = b.account ∧ field ∈ b.fields then b.handle else receiver

variable {bs : List StateBinding}

theorem isField_append (bs bs' : List StateBinding) :
    isField (bs ++ bs') = fun a f => isField bs a f || isField bs' a f := by
  funext a f
  exact any_append

theorem isField_singleton : isField [b] a f = true ↔ b.account = a ∧ f ∈ b.fields := by
  simp [isField]

theorem uncaptured_isField (h : ∀ d ∈ bs, LeavesAlone d b) :
    Uncaptured (isField bs) (isField [b]) where
  handle := by
    intro a f hfirst
    obtain ⟨d, hd, rfl, hf⟩ := isField_iff.1 hfirst
    by_contra hsecond
    obtain ⟨haccount, hfield⟩ := isField_singleton.1 (by simpa using hsecond)
    exact (h d hd).handle f hf hfield haccount
  account := by
    intro a f b' hfirst
    obtain ⟨d, hd, rfl, hf⟩ := isField_iff.1 hfirst
    by_contra hsecond
    obtain ⟨-, hfield⟩ := isField_singleton.1 (by simpa using hsecond)
    exact (h d hd).account (ne_nil_of_mem hf) hfield
  member := by
    intro a f b' hfirst
    obtain ⟨d, hd, rfl, hf⟩ := isField_iff.1 hfirst
    by_contra hsecond
    obtain ⟨-, hfield⟩ := isField_singleton.1 (by simpa using hsecond)
    exact (h d hd).member (ne_nil_of_mem hf) hfield

theorem replaceAll_replaceAll (hbs : ∀ d ∈ bs, d.Named) (hb : b.Named)
    (h : ∀ d ∈ bs, LeavesAlone d b) (u : Text) :
    (anyFieldAccess [b]).replaceAll ((anyFieldAccess bs).replaceAll u) =
    (anyFieldAccess (bs ++ [b])).replaceAll u := by
  have hsingle : ∀ d ∈ [b], d.Named := by simpa using hb
  have hall : ∀ d ∈ bs ++ [b], d.Named := forall_mem_append.2 ⟨hbs, hsingle⟩
  rw [← write_lexemes u, replaceAll_write hbs (lexed_lexemes u),
    replaceAll_write hsingle (lexed_route (lexed_lexemes u) true false),
    replaceAll_write hall (lexed_lexemes u), route_route (uncaptured_isField h), isField_append]

theorem replaceInCode_replaceInCode (hbs : ∀ d ∈ bs, d.Named) (hb : b.Named)
    (h : ∀ d ∈ bs, LeavesAlone d b) (t : Text) :
    replaceInCode (anyFieldAccess [b]) (replaceInCode (anyFieldAccess bs) t) =
      replaceInCode (anyFieldAccess (bs ++ [b])) t := by
  rw [replaceInCode, (keepsStretches_anyFieldAccess hbs).mapCode_replaceInCode]
  exact congrArg (mapCode · t) (funext fun u => replaceAll_replaceAll hbs hb h u)

theorem routeBinding_eq (t : Text) (b : StateBinding) :
    routeBinding t b = replaceInCode (anyFieldAccess [b]) t := by
  rw [routeBinding, anyFieldAccess_singleton]
  split
  · rename_i hempty
    have hfields : b.fields = [] := List.isEmpty_iff.1 hempty
    refine (replaceInCode_of_eq_nil (fun c => ?_) t).symm
    by_contra hne
    obtain ⟨r, hr⟩ := exists_mem_of_ne_nil _ hne
    obtain ⟨_, _, s₁, hs₁, _⟩ := mem_bind.1 hr
    obtain ⟨_, _, s₂, hs₂, _⟩ := mem_bind.1 hs₁
    obtain ⟨⟨f, n⟩, hf, _⟩ := mem_bind.1 hs₂
    have hmem := (mem_oneOf.1 hf).1
    rw [longestFirst, mem_mergeSort, hfields] at hmem
    cases hmem
  · rfl

/-- Accounts that leave each other alone are routed together. -/
theorem foldl_routeBinding (hbs : ∀ b ∈ bs, b.Named) (h : bs.Pairwise LeavesAlone) (t : Text) :
    bs.foldl routeBinding t = replaceInCode (anyFieldAccess bs) t := by
  induction bs using reverseRecOn with
  | nil => exact (replaceInCode_of_eq_nil (fun _ => rfl) t).symm
  | append_singleton bs b ih =>
    obtain ⟨hpair, -, hlast⟩ := pairwise_append.1 h
    have hnamed : ∀ d ∈ bs, d.Named := fun d hd => hbs d (mem_append_left _ hd)
    have hb : b.Named := hbs b (mem_append_right _ mem_cons_self)
    rw [foldl_append, ih hnamed hpair, foldl_cons, foldl_nil, routeBinding_eq,
      replaceInCode_replaceInCode hnamed hb fun d hd => hlast d hd b mem_cons_self]

end AnchorLowering.Lowering
