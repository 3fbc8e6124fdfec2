import AnchorLowering.Lowering.Program
import AnchorLowering.Proofs.CodeStretch
import AnchorLowering.Proofs.NameChecks
import Mathlib.Data.List.Zip

/-!
# Guards and declarations

The guards of an instruction stand in for the checks that its account declarations imply. Three
parts of a run have to agree for that: the facts, which look derived addresses up by account and
group; the account slots, which are filled from the facts; and the guards, which read the
declarations.

**Theorem (`lowerContained_guards`).** The guards of an instruction that does not fail are those
that its declarations ask for, each once, on its own account and in its phase. The code of a check
is spelled out (`Checks`).
-/

namespace AnchorLowering

open List Source

variable {d : Declaration} {x : DerivedAccount} {g : Group} {p : Program}

/-! ## Guards and their accounts -/

namespace Guard

def account? : Guard → Option Text
  | isSigner _ a | isWritable _ a | derivedAddress _ a _ _ _ | ownerIs _ a _ | keyEquals _ a _ =>
    some a
  | custom _ _ a => a

/-- The phase in which the check comes: signers, writable accounts, derived addresses,
constraints. -/
def phase : Guard → Fin 4
  | isSigner .. => 0
  | isWritable .. => 1
  | derivedAddress .. => 2
  | ownerIs .. | keyEquals .. | custom .. => 3

/-- The first check comes in an earlier phase, or in the same one on an account that is not
later. -/
def ComesBefore (g h : Guard) : Prop :=
  g.phase < h.phase ∨ g.phase = h.phase ∧ g.index?.getD 0 ≤ h.index?.getD 0

end Guard

/-- The constraint becomes a check of its own. -/
def Constraint.isChecked : Constraint → Bool
  | condition .. | hasOne .. | target .address _ => true
  | _ => false

namespace Lowering

/-- There is nothing to lower in a condition: it reads nothing through the context or a record, and
compares no keys. -/
structure Settled (c : Context) (t : Text) : Prop where
  accesses : ∀ rule ∈ accessRules, Source.findAll rule t = []
  fields : ∀ b ∈ c.states, Source.KeepsCode (fieldAccess b) t
  comparisons : Source.KeepsCode keyComparison t

theorem routeFields_of_keeps {c : Context} {t : Text}
    (h : ∀ b ∈ c.states, Source.KeepsCode (fieldAccess b) t) : routeFields c t = t := by
  rw [routeFields]
  generalize c.states = states at h
  induction states with
  | nil => rfl
  | cons b states ih =>
    obtain ⟨hb, hstates⟩ := forall_mem_cons.1 h
    have hroute : routeBinding t b = t := by
      rw [routeBinding]
      split
      · rfl
      · exact hb.replaceInCode_eq
    rw [foldl_cons, hroute, ih hstates]

theorem Settled.lowerCondition_eq {c : Context} {expr : Text}
    (h : Settled c (Text.join " " expr.words)) :
    lowerCondition c expr = Text.join " " expr.words := by
  have hflat : flattenAccess (Text.join " " expr.words) = Text.join " " expr.words :=
    Source.foldl_eq_self fun rule hrule => Source.replaceFromCode_eq (h.accesses rule hrule)
  rw [lowerCondition, hflat, routeFields_of_keeps h.fields, dereferenceComparisons,
    h.comparisons.replaceInCode_eq]

/-- The error that a guard returns. Without a text for it, it is the default one. A text that is no
error yet is made into one. -/
inductive Returns (default : Text) : Json → Text → Prop where
  | default {error : Json} (h : error.text?.getD [] = []) : Returns default error default
  | error {t : Text} (hne : t ≠ [])
    (herror : Text.endsWith (collapseBlanks t) ".into()" = true ∨
      Text.startsWith (collapseBlanks t) "ProgramError::" = true) :
    Returns default (.str t) (collapseBlanks t)
  | value {t : Text} (hne : t ≠ []) (hvalue : Text.endsWith (collapseBlanks t) ".into()" = false)
    (hother : Text.startsWith (collapseBlanks t) "ProgramError::" = false) :
    Returns default (.str t) (collapseBlanks t ++ ".into()".toList)

theorem returns_errorValue (error : Json) (default : Text) :
    Returns default error (errorValue error.text? default) := by
  by_cases habsent : error.text?.getD [] = []
  · have heq : errorValue error.text? default = default := by
      cases ht : error.text? with
      | none => rfl
      | some t =>
        rw [ht, Option.getD_some] at habsent
        rw [habsent]
        rfl
    rw [heq]
    exact .default habsent
  · cases error with
    | str t =>
      obtain ⟨x, u, rfl⟩ := exists_cons_of_ne_nil (show t ≠ [] from habsent)
      rw [show errorValue (Json.str (x :: u)).text? default =
        if Text.endsWith (collapseBlanks (x :: u)) ".into()" ||
        Text.startsWith (collapseBlanks (x :: u)) "ProgramError::" then collapseBlanks (x :: u) else
          Text.concat [collapseBlanks (x :: u), ".into()"] from rfl]
      split
      next h => exact .error habsent (by simpa using h)
      next h =>
        obtain ⟨hvalue, hother⟩ : _ = false ∧ _ = false := by simpa using h
        have hreturned : Returns default (.str (x :: u)) _ := .value habsent hvalue hother
        simpa [Text.concat] using hreturned
    | _ => exact absurd rfl habsent

/-- The check that an entry of a declaration becomes: code that returns an error unless the
condition holds, code that returns one unless the field is the key of the account of its name, or a
comparison with an address. A condition in which there is nothing to lower stands in the code as it
was written, up to blanks. -/
inductive Checks (c : Context) (a : AccountSlot) : Constraint → Guard → Prop where
  | condition {expr : Text} {error : Json} {lowered returned : Text}
    (hlowered : lowered = lowerCondition c expr)
    (hsettled : Settled c (Text.join " " expr.words) → lowered = Text.join " " expr.words)
    (hreturned : Returns "ProgramError::Custom(0)" error returned) :
    Checks c a (.condition expr error)
      (.custom (Text.concat ["if !(", lowered, ") \x7b return Err(", returned, "); \x7d"])
        (some a.index) (some a.name))
  | hasOne {field : Text} {error : Json} {holder returned : Text}
    (hholder : holder = ((c.stateFor? a.name).map StateBinding.handle).getD a.name)
    (hreturned : Returns "ProgramError::InvalidAccountData" error returned) :
    Checks c a (.hasOne field error)
      (.custom (Text.concat
        ["if ", holder, ".", field, " != *", field, ".key() \x7b return Err(", returned, "); \x7d"])
        (some a.index) (some a.name))
  | address (value : Text) :
    Checks c a (.target .address value) (.keyEquals a.index a.name value)

/-- The guards `gs` on an account are those that its declaration asks for. -/
structure AsDeclared (c : Context) (d : Declaration) (a : AccountSlot) (gs : List Guard) :
    Prop where
  isSigner_iff : a.isSigner = true ↔ d.effectiveKind = .signer
  isDerived_iff : a.isDerived = true ↔ ∃ seeds, Constraint.seeds seeds ∈ d.constraints
  signer : gs.filter (·.phase = 0) = if a.isSigner then [.isSigner a.index a.name] else []
  writable : gs.filter (·.phase = 1) = if d.isMutable then [.isWritable a.index a.name] else []
  derived : gs.filter (·.phase = 2) =
    if a.isDerived then
      [.derivedAddress a.index a.name a.seeds a.bump
        (derivationMode a.isInit (readsItself a.name a.seeds a.bump) a.bump)]
    else []
  constraints : List.Forall₂ (Checks c a) (d.constraints.filter (·.isChecked))
    (gs.filter (·.phase = 3))

/-- The accounts and guards of an instruction are those that the declarations ask for. -/
structure GuardsMatch (c : Context) (ds : List Declaration) (accounts : List AccountSlot)
    (gs : List Guard) : Prop where
  length_accounts : accounts.length = ds.length
  account : ∀ i d, ds[i]? = some d → ∃ a, accounts[i]? = some a ∧ a.index = i ∧ a.name = d.name ∧
    AsDeclared c d a (gs.filter (·.index? == some i))
  named : ∀ g ∈ gs, ∃ i a, g.index? = some i ∧ accounts[i]? = some a ∧ g.account? = some a.name
  ordered : gs.Pairwise Guard.ComesBefore

/-! ## Placed guards -/

/-- What `place` gives for each declaration and its index, one after the other. -/
def placed (place : Declaration → Nat → List Guard) (ds : List Declaration) (start : Nat) :
    List Guard :=
  (ds.zipIdx start).flatMap fun e => place e.1 e.2

/-- Every guard that `place` gives is of the phase, on the declaration and its index. -/
def InPhase (phase : Fin 4) (place : Declaration → Nat → List Guard) : Prop :=
  ∀ d i, ∀ g ∈ place d i, g.phase = phase ∧ g.index? = some i ∧ g.account? = some d.name

section Placed

variable {place : Declaration → Nat → List Guard} {ds : List Declaration} {phase : Fin 4}

theorem placed_cons (d : Declaration) (start : Nat) :
    placed place (d :: ds) start = place d start ++ placed place ds (start + 1) := rfl

theorem exists_of_mem_placed {start : Nat} {g : Guard} (h : g ∈ placed place ds start) :
    ∃ i d, ds[i]? = some d ∧ g ∈ place d (start + i) := by
  induction ds generalizing start with
  | nil => simp [placed] at h
  | cons d ds ih =>
    rw [placed_cons, mem_append] at h
    rcases h with hg | hg
    · exact ⟨0, d, rfl, hg⟩
    · obtain ⟨i, e, he, hg⟩ := ih hg
      exact ⟨i + 1, e, he, by rwa [Nat.add_assoc, Nat.add_comm 1] at hg⟩

theorem placed_filter (h : InPhase phase place) (start i : Nat) :
    (placed place ds start).filter (·.index? == some (start + i)) =
      (ds[i]?.map fun d => place d (start + i)).getD [] := by
  induction ds generalizing start i with
  | nil => simp [placed]
  | cons d ds ih =>
    rw [placed_cons, filter_append]
    cases i with
    | zero =>
      have hhead : (place d start).filter (·.index? == some (start + 0)) = place d start := by
        rw [filter_eq_self]
        intro g hg
        simp [(h d start g hg).2.1]
      have htail : (placed place ds (start + 1)).filter (·.index? == some (start + 0)) = [] := by
        rw [filter_eq_nil_iff]
        intro g hg
        obtain ⟨j, e, -, hg⟩ := exists_of_mem_placed hg
        simp [(h e _ g hg).2.1]
        omega
      rw [hhead, htail]
      simp
    | succ i =>
      have hhead : (place d start).filter (·.index? == some (start + (i + 1))) = [] := by
        rw [filter_eq_nil_iff]
        intro g hg
        simp [(h d start g hg).2.1]
      have hindex : start + (i + 1) = start + 1 + i := by omega
      rw [hhead, hindex, ih]
      simp

theorem placed_pairwise (h : InPhase phase place) (start : Nat) :
    (placed place ds start).Pairwise Guard.ComesBefore := by
  have hsame : ∀ {d d' i j g g'}, g ∈ place d i → g' ∈ place d' j → i ≤ j → g.ComesBefore g' := by
    intro d d' i j g g' hg hg' hij
    obtain ⟨hphase, hindex, -⟩ := h d i g hg
    obtain ⟨hphase', hindex', -⟩ := h d' j g' hg'
    exact .inr ⟨hphase.trans hphase'.symm, by simpa [hindex, hindex'] using hij⟩
  induction ds generalizing start with
  | nil => exact List.Pairwise.nil
  | cons d ds ih =>
    rw [placed_cons, pairwise_append]
    refine ⟨?_, ih (start + 1), ?_⟩
    · exact List.Pairwise.imp_of_mem (fun hg hg' _ => hsame hg hg' le_rfl)
        (pairwise_of_forall fun _ _ => trivial)
    · intro g hg g' hg'
      obtain ⟨i, e, -, hg'⟩ := exists_of_mem_placed hg'
      exact hsame hg hg' (by omega)

end Placed

end Lowering

/-! ## Derived addresses -/

namespace Facts

theorem eq_of_derivedOf? {group : Text} (h : derivedOf? group d = some x) :
    x = ⟨d.name, x.seeds, d.bumpSource?, "program_id".toList, some group⟩ := by
  obtain ⟨seeds, -, rfl⟩ := Option.map_eq_some_iff.1 h
  rfl

theorem mem_derived_analyze :
    x ∈ (analyze p).derived ↔ ∃ g ∈ p.groups, ∃ d ∈ g.accounts, derivedOf? g.name d = some x := by
  simp [analyze]

theorem derivedFor?_analyze (hgroups : (p.groups.map (·.name)).Nodup) (hg : g ∈ p.groups)
    (haccounts : (g.accounts.map (·.name)).Nodup) (hd : d ∈ g.accounts) :
    (analyze p).derivedFor? d.name (some g.name) = derivedOf? g.name d := by
  -- a derived account of these two names comes from this declaration
  have hunique : ∀ x ∈ (analyze p).derived, x.account = d.name → x.group = some g.name →
      derivedOf? g.name d = some x := by
    intro x hx hname hgroup
    obtain ⟨g', hg', d', hd', hx⟩ := mem_derived_analyze.1 hx
    have hshape := eq_of_derivedOf? hx
    rw [hshape] at hname hgroup
    obtain rfl : g' = g := inj_on_of_nodup_map hgroups hg' hg (Option.some.inj hgroup)
    obtain rfl : d' = d := inj_on_of_nodup_map haccounts hd' hd hname
    exact hx
  have hnone : ((analyze p).derived.filter (·.account == d.name)).find? (·.group.isNone) =
      none := by
    rw [find?_eq_none]
    intro x hx
    obtain ⟨g', -, d', -, hx⟩ := mem_derived_analyze.1 (mem_of_mem_filter hx)
    rw [eq_of_derivedOf? hx]
    simp
  unfold derivedFor?
  show (((analyze p).derived.filter (·.account == d.name)).find? (·.group == some g.name)).or
    (((analyze p).derived.filter (·.account == d.name)).find? (·.group.isNone)) = _
  rw [hnone, Option.or_none]
  cases hfind : ((analyze p).derived.filter (·.account == d.name)).find?
    (·.group == some g.name) with
  | some x =>
    have hmem := mem_filter.1 (mem_of_find?_eq_some hfind)
    have hgroup := find?_some hfind
    exact (hunique x hmem.1 (by simpa using hmem.2) (by simpa using hgroup)).symm
  | none =>
    cases hd' : derivedOf? g.name d with
    | none => rfl
    | some x =>
      have hmem : x ∈ (analyze p).derived := mem_derived_analyze.2 ⟨g, hg, d, hd, hd'⟩
      have hshape := eq_of_derivedOf? hd'
      rw [find?_eq_none] at hfind
      refine absurd ?_ (hfind x (mem_filter.2 ⟨hmem, ?_⟩)) <;> rw [hshape] <;> simp

end Facts

theorem Declaration.isSome_seeds?_iff (d : Declaration) :
    d.seeds?.isSome = true ↔ ∃ seeds, Constraint.seeds seeds ∈ d.constraints := by
  rw [seeds?, isSome_findSome?]
  constructor
  · intro h
    obtain ⟨c, hc, hseeds⟩ := any_eq_true.1 h
    cases c with
    | seeds s => exact ⟨s, hc⟩
    | _ => cases hseeds
  · rintro ⟨s, hs⟩
    exact any_eq_true.2 ⟨_, hs, rfl⟩

namespace Lowering

/-! ## The phases of an instruction -/

variable {ε : Type}

/-- The account slots of an instruction. -/
def slots (p : Program) (facts : Facts) (ix : Instruction) : List AccountSlot :=
  (p.declarationsFor ix).zipIdx.map fun e =>
    AccountSlot.ofDeclaration p.layouts facts ix.group e.1 e.2

/-- The context in which an instruction is lowered. -/
def Lowerer.contextFor (l : Lowerer ε) (p : Program) (facts : Facts) (ix : Instruction) : Context :=
  .build ix.name (slots p facts ix) p.layouts
    ((p.declarationsFor ix).filterMap fun d => facts.derivedFor? d.name (some ix.group)) l.config

theorem lowerContained_of_not_failed {l : Lowerer ε} {facts : Facts} {ix : Instruction}
    {index : Nat} (h : (l.lowerContained p facts ix index).failed = false) :
    (l.lowerContained p facts ix index).accounts = slots p facts ix ∧
    (l.lowerContained p facts ix index).guards =
      guards (l.contextFor p facts ix) ((p.declarationsFor ix).zip (slots p facts ix)) := by
  unfold Lowerer.lowerContained at h ⊢
  cases hlower : l.lowerInstruction p facts ix index with
  | error failure =>
    rw [hlower] at h
    cases h
  | ok target =>
    change (l.lowerBody (l.contextFor p facts ix) _ >>= _) = _ at hlower
    cases hbody : l.lowerBody (l.contextFor p facts ix) (Source.unwrapBody ix.bodyText) with
    | error failure =>
      rw [hbody] at hlower
      cases hlower
    | ok body =>
      rw [hbody] at hlower
      cases hlower
      exact ⟨rfl, rfl⟩

section Phases

variable (c : Context) (slot : Declaration → Nat → AccountSlot)

/-- The guards of one phase on a declaration at an index, for each of the four phases. -/
def guardsIn (d : Declaration) (i : Nat) : Fin 4 → List Guard
  | 0 => (signerGuard? d (slot d i)).toList
  | 1 => (writableGuard? d (slot d i)).toList
  | 2 => (derivedGuard? d (slot d i)).toList
  | 3 => d.constraints.filterMap (constraintGuard? c (slot d i))

theorem zip_slots (ds : List Declaration) (start : Nat) :
    ds.zip ((ds.zipIdx start).map fun e => slot e.1 e.2) =
      (ds.zipIdx start).map fun e => (e.1, slot e.1 e.2) := by
  induction ds generalizing start with
  | nil => rfl
  | cons d ds ih => simp [ih]

theorem guards_eq_placed (ds : List Declaration) :
    guards c (ds.zip (ds.zipIdx.map fun e => slot e.1 e.2)) =
      (finRange 4).flatMap fun k => placed (fun d i => guardsIn c slot d i k) ds 0 := by
  rw [zip_slots, guards]
  simp only [filterMap_eq_flatMap_toList, flatMap_map]
  simp [finRange, placed, guardsIn, filterMap_eq_flatMap_toList]

theorem checks_of_constraintGuard? {a : AccountSlot} {constraint : Constraint} {g : Guard}
    (h : constraintGuard? c a constraint = some g) : Checks c a constraint g := by
  cases constraint with
  | condition expr error =>
    obtain rfl := Option.some.inj h
    have hcheck : Checks c a (.condition expr error) _ :=
      .condition rfl Settled.lowerCondition_eq (returns_errorValue error conditionError)
    simpa [Text.concat, guardWith, braces] using hcheck
  | hasOne field error =>
    obtain rfl := Option.some.inj h
    have hcheck : Checks c a (.hasOne field error) _ :=
      .hasOne rfl (returns_errorValue error invalidAccountData)
    simpa [Text.concat, guardWith, braces] using hcheck
  | target kind value =>
    cases kind with
    | address =>
      obtain rfl := Option.some.inj h
      exact .address value
    | _ => cases h
  | _ => cases h

theorem isSome_constraintGuard? (a : AccountSlot) (constraint : Constraint) :
    (constraintGuard? c a constraint).isSome = constraint.isChecked := by
  cases constraint with
  | target kind value => cases kind <;> rfl
  | _ => rfl

theorem forall₂_constraintGuard? (a : AccountSlot) (constraints : List Constraint) :
    Forall₂ (Checks c a) (constraints.filter (·.isChecked))
      (constraints.filterMap (constraintGuard? c a)) := by
  induction constraints with
  | nil => exact .nil
  | cons constraint constraints ih =>
    have hsome := isSome_constraintGuard? c a constraint
    cases h : constraintGuard? c a constraint with
    | none =>
      rw [h] at hsome
      rw [filterMap_cons_none h, filter_cons_of_neg (by simp [← hsome])]
      exact ih
    | some g =>
      rw [h] at hsome
      rw [filterMap_cons_some h, filter_cons_of_pos hsome.symm]
      exact .cons (checks_of_constraintGuard? c h) ih

variable {c slot} (hslot : ∀ d i, (slot d i).index = i ∧ (slot d i).name = d.name)
include hslot

theorem inPhase_guardsIn (k : Fin 4) : InPhase k fun d i => guardsIn c slot d i k := by
  intro d i g hg
  obtain ⟨hindex, hname⟩ := hslot d i
  suffices h : g.phase = k ∧ g.index? = some (slot d i).index ∧ g.account? = some (slot d i).name by
    rwa [hindex, hname] at h
  match k with
  | 0 =>
    have hg : signerGuard? d (slot d i) = some g := Option.mem_toList.1 hg
    unfold signerGuard? at hg
    split at hg <;> cases hg
    exact ⟨rfl, rfl, rfl⟩
  | 1 =>
    have hg : writableGuard? d (slot d i) = some g := Option.mem_toList.1 hg
    unfold writableGuard? at hg
    split at hg <;> cases hg
    exact ⟨rfl, rfl, rfl⟩
  | 2 =>
    obtain ⟨seeds, -, rfl⟩ := Option.map_eq_some_iff.1 (Option.mem_toList.1 hg)
    exact ⟨rfl, rfl, rfl⟩
  | 3 =>
    obtain ⟨constraint, -, hg⟩ := mem_filterMap.1 hg
    rcases checks_of_constraintGuard? c hg with _ | _ | _ <;> exact ⟨rfl, rfl, rfl⟩

theorem filter_guards (ds : List Declaration) {i : Nat} {d : Declaration} (hd : ds[i]? = some d)
    (k : Fin 4) :
    ((guards c (ds.zip (ds.zipIdx.map fun e => slot e.1 e.2))).filter
      (·.index? == some i)).filter (·.phase = k) = guardsIn c slot d i k := by
  have hplaced : ∀ j : Fin 4, (placed (fun d i => guardsIn c slot d i j) ds 0).filter
      (·.index? == some i) =
        guardsIn c slot d i j := by
    intro j
    have hcut : (placed (fun d i => guardsIn c slot d i j) ds 0).filter (·.index? == some (0 + i)) =
        (ds[i]?.map fun d => guardsIn c slot d (0 + i) j).getD [] :=
      placed_filter (inPhase_guardsIn hslot j) 0 i
    rwa [Nat.zero_add, hd] at hcut
  have hphase : ∀ j : Fin 4, (guardsIn c slot d i j).filter (·.phase = k) =
      if j = k then guardsIn c slot d i k else [] := by
    intro j
    by_cases hjk : j = k
    · subst hjk
      rw [if_pos rfl, filter_eq_self]
      intro g hg
      simpa using (inPhase_guardsIn hslot j d i g hg).1
    · rw [if_neg hjk, filter_eq_nil_iff]
      intro g hg
      rw [(inPhase_guardsIn hslot j d i g hg).1]
      simpa using hjk
  rw [guards_eq_placed, filter_flatMap, filter_flatMap]
  simp only [hplaced, hphase]
  match k with
  | 0 | 1 | 2 | 3 => simp [finRange]

theorem pairwise_guards (ds : List Declaration) :
    (guards c (ds.zip (ds.zipIdx.map fun e => slot e.1 e.2))).Pairwise Guard.ComesBefore := by
  rw [guards_eq_placed, List.flatMap, pairwise_flatten]
  refine ⟨?_, ?_⟩
  · intro gs hgs
    obtain ⟨k, -, rfl⟩ := mem_map.1 hgs
    exact placed_pairwise (inPhase_guardsIn hslot k) 0
  · rw [pairwise_map]
    refine (pairwise_lt_finRange 4).imp ?_
    intro j k hjk g hg h hh
    obtain ⟨i, d, -, hg⟩ := exists_of_mem_placed hg
    obtain ⟨i', d', -, hh⟩ := exists_of_mem_placed hh
    refine .inl ?_
    rwa [(inPhase_guardsIn hslot j d _ g hg).1, (inPhase_guardsIn hslot k d' _ h hh).1]

theorem named_of_mem_guards {ds : List Declaration} {g : Guard}
    (hg : g ∈ guards c (ds.zip (ds.zipIdx.map fun e => slot e.1 e.2))) :
    ∃ i d, ds[i]? = some d ∧ g.index? = some i ∧ g.account? = some d.name := by
  rw [guards_eq_placed] at hg
  obtain ⟨k, -, hg⟩ := mem_flatMap.1 hg
  obtain ⟨i, d, hd, hg⟩ := exists_of_mem_placed hg
  obtain ⟨-, hindex, hname⟩ := inPhase_guardsIn hslot k d _ g hg
  exact ⟨i, d, hd, by rwa [Nat.zero_add] at hindex, hname⟩

end Phases

/-! ## Guards as declared -/

/-- The slot of a declaration, with the facts of the program. -/
abbrev slotOf (p : Program) (group : Text) (d : Declaration) (i : Nat) : AccountSlot :=
  .ofDeclaration p.layouts (Facts.analyze p) group d i

theorem derived_slotOf (hgroups : (p.groups.map (·.name)).Nodup) (hg : g ∈ p.groups)
    (haccounts : (g.accounts.map (·.name)).Nodup) (hd : d ∈ g.accounts) (i : Nat) :
    (slotOf p g.name d i).isDerived = d.seeds?.isSome ∧
    (slotOf p g.name d i).seeds = d.seeds?.getD [] ∧
    (slotOf p g.name d i).bump = d.seeds?.bind fun _ => d.bumpSource? := by
  unfold slotOf AccountSlot.ofDeclaration
  rw [Facts.derivedFor?_analyze hgroups hg haccounts hd, Facts.derivedOf?]
  cases d.seeds? <;> exact ⟨rfl, rfl, rfl⟩

theorem asDeclared_of_filter {c : Context} (hgroups : (p.groups.map (·.name)).Nodup)
    (hg : g ∈ p.groups)
    (haccounts : (g.accounts.map (·.name)).Nodup) (hd : d ∈ g.accounts) {i : Nat} {gs : List Guard}
    (hgs : ∀ k, gs.filter (·.phase = k) = guardsIn c (slotOf p g.name) d i k) :
    AsDeclared c d (slotOf p g.name d i) gs := by
  obtain ⟨hderived, hseeds, hbump⟩ := derived_slotOf hgroups hg haccounts hd i
  have hsigner : (slotOf p g.name d i).isSigner = true ↔ d.effectiveKind = .signer :=
    decide_eq_true_iff
  refine ⟨hsigner, ?_, ?_, ?_, ?_, ?_⟩
  · rw [hderived]
    exact d.isSome_seeds?_iff
  · rw [hgs, guardsIn, signerGuard?]
    by_cases h : d.effectiveKind = .signer
    · rw [if_pos h, if_pos (hsigner.2 h)]
      rfl
    · rw [if_neg h, if_neg (mt hsigner.1 h)]
      rfl
  · rw [hgs, guardsIn, writableGuard?]
    cases d.isMutable <;> rfl
  · rw [hgs, guardsIn, derivedGuard?, hderived, hseeds, hbump]
    cases d.seeds? <;> rfl
  · rw [hgs, guardsIn]
    exact forall₂_constraintGuard? c _ d.constraints

theorem guardsMatch_slots (c : Context) (hgroups : (p.groups.map (·.name)).Nodup)
    (hg : g ∈ p.groups) (haccounts : (g.accounts.map (·.name)).Nodup) :
    GuardsMatch c g.accounts (g.accounts.zipIdx.map fun e => slotOf p g.name e.1 e.2)
      (guards c (g.accounts.zip (g.accounts.zipIdx.map fun e => slotOf p g.name e.1 e.2))) := by
  have hslot : ∀ d i, (slotOf p g.name d i).index = i ∧ (slotOf p g.name d i).name = d.name :=
    fun _ _ => ⟨rfl, rfl⟩
  have hat : ∀ i d, g.accounts[i]? = some d →
      (g.accounts.zipIdx.map fun e => slotOf p g.name e.1 e.2)[i]? =
      some (slotOf p g.name d i) := by
    intro i d hd
    simp [hd]
  refine ⟨by simp, ?_, ?_, pairwise_guards hslot g.accounts⟩
  · intro i d hd
    exact ⟨slotOf p g.name d i, hat i d hd, rfl, rfl, asDeclared_of_filter hgroups hg haccounts
      (mem_of_getElem? hd) (filter_guards hslot g.accounts hd)⟩
  · intro x hx
    obtain ⟨i, d, hd, hindex, hname⟩ := named_of_mem_guards hslot hx
    exact ⟨i, slotOf p g.name d i, hindex, hat i d hd, hname⟩

/-- **No declared guard is lost, repeated or misplaced.** The accounts of an instruction that does
not fail are those of its group, and their guards are those that the declarations ask for. -/
theorem lowerContained_guards (l : Lowerer ε) (p : Program) (hnames : p.checkNames = .ok ())
    (hgroups : (p.groups.map (·.name)).Nodup) (ix : Instruction) (index : Nat)
    (hok : (l.lowerContained p (Facts.analyze p) ix index).failed = false) :
    (∀ g, p.group? ix.group = some g →
      GuardsMatch (l.contextFor p (Facts.analyze p) ix) g.accounts
        (l.lowerContained p (Facts.analyze p) ix index).accounts
        (l.lowerContained p (Facts.analyze p) ix index).guards) ∧
    (p.group? ix.group = none →
      (l.lowerContained p (Facts.analyze p) ix index).accounts = [] ∧
      (l.lowerContained p (Facts.analyze p) ix index).guards = []) := by
  obtain ⟨haccounts, hguards⟩ := lowerContained_of_not_failed hok
  rw [haccounts, hguards]
  constructor
  · intro g hg
    have hds : p.declarationsFor ix = g.accounts := by rw [Program.declarationsFor, hg]; rfl
    have hmem : g ∈ p.groups := List.mem_of_find?_eq_some hg
    have hname : g.name = ix.group := by simpa using List.find?_some hg
    have hdistinct := (((p.checkNames_eq_ok_iff).1 hnames).groups g hmem).accounts.nodup
    rw [slots, hds, ← hname]
    exact guardsMatch_slots _ hgroups hmem hdistinct
  · intro hnone
    have hds : p.declarationsFor ix = [] := by rw [Program.declarationsFor, hnone]; rfl
    rw [slots, hds]
    exact ⟨rfl, rfl⟩

/-- A group in which the vault is derived from seeds and its owner is boxed. -/
def openGroup : Group where
  name := "Open"
  accounts :=
    [⟨"vault", .account, .null, none,
      [.mutable, .seeds ["b\"vault\""], .bump (.str "bump"), .hasOne "owner" (.str "NotOwner"),
        .mutable]⟩,
     ⟨"owner", .wrapped, .null, some .signer,
       [.condition "ctx.accounts.owner.key() != ADMIN" .null, .condition "1 <  2" (.str "Never")]⟩]
  args := []

/-- A group in which an account of the same name is given by its address. -/
def closeGroup : Group where
  name := "Close"
  accounts := [⟨"vault", .unchecked, .null, none, [.target .address "VAULT"]⟩]
  args := []

/-- An instruction of the first group. -/
def openInstruction : Instruction := ⟨"open", "Open", [], .str "Ok(())"⟩

/-- An instruction of the second group. -/
def closeInstruction : Instruction := ⟨"close", "Close", [], .str "Ok(())"⟩

def vaultProgram : Program where
  name := "vault"
  programId := none
  instructions := [openInstruction, closeInstruction]
  groups := [openGroup, closeGroup]
  records := []
  errors := []

/-- What the instructions of the program are lowered to. -/
def vaultTarget (ix : Instruction) : TargetInstruction :=
  (Lowerer.standard .standard).lowerContained vaultProgram (Facts.analyze vaultProgram) ix 0

/-- The context of the instructions of the program. -/
def vaultContext (ix : Instruction) : Context :=
  (Lowerer.standard .standard).contextFor vaultProgram (Facts.analyze vaultProgram) ix

def vaultGuards : List Guard :=
  [.isSigner 1 "owner",
   .isWritable 0 "vault",
   .derivedAddress 0 "vault" ["b\"vault\""] (some "bump") .reconstructFromBump,
   .custom "if vault.owner != *owner.key() \x7b return Err(NotOwner.into()); \x7d" (some 0)
     (some "vault"),
   .custom "if !(*owner.key() != ADMIN) \x7b return Err(ProgramError::Custom(0)); \x7d" (some 1)
     (some "owner"),
   .custom "if !(1 < 2) \x7b return Err(Never.into()); \x7d" (some 1) (some "owner")]

theorem lowerContained_guards_vault :
    vaultProgram.checkNames = .ok () ∧ (vaultProgram.groups.map (·.name)).Nodup ∧
    (vaultTarget openInstruction).failed = false ∧ (vaultTarget closeInstruction).failed = false ∧
    (vaultTarget openInstruction).guards = vaultGuards ∧
    (vaultTarget closeInstruction).guards = [.keyEquals 0 "vault" "VAULT"] ∧
    GuardsMatch (vaultContext openInstruction) openGroup.accounts
      (vaultTarget openInstruction).accounts (vaultTarget openInstruction).guards ∧
    GuardsMatch (vaultContext closeInstruction) closeGroup.accounts
      (vaultTarget closeInstruction).accounts (vaultTarget closeInstruction).guards := by
  have hnames : vaultProgram.checkNames = .ok () := by rfl
  have hgroups : (vaultProgram.groups.map (·.name)).Nodup := by decide
  have hopen : (vaultTarget openInstruction).failed = false := by decide +kernel
  have hclose : (vaultTarget closeInstruction).failed = false := by decide +kernel
  exact ⟨hnames, hgroups, hopen, hclose, by decide +kernel, by decide +kernel,
    (lowerContained_guards _ vaultProgram hnames hgroups openInstruction 0 hopen).1 openGroup rfl,
    (lowerContained_guards _ vaultProgram hnames hgroups closeInstruction 0 hclose).1
      closeGroup rfl⟩

end Lowering

end AnchorLowering
