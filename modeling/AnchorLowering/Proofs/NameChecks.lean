import AnchorLowering.Model.Naming
import Mathlib.Data.List.Nodup

/-!
# What the name check accepts

The check of a program's names walks over them in order and stops at the first fault. It passes
exactly when there is none: `checkNames_eq_ok_iff` says so in terms of the names alone.
-/

namespace AnchorLowering

open List

variable {ε : Type}

/-- Names that are not empty and differ from one another. -/
structure DistinctNames (names : List Text) : Prop where
  nonempty : ∀ name ∈ names, name ≠ []
  nodup : names.Nodup

theorem NamingError.checkNames_eq_ok_iff (empty : NamingError) (duplicate : Text → NamingError)
    (seen names : List Text) :
    checkNames empty duplicate seen names = .ok () ↔ DistinctNames names ∧ ∀ name ∈ names,
    name ∉ seen := by
  induction names generalizing seen with
  | nil =>
    simp only [checkNames, true_iff]
    exact ⟨⟨by simp, nodup_nil⟩, by simp⟩
  | cons name rest ih =>
    rw [checkNames]
    by_cases hempty : name = []
    · subst hempty
      simp only [isEmpty_nil, if_true]
      constructor
      · intro h
        cases h
      · intro h
        exact absurd rfl (h.1.nonempty [] mem_cons_self)
    by_cases hseen : name ∈ seen
    · simp only [List.isEmpty_iff, hempty, if_false, contains_eq_mem, hseen, decide_true, if_true]
      constructor
      · intro h
        cases h
      · intro h
        exact absurd hseen (h.2 name mem_cons_self)
    · simp only [List.isEmpty_iff, hempty, if_false, contains_eq_mem, hseen, decide_false,
        Bool.false_eq_true, ih]
      constructor
      · rintro ⟨hrest, hfresh⟩
        have hname : name ∉ rest := fun h => hfresh name h mem_cons_self
        refine ⟨⟨?_, nodup_cons.2 ⟨hname, hrest.nodup⟩⟩, ?_⟩
        · exact forall_mem_cons.2 ⟨hempty, hrest.nonempty⟩
        · exact forall_mem_cons.2 ⟨hseen, fun other hother => fun h => hfresh other hother
            (mem_cons_of_mem _ h)⟩
      · rintro ⟨hall, hfresh⟩
        have hname := (nodup_cons.1 hall.nodup).1
        refine ⟨⟨fun other h => hall.nonempty other (mem_cons_of_mem _ h),
          (nodup_cons.1 hall.nodup).2⟩, fun other h hmem => ?_⟩
        rcases mem_cons.1 hmem with rfl | hmem
        · exact hname h
        · exact hfresh other (mem_cons_of_mem _ h) hmem

/-- The group has a name, and its accounts have distinct ones. -/
structure Group.WellNamed (g : Group) : Prop where
  name : g.name ≠ []
  accounts : DistinctNames (g.accounts.map (·.name))

theorem Group.checkNames_eq_ok_iff (g : Group) : g.checkNames = .ok () ↔ g.WellNamed := by
  unfold Group.checkNames
  by_cases hname : g.name = []
  · simp only [hname, isEmpty_nil, if_true]
    constructor
    · intro h
      cases h
    · intro h
      exact absurd hname h.name
  · simp only [List.isEmpty_iff, hname, if_false, NamingError.checkNames_eq_ok_iff]
    exact ⟨fun h => ⟨hname, h.1⟩, fun h => ⟨h.accounts, by simp⟩⟩

theorem StateRecord.checkName_eq_ok_iff (r : StateRecord) : r.checkName = .ok () ↔ r.name ≠ [] := by
  unfold StateRecord.checkName
  by_cases hname : r.name = [] <;> simp [hname]

theorem bind_eq_ok_iff (first second : Except ε Unit) :
    (first >>= fun _ => second) = .ok () ↔ first = .ok () ∧ second = .ok () := by
  cases first <;> simp [bind, Except.bind]

theorem forM_eq_ok_iff {α : Type} (check : α → Except ε Unit) (items : List α) :
    items.forM check = .ok () ↔ ∀ item ∈ items, check item = .ok () := by
  induction items with
  | nil => simp [pure, Except.pure]
  | cons item items ih =>
    rw [forall_mem_cons, ← ih]
    exact bind_eq_ok_iff _ _

/-- The names of a program are in order: none is missing, and instructions and the accounts of a
group differ in theirs. -/
structure Program.WellNamed (p : Program) : Prop where
  name : p.name ≠ []
  instructions : DistinctNames (p.instructions.map (·.name))
  groups : ∀ g ∈ p.groups, g.WellNamed
  records : ∀ r ∈ p.records, r.name ≠ []

/-- The check passes exactly for the programs whose names are in order. -/
theorem Program.checkNames_eq_ok_iff (p : Program) : p.checkNames = .ok () ↔ p.WellNamed := by
  have hsteps : p.checkNames = .ok () ↔ p.name ≠ [] ∧ DistinctNames (p.instructions.map (·.name)) ∧
        (∀ g ∈ p.groups, g.WellNamed) ∧ ∀ r ∈ p.records, r.name ≠ [] := by
    unfold Program.checkNames
    by_cases hname : p.name = []
    · simp [hname, throw, throwThe, MonadExceptOf.throw, bind, Except.bind]
    · simp only [List.isEmpty_iff, hname, if_false, bind_eq_ok_iff,
        NamingError.checkNames_eq_ok_iff, forM_eq_ok_iff, Group.checkNames_eq_ok_iff,
        StateRecord.checkName_eq_ok_iff, not_mem_nil, not_false_eq_true, implies_true, and_true,
        ne_eq, true_and]
  rw [hsteps]
  constructor
  · rintro ⟨hname, hinstructions, hgroups, hrecords⟩
    exact ⟨hname, hinstructions, hgroups, hrecords⟩
  · rintro ⟨hname, hinstructions, hgroups, hrecords⟩
    exact ⟨hname, hinstructions, hgroups, hrecords⟩

end AnchorLowering
