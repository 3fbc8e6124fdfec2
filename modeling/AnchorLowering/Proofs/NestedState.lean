import AnchorLowering.Proofs.FieldRouting
import AnchorLowering.Proofs.WovenText
import AnchorLowering.Proofs.RuleBrackets

/-!
# State accesses in nested code

The step that routes field accesses runs one rule after the other over the code of a body, and puts
the statements that bind the handles before it. The rules keep brackets, and so do the statements if
the names of accounts and records have none (`nested_lowerState`).
-/

namespace AnchorLowering

open List Pattern Source

variable {c : Context} {body : Text}

/-- The names of the account and of its record are inert. -/
structure StateBinding.Inert (b : StateBinding) : Prop where
  account : Source.Inert b.account
  record : Source.Inert b.record

namespace Lowering

/-! ## Handles -/

theorem isPlain_of_mem_concat {parts : List Text}
    (h : ∀ part ∈ parts, ∀ x ∈ part, isPlain x = true) :
    ∀ x ∈ Text.concat parts, isPlain x = true := by
  intro x hx
  obtain ⟨part, hpart, hx⟩ := mem_flatten.1 hx
  exact h part hpart x hx

/-- The line that binds a handle is plain, and its brackets are paired. -/
theorem opening_bindHandle {b : StateBinding} (h : b.Inert) (mutable : Bool) :
    Opening (bindHandle b mutable ++ ['\n']) ∧ Bracketed (bindHandle b mutable ++ ['\n']) := by
  have haccount : ∀ x ∈ b.account, isPlain x = true := fun x hx => (h.account x hx).1
  have hrecord : ∀ x ∈ b.record, isPlain x = true := fun x hx => (h.record x hx).1
  have hhandle : ∀ x ∈ b.handle, isPlain x = true :=
    forall_mem_append.2 ⟨haccount,
      fun x hx => (by decide : ∀ x ∈ "_state".toList, isPlain x = true) x hx⟩
  have hbrackets : brackets b.account = [] := brackets_eq_nil fun x hx => (h.account x hx).2
  have hbrackets' : brackets b.record = [] := brackets_eq_nil fun x hx => (h.record x hx).2
  have hbrackets'' : brackets b.handle = [] := by
    rw [StateBinding.handle, brackets_append, hbrackets]
    rfl
  have hplain : ∀ x ∈ bindHandle b mutable, isPlain x = true := by
    cases mutable <;>
      exact isPlain_of_mem_concat (by
        simp only [forall_mem_cons]
        exact ⟨by decide, hhandle, by decide, hrecord, by decide, haccount, by decide, by simp⟩)
  have hbracketed : Bracketed (bindHandle b mutable) := by
    rw [← bracketed_brackets]
    cases mutable <;>
      simp only [bindHandle, if_true, Bool.false_eq_true, if_false, brackets_concat, map_cons,
        map_nil, flatten_cons, flatten_nil, hbrackets, hbrackets', hbrackets''] <;>
      decide
  refine ⟨⟨by simp, ⟨fun x hx => ?_, fun x hx => ?_⟩, ?_⟩, hbracketed.append (by decide)⟩
  · rcases mem_append.1 hx with hx | hx
    · exact hplain x hx
    · exact (by decide : ∀ x ∈ ['\n'], isPlain x = true) x hx
  · rw [List.getLast?_concat] at hx
    obtain rfl := Option.some.inj hx
    decide
  · rw [List.getLast?_concat]
    decide

theorem nested_bindHandles (hc : ∀ b ∈ c.states, b.Inert) (written : List Text)
    (hnested : Nested body) : Nested (bindHandles c written body) := by
  have hlines : ∀ line ∈ c.states.filterMap (handleFor? body written), ∃ b ∈ c.states, ∃ mutable,
      line = bindHandle b mutable := by
    intro line hline
    obtain ⟨b, hb, hhandle⟩ := mem_filterMap.1 hline
    rw [handleFor?] at hhandle
    split at hhandle
    · exact ⟨b, hb, _, (Option.some.inj hhandle).symm⟩
    · cases hhandle
  rw [bindHandles]
  generalize c.states.filterMap (handleFor? body written) = lines at hlines
  induction lines with
  | nil => exact hnested
  | cons line lines ih =>
    obtain ⟨b, hb, mutable, rfl⟩ := hlines line mem_cons_self
    rw [flatMap_cons, append_assoc]
    obtain ⟨hopening, hbracketed⟩ := opening_bindHandle (hc b hb) mutable
    exact nested_prepend hopening hbracketed
      (ih fun line hline => hlines line (mem_cons_of_mem _ hline))

/-! ## Rules -/

/-- The rules that the step runs over a body, given the aliases. -/
def stateRules (c : Context) (aliases : Table Text) : List (Pattern Text) :=
  c.states.map loadRule ++
  (dropAlias c aliases :: ((aliases.filter fun e => e.1 != e.2).map aliasRule ++
    (c.states.map fieldAccess ++ [keyAssignment (c.states.map StateBinding.handle)])))

theorem unloadRecords_fst (bs : List StateBinding) (body : Text) :
    (unloadRecords bs body).1 = (bs.map loadRule).foldl (fun t rule => replaceInCode rule t)
      body := by
  induction bs generalizing body with
  | nil => rfl
  | cons b bs ih => exact ih (dropLoads body b)

theorem foldl_inlineAlias (entries : List (Text × Text)) (body : Text) :
    entries.foldl inlineAlias body =
    ((entries.filter fun e => e.1 != e.2).map aliasRule).foldl (fun t rule => replaceInCode rule t)
      body := by
  induction entries generalizing body with
  | nil => rfl
  | cons e entries ih =>
    rw [foldl_cons, ih, inlineAlias, filter_cons]
    by_cases heq : e.1 = e.2
    · simp [heq]
    · simp [heq, aliasRule]

theorem foldl_routeFields (bs : List StateBinding) (body : Text) :
    bs.foldl routeBinding body = (bs.map fieldAccess).foldl (fun t rule => replaceInCode rule t)
      body := by
  induction bs generalizing body with
  | nil => rfl
  | cons b bs ih =>
    rw [foldl_cons, ih, routeBinding_eq, anyFieldAccess_singleton, map_cons, foldl_cons]

/-- The step runs its rules and binds the handles. -/
theorem lowerState_eq (c : Context) (body : Text) : lowerState c body =
    if c.states.isEmpty then body
    else bindHandles c (unloadRecords c.states body).2
      ((stateRules c (c.aliases (unloadRecords c.states body).1)).foldl
        (fun t rule => replaceInCode rule t) body) := by
  rw [lowerState]
  split
  · rfl
  · simp only [stateRules, foldl_append, foldl_cons, foldl_nil, ← unloadRecords_fst,
      ← foldl_inlineAlias, ← foldl_routeFields]
    rfl

theorem keepsBrackets_stateRules (c : Context) (body : Text) :
    ∀ rule ∈ stateRules c (c.aliases body), KeepsBrackets rule := by
  intro rule hrule
  simp only [stateRules, mem_append, mem_cons, mem_map, not_mem_nil, or_false] at hrule
  obtain ⟨b, -, rfl⟩ | rfl | ⟨e, he, rfl⟩ | ⟨b, -, rfl⟩ | rfl := hrule
  · exact keepsBrackets_loadRule b
  · exact keepsBrackets_dropAlias c _
  · obtain ⟨hname, haccount⟩ := isName_of_mem_aliases (mem_of_mem_filter he)
    exact keepsBrackets_inline (brackets_of_word hname.word) (brackets_of_word haccount.word)
  · exact keepsBrackets_fieldAccess b
  · exact keepsBrackets_keyAssignment _

/-- What keeps a body nested in the step for state accesses: what its rules write into code is read
as code. -/
def CleanState (c : Context) (body : Text) : Prop :=
  c.states.isEmpty = true ∨
  RecodesAll (stateRules c (c.aliases (unloadRecords c.states body).1)) body

instance (c : Context) (body : Text) : Decidable (CleanState c body) :=
  inferInstanceAs (Decidable (_ ∨ _))

/-- **The step for state accesses keeps nested code nested.** -/
theorem nested_lowerState (hc : ∀ b ∈ c.states, b.Inert) (hnested : Nested body)
    (h : CleanState c body) : Nested (lowerState c body) := by
  rw [lowerState_eq]
  split
  next => exact hnested
  next hne =>
    have hrules := nested_foldl (keepsBrackets_stateRules c _) (h.resolve_left hne) hnested
    exact nested_bindHandles hc _ hrules

end Lowering

end AnchorLowering
