import AnchorLowering.Lowering.Context
import Mathlib.Data.List.Basic

/-!
# Contexts of one record

The smallest contexts with state: some accounts, each of which holds a record of one and the same
layout and has no other marks. Every account of such a context has a handle with the fields of the
layout (`states_recordContext`).
-/

namespace AnchorLowering

/-- A writable account that holds a record. -/
def recordAccount (record name : Text) : AccountSlot where
  name := name
  index := 0
  kind := .account
  isSigner := false
  isWritable := true
  isDerived := false
  seeds := []
  bump := none
  isInit := false
  payer := none
  tokenMint := none
  tokenAuthority := none
  stateType := some record

/-- Accounts that hold records of one layout. -/
def recordContext (layout : RecordLayout) (names : List Text) : Context :=
  .build [] (names.map (recordAccount layout.name)) [(layout.name, layout)] [] .standard

theorem layoutOf?_recordAccount {layout : RecordLayout} (h : layout.name ≠ []) (name : Text) :
    Context.layoutOf? [(layout.name, layout)] (recordAccount layout.name name) = some layout := by
  obtain ⟨x, t, ht⟩ := List.exists_cons_of_ne_nil h
  simp [Context.layoutOf?, recordAccount, ht, Table.get?]

theorem states_recordContext {layout : RecordLayout} (h : layout.name ≠ []) (names : List Text) :
    (recordContext layout names).states =
      names.map fun name => ⟨name, layout.name, Context.fieldNames layout⟩ := by
  induction names with
  | nil => rfl
  | cons name names ih =>
    simp only [recordContext, Context.build, List.map_cons, List.filterMap_cons,
      layoutOf?_recordAccount h, Option.map_some] at ih ⊢
    rw [ih]
    rfl

end AnchorLowering
