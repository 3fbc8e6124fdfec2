import AnchorLowering.Proofs.BoxedAccount

/-!
# What a loaded program is made of

A program is read from JSON. The relations `ReadFrom` say, part by part, which JSON values a part is
read from: a name is the text at its key, a list has one item for each item of the array at its key,
and so on. Places and messages of errors do not occur in them.

Main result: `Program.decode_typed_iff`. It holds for every check of program ids.
-/

namespace AnchorLowering

open List

variable {ty : AccountType} {c : Constraint} {d : Declaration} {j payload : Json}
  {list : List Json} {index : Nat}
  {p : Program} {key : String} {place tag : Text} {α ε : Type}

/-! ## Values -/

namespace Json

/-- The value is a text. -/
def IsText (j : Json) : Prop := ∃ t, j = .str t

/-- The value is a text or null. -/
def IsTextOrNull (j : Json) : Prop := j = .null ∨ j.IsText

/-- The value is the variant of this name, with what it carries. -/
inductive IsVariant : Json → Text → Json → Prop where
  | name (tag : Text) : IsVariant (.str tag) tag .null
  | carrying (tag : Text) (payload : Json) : IsVariant (.obj [(tag, payload)]) tag payload

/-- The list at a key; an absent or null one is empty. -/
inductive ListAt (j : Json) (key : String) : List Json → Prop where
  | absent (h : j.get? key.toList = none) : ListAt j key []
  | null (h : j.get? key.toList = some .null) : ListAt j key []
  | array {items : List Json} (h : j.get? key.toList = some (.arr items)) : ListAt j key items

/-- The items at a key, none if there is no array. -/
def itemsAt (j : Json) (key : String) : List Json := ((j.get? key.toList).bind items?).getD []

/-- What stands at the key is a text if it is filled in. -/
def TextAt (j : Json) (key : String) : Prop :=
  ∀ value, j.get? key.toList = some value → value.isFilled = true → value.IsText

theorem ListAt.itemsAt_eq (h : j.ListAt key list) : j.itemsAt key = list := by
  cases h with
  | absent h => rw [itemsAt, h]; rfl
  | null h => rw [itemsAt, h]; rfl
  | array h => rw [itemsAt, h]; rfl

end Json

open Json

namespace Decode

/-! ## Steps of a reader -/

theorem bind_eq_ok {β : Type} {x : Except ε α} {f : α → Except ε β} {b : β} :
    (x >>= f) = .ok b ↔ ∃ a, x = .ok a ∧ f a = .ok b := by
  cases x <;> simp [bind, Except.bind]

theorem pure_eq_ok {a b : α} : (pure a : Except ε α) = .ok b ↔ a = b := by
  simp [pure, Except.pure]

theorem requireText_eq_ok {t : Text} :
    requireText j key place = .ok t ↔ j.get? key.toList = some (.str t) := by
  unfold requireText requireKey
  cases j.get? key.toList with
  | none => simp [bind, Except.bind]
  | some value => cases value <;> simp [bind, Except.bind]

theorem listOf_eq_ok : listOf j key place = .ok list ↔ j.ListAt key list := by
  unfold listOf
  constructor
  · intro h
    split at h
    · rename_i hget
      cases h
      exact .absent hget
    · rename_i hget
      cases h
      exact .null hget
    · rename_i items hget
      cases h
      exact .array hget
    · cases h
  · rintro (h | h | h) <;> simp only [h]

theorem variant_eq_ok : variant j place = .ok (tag, payload) ↔ j.IsVariant tag payload := by
  constructor
  · intro h
    unfold variant at h
    split at h
    · cases h
      exact .name tag
    · cases h
      exact .carrying tag payload
    · cases h
  · rintro (_ | _) <;> rfl

theorem exists_of_named? {table : List (String × α)} {name : Text} {value : α}
    (h : named? table name = some value) : ∃ e ∈ table, e.1.toList = name ∧ e.2 = value := by
  obtain ⟨e, he, hvalue⟩ := Option.map_eq_some_iff.1 h
  exact ⟨e, mem_of_find?_eq_some he, by simpa using find?_some he, hvalue⟩

theorem items_eq_ok {read : Json → Nat → Decoded α} {From : Json → α → Prop}
    (h : ∀ e i x, read e i = .ok x ↔ From e x) {out : List α} :
    items read list = .ok out ↔ Forall₂ From list out := by
  have hfrom : ∀ (start : Nat) (list : List Json) (out : List α),
      ((list.zipIdx start).mapM fun e => read e.1 e.2) = .ok out ↔ Forall₂ From list out := by
    intro start list
    induction list generalizing start with
    | nil =>
      intro out
      rw [zipIdx_nil, mapM_nil, pure_eq_ok, forall₂_nil_left_iff, eq_comm]
    | cons e list ih =>
      intro out
      rw [zipIdx_cons, mapM_cons, bind_eq_ok, forall₂_cons_left_iff]
      simp only [bind_eq_ok, pure_eq_ok, h, ih]
      constructor
      · rintro ⟨x, hx, rest, hrest, rfl⟩
        exact ⟨x, rest, hx, hrest, rfl⟩
      · rintro ⟨x, rest, hx, hrest, rfl⟩
        exact ⟨x, hx, rest, hrest, rfl⟩
  exact hfrom 0 list out

theorem isText_filledOr : (filledOr j key (.str [])).IsText ↔ j.TextAt key := by
  unfold filledOr TextAt
  cases j.get? key.toList with
  | none => simp [IsText]
  | some value =>
    cases hfilled : value.isFilled <;> simp [IsText, hfilled]

theorem isTextOrNull_filledOr : (filledOr j key .null).IsTextOrNull ↔ j.TextAt key := by
  unfold filledOr TextAt
  cases j.get? key.toList with
  | none => simp [IsTextOrNull]
  | some value =>
    cases hfilled : value.isFilled with
    | false => simp [IsTextOrNull, hfilled]
    | true =>
      have hne : value ≠ .null := by
        rintro rfl
        cases hfilled
      simp [IsTextOrNull, hne, hfilled]

end Decode

open Decode

/-! ## Account types -/

namespace AccountType

/-- The values that an account type is read from. A box passes on what is inside it, and the kind of
that. -/
inductive ReadFrom : Json → AccountType → Prop where
  | plain {j payload : Json} {tag : Text} {kind : AccountKind} (hvariant : j.IsVariant tag payload)
      (hkind : named? AccountKind.variants tag = some kind) (hbox : kind ≠ .wrapped) :
      ReadFrom j ⟨kind, filledOr payload "inner" .null, none⟩
  | box {j payload value : Json} {inside : AccountType}
      (hvariant : j.IsVariant "Box".toList payload)
      (hinner : payload.get? "inner".toList = some value) (hinside : ReadFrom value inside) :
      ReadFrom j ⟨.wrapped, inside.inner, some inside.kind⟩

theorem eq_box_of_wrapped (h : named? AccountKind.variants tag = some .wrapped) :
    tag = "Box".toList := by
  have hall : ∀ e ∈ AccountKind.variants, e.2 = .wrapped → e.1.toList = "Box".toList := by decide
  obtain ⟨e, he, rfl, hkind⟩ := exists_of_named? h
  exact hall e he hkind

theorem ofJson_eq_ok_iff : ofJson j place = .ok ty ↔ ReadFrom j ty := by
  constructor
  · intro h
    fun_induction ofJson j place generalizing ty with
    | case1 => cases h
    | case2 => cases h
    | case3 => cases h
    | case4 => cases h
    | case5 j place tag payload hvariant hkind value hinner hlt inside hinside ih =>
      cases h
      rw [eq_box_of_wrapped hkind] at hvariant
      exact .box (variant_eq_ok.1 hvariant) hinner (ih hinside)
    | case6 j place tag payload hvariant kind hbox hkind =>
      cases h
      exact .plain (variant_eq_ok.1 hvariant) hkind hbox
  · intro h
    induction h generalizing place with
    | plain hvariant hkind hbox => exact ofJson_of_variant (variant_eq_ok.2 hvariant) hkind hbox
    | box hvariant hinner _ ih => exact ofJson_of_box (variant_eq_ok.2 hvariant) hinner ih

end AccountType

/-! ## Constraints -/

namespace Constraint

inductive ReadFrom : Json → Constraint → Prop where
  | mutable {j payload : Json} (hvariant : j.IsVariant "Mut".toList payload) : ReadFrom j .mutable
  | init {j payload : Json} {payer : Text} (ifNeeded : Bool)
      (hvariant : j.IsVariant (if ifNeeded then "InitIfNeeded".toList else "Init".toList) payload)
      (hpayer : payload.get? "payer".toList = some (.str payer)) :
      ReadFrom j (.init ifNeeded payer (filledOr payload "space" (.str [])))
  | seeds {j : Json} {parts : List Json} (hvariant : j.IsVariant "Seeds".toList (.arr parts)) :
      ReadFrom j (.seeds (parts.map Json.display))
  | bump {j source : Json} (hvariant : j.IsVariant "Bump".toList source) : ReadFrom j (.bump source)
  | condition {j payload : Json} {expr : Text} (hvariant : j.IsVariant "Constraint".toList payload)
      (hexpr : payload.get? "expr".toList = some (.str expr)) :
      ReadFrom j (.condition expr ((payload.get? "error".toList).getD .null))
  | hasOne {j payload : Json} {field : Text} (hvariant : j.IsVariant "HasOne".toList payload)
      (hfield : payload.get? "field".toList = some (.str field)) :
      ReadFrom j (.hasOne field ((payload.get? "error".toList).getD .null))
  | target {j payload : Json} {tag : Text} {kind : TargetConstraint}
      (hvariant : j.IsVariant tag payload)
      (hkind : named? TargetConstraint.variants tag = some kind) (hvalue : payload ≠ .null) :
      ReadFrom j (.target kind payload.display)

theorem ofJson_eq_ok_iff : ofJson j place = .ok c ↔ ReadFrom j c := by
  constructor
  · intro h
    unfold ofJson at h
    obtain ⟨⟨tag, payload⟩, hvariant, h⟩ := bind_eq_ok.1 h
    rw [variant_eq_ok] at hvariant
    dsimp only at h
    split at h
    · rename_i htag
      rw [eq_of_beq htag] at hvariant
      cases h
      exact .mutable hvariant
    split at h
    · rename_i htag
      obtain ⟨payer, hpayer, h⟩ := bind_eq_ok.1 h
      rw [requireText_eq_ok] at hpayer
      cases h
      rcases Bool.or_eq_true_iff.1 htag with hinit | hneeded
      · obtain rfl := eq_of_beq hinit
        exact .init false hvariant hpayer
      · obtain rfl := eq_of_beq hneeded
        exact .init true hvariant hpayer
    split at h
    · rename_i htag
      rw [eq_of_beq htag] at hvariant
      split at h
      · cases h
        exact .seeds hvariant
      · cases h
    split at h
    · rename_i htag
      rw [eq_of_beq htag] at hvariant
      cases h
      exact .bump hvariant
    split at h
    · rename_i htag
      rw [eq_of_beq htag] at hvariant
      obtain ⟨expr, hexpr, h⟩ := bind_eq_ok.1 h
      cases h
      exact .condition hvariant (requireText_eq_ok.1 hexpr)
    split at h
    · rename_i htag
      rw [eq_of_beq htag] at hvariant
      obtain ⟨field, hfield, h⟩ := bind_eq_ok.1 h
      cases h
      exact .hasOne hvariant (requireText_eq_ok.1 hfield)
    split at h
    · cases h
    · rename_i kind hkind
      split at h
      · cases h
      · rename_i hvalue
        cases h
        exact .target hvariant hkind hvalue
  · intro h
    unfold ofJson
    cases h with
    | mutable hvariant =>
      rw [variant_eq_ok.2 hvariant]
      rfl
    | init ifNeeded hvariant hpayer =>
      rw [variant_eq_ok.2 hvariant]
      cases ifNeeded <;>
        exact bind_eq_ok.2 ⟨_, rfl, bind_eq_ok.2 ⟨_, requireText_eq_ok.2 hpayer, rfl⟩⟩
    | seeds hvariant =>
      rw [variant_eq_ok.2 hvariant]
      rfl
    | bump hvariant =>
      rw [variant_eq_ok.2 hvariant]
      rfl
    | condition hvariant hexpr =>
      rw [variant_eq_ok.2 hvariant]
      exact bind_eq_ok.2 ⟨_, rfl, bind_eq_ok.2 ⟨_, requireText_eq_ok.2 hexpr, rfl⟩⟩
    | hasOne hvariant hfield =>
      rw [variant_eq_ok.2 hvariant]
      exact bind_eq_ok.2 ⟨_, rfl, bind_eq_ok.2 ⟨_, requireText_eq_ok.2 hfield, rfl⟩⟩
    | @target payload tag kind hvariant hkind hvalue =>
      have hother : ∀ e ∈ TargetConstraint.variants, e.1.toList ∉ ["Mut".toList, "Init".toList,
          "InitIfNeeded".toList,
        "Seeds".toList, "Bump".toList, "Constraint".toList, "HasOne".toList] := by decide
      obtain ⟨e, he, rfl, -⟩ := exists_of_named? hkind
      have htag := hother e he
      simp only [mem_cons, not_mem_nil, or_false, not_or] at htag
      rw [variant_eq_ok.2 hvariant]
      refine bind_eq_ok.2 ⟨_, rfl, ?_⟩
      simp only [beq_iff_eq, Bool.or_eq_true, htag, or_self, if_false, hkind]
      cases payload with
      | null => exact absurd rfl hvalue
      | _ => rfl

end Constraint

/-! ## The parts of a program -/

/-- The values that an argument is read from. -/
structure Argument.ReadFrom (j : Json) (a : Argument) : Prop where
  name : j.get? "name".toList = some (.str a.name)
  ty : j.get? "ty".toList = some (.str a.ty)

theorem Argument.listOfJson_eq_ok_iff {args : List Argument} :
    Argument.listOfJson list place = .ok args ↔ Forall₂ Argument.ReadFrom list args := by
  refine items_eq_ok fun e i x => ?_
  simp only [bind_eq_ok, pure_eq_ok, requireText_eq_ok]
  constructor
  · rintro ⟨name, hname, ty, hty, rfl⟩
    exact ⟨hname, hty⟩
  · exact fun h => ⟨x.name, h.name, x.ty, h.ty, rfl⟩

/-- The list at a key is read item by item. -/
def ReadAt {α : Type} (From : Json → α → Prop) (j : Json) (key : String) (out : List α) : Prop :=
  ∃ list, j.ListAt key list ∧ List.Forall₂ From list out

/-- The values that a declaration is read from. -/
structure Declaration.ReadFrom (j : Json) (d : Declaration) : Prop where
  name : j.get? "name".toList = some (.str d.name)
  ty : AccountType.ReadFrom ((j.get? "ty".toList).getD .null) ⟨d.kind, d.inner, d.wrapped⟩
  constraints : ReadAt Constraint.ReadFrom j "constraints" d.constraints

theorem Declaration.ofJson_eq_ok_iff :
    Declaration.ofJson j place = .ok d ↔ Declaration.ReadFrom j d := by
  simp only [Declaration.ofJson, bind_eq_ok, pure_eq_ok, requireText_eq_ok,
    AccountType.ofJson_eq_ok_iff, listOf_eq_ok]
  constructor
  · rintro ⟨name, hname, ty, hty, list, hlist, constraints, hconstraints, rfl⟩
    exact ⟨hname, hty, list, hlist,
      (items_eq_ok fun e _ _ => Constraint.ofJson_eq_ok_iff (j := e)).1 hconstraints⟩
  · rintro ⟨hname, hty, list, hlist, hconstraints⟩
    exact ⟨_, hname, _, hty, list, hlist, _,
      (items_eq_ok fun e _ _ => Constraint.ofJson_eq_ok_iff (j := e)).2 hconstraints, rfl⟩

/-- The values that an instruction is read from. -/
structure Instruction.ReadFrom (j : Json) (ix : Instruction) : Prop where
  name : j.get? "name".toList = some (.str ix.name)
  group : j.get? "accounts_struct".toList = some (.str ix.group)
  args : ReadAt Argument.ReadFrom j "args" ix.args
  body : ix.body = filledOr j "body" (.str [])

theorem Instruction.ofJson_eq_ok_iff {ix : Instruction} :
    Instruction.ofJson j index = .ok ix ↔ Instruction.ReadFrom j ix := by
  simp only [Instruction.ofJson, bind_eq_ok, pure_eq_ok, requireText_eq_ok, listOf_eq_ok,
    Argument.listOfJson_eq_ok_iff]
  constructor
  · rintro ⟨name, hname, group, hgroup, list, hlist, args, hargs, rfl⟩
    exact ⟨hname, hgroup, ⟨list, hlist, hargs⟩, rfl⟩
  · rintro ⟨hname, hgroup, ⟨list, hlist, hargs⟩, hbody⟩
    exact ⟨_, hname, _, hgroup, list, hlist, _, hargs, by rw [← hbody]⟩

/-- The values that a group of accounts is read from. -/
structure Group.ReadFrom (j : Json) (g : Group) : Prop where
  name : j.get? "name".toList = some (.str g.name)
  accounts : ReadAt Declaration.ReadFrom j "accounts" g.accounts
  args : ReadAt Argument.ReadFrom j "instruction_args" g.args

theorem Group.ofJson_eq_ok_iff {g : Group} : Group.ofJson j index = .ok g ↔ Group.ReadFrom j g := by
  simp only [Group.ofJson, bind_eq_ok, pure_eq_ok, requireText_eq_ok, listOf_eq_ok,
    Argument.listOfJson_eq_ok_iff]
  constructor
  · rintro ⟨name, hname, list, hlist, accounts, haccounts, list', hlist', args, hargs, rfl⟩
    exact ⟨hname, ⟨list, hlist, (items_eq_ok fun e _ _ => Declaration.ofJson_eq_ok_iff (j := e)).1
      haccounts⟩, list', hlist', hargs⟩
  · rintro ⟨hname, ⟨list, hlist, haccounts⟩, ⟨list', hlist', hargs⟩⟩
    exact ⟨_, hname, list, hlist, _,
      (items_eq_ok fun e _ _ => Declaration.ofJson_eq_ok_iff (j := e)).2 haccounts, list',
      hlist', _, hargs, rfl⟩

/-- The value at a key is read by `read?`; an absent or null one is left out. -/
inductive OptionalAt {α : Type} (read? : Json → Option α) (j : Json) (key : String) :
    Option α → Prop where
  | absent (h : j.get? key.toList = none) : OptionalAt read? j key none
  | null (h : j.get? key.toList = some .null) : OptionalAt read? j key none
  | present {value : Json} {a : α} (h : j.get? key.toList = some value) (hnull : value ≠ .null)
      (hread : read? value = some a) : OptionalAt read? j key (some a)

/-- A reader of an optional value: it leaves out what is absent or null, and fails on what `read?`
does not read. -/
theorem optionalAt_iff {read? : Json → Option α} {result : Decoded (Option α)}
    (hleft : j.get? key.toList = none ∨ j.get? key.toList = some .null → result = .ok none)
    (hpresent : ∀ value, j.get? key.toList = some value → value ≠ .null →
      ∃ fault, result = ((read? value).map fun a => Except.ok (some a)).getD (.error fault))
    {out : Option α} : result = .ok out ↔ OptionalAt read? j key out := by
  constructor
  · rintro rfl
    cases hget : j.get? key.toList with
    | none =>
      cases hleft (.inl hget)
      exact .absent hget
    | some value =>
      by_cases hnull : value = .null
      · subst hnull
        cases hleft (.inr hget)
        exact .null hget
      · obtain ⟨fault, hresult⟩ := hpresent value hget hnull
        cases hread : read? value with
        | none =>
          rw [hread] at hresult
          cases hresult
        | some a =>
          rw [hread] at hresult
          cases hresult
          exact .present hget hnull hread
  · rintro (hget | hget | ⟨hget, hnull, hread⟩)
    · exact hleft (.inl hget)
    · exact hleft (.inr hget)
    · obtain ⟨fault, hresult⟩ := hpresent _ hget hnull
      rw [hresult, hread]
      rfl

theorem Bound.ofField_eq_ok_iff {bound : Option Bound} :
    Bound.ofField j place = .ok bound ↔ OptionalAt Bound.ofJson? j "max_len" bound := by
  refine optionalAt_iff ?_ fun value hget hnull => ⟨.badBound place, ?_⟩
  · rintro (hget | hget) <;> simp only [Bound.ofField, hget]
  · cases hread : Bound.ofJson? value with
    | none => cases value <;> simp_all [Bound.ofField]
    | some bound => cases value <;> simp_all [Bound.ofField]

theorem ErrorCode.ofEntry_eq_ok_iff {code : Option ErrorCode} :
    ErrorCode.ofEntry j place = .ok code ↔ OptionalAt ErrorCode.ofJson? j "code" code := by
  refine optionalAt_iff ?_ fun value hget hnull => ⟨.badCode place, ?_⟩
  · rintro (hget | hget) <;> simp only [ErrorCode.ofEntry, hget]
  · cases hread : ErrorCode.ofJson? value with
    | none => cases value <;> simp_all [ErrorCode.ofEntry]
    | some code => cases value <;> simp_all [ErrorCode.ofEntry]

/-- The values that a field of a record is read from. -/
structure StateField.ReadFrom (j : Json) (f : StateField) : Prop where
  name : j.get? "name".toList = some (.str f.name)
  ty : j.get? "ty".toList = some (.str f.ty)
  bound : OptionalAt Bound.ofJson? j "max_len" f.bound

theorem StateField.ofJson_eq_ok_iff {f : StateField} :
    StateField.ofJson j place = .ok f ↔ StateField.ReadFrom j f := by
  simp only [StateField.ofJson, bind_eq_ok, pure_eq_ok, requireText_eq_ok, Bound.ofField_eq_ok_iff]
  constructor
  · rintro ⟨bound, hbound, name, hname, ty, hty, rfl⟩
    exact ⟨hname, hty, hbound⟩
  · rintro ⟨hname, hty, hbound⟩
    exact ⟨_, hbound, _, hname, _, hty, rfl⟩

/-- The values that a record is read from. -/
structure StateRecord.ReadFrom (j : Json) (r : StateRecord) : Prop where
  name : j.get? "name".toList = some (.str r.name)
  fields : ReadAt StateField.ReadFrom j "fields" r.fields
  hasInitSpace : r.hasInitSpace = ((j.get? "has_init_space".toList).getD .null).isFilled

theorem StateRecord.ofJson_eq_ok_iff {r : StateRecord} :
    StateRecord.ofJson j index = .ok r ↔ StateRecord.ReadFrom j r := by
  simp only [StateRecord.ofJson, bind_eq_ok, pure_eq_ok, requireText_eq_ok, listOf_eq_ok]
  constructor
  · rintro ⟨name, hname, list, hlist, fields, hfields, rfl⟩
    exact ⟨hname, ⟨list, hlist, (items_eq_ok fun e _ _ => StateField.ofJson_eq_ok_iff (j := e)).1
      hfields⟩, rfl⟩
  · rintro ⟨hname, ⟨list, hlist, hfields⟩, hspace⟩
    exact ⟨_, hname, list, hlist, _,
      (items_eq_ok fun e _ _ => StateField.ofJson_eq_ok_iff (j := e)).2 hfields, by rw [← hspace]⟩

/-- The values that an error is read from. -/
structure ErrorEntry.ReadFrom (j : Json) (e : ErrorEntry) : Prop where
  name : j.get? "name".toList = some (.str e.name)
  msg : e.msg = filledOr j "msg" (.str [])
  code : OptionalAt ErrorCode.ofJson? j "code" e.code

theorem ErrorEntry.ofJson_eq_ok_iff {e : ErrorEntry} :
    ErrorEntry.ofJson j index = .ok e ↔ ErrorEntry.ReadFrom j e := by
  simp only [ErrorEntry.ofJson, bind_eq_ok, pure_eq_ok, requireText_eq_ok,
    ErrorCode.ofEntry_eq_ok_iff]
  constructor
  · rintro ⟨code, hcode, name, hname, rfl⟩
    exact ⟨hname, rfl, hcode⟩
  · rintro ⟨hname, hmsg, hcode⟩
    exact ⟨_, hcode, _, hname, by rw [← hmsg]⟩

variable {checkKey : KeyCheck}

def Program.keyOf? (checkKey : KeyCheck) : Json → Option Text
  | .str id => match checkKey id with
    | .ok () => some id
    | .error _ => none
  | _ => none

theorem Program.idOfJson_eq_ok_iff {id : Option Text} :
    Program.idOfJson checkKey j = .ok id ↔
    OptionalAt (Program.keyOf? checkKey) j "program_id" id := by
  refine optionalAt_iff ?_ fun value hget hnull => ?_
  · rintro (hget | hget) <;> simp only [Program.idOfJson, hget]
  · cases value with
    | null => exact absurd rfl hnull
    | str id =>
      cases hkey : checkKey id with
      | ok _ => exact ⟨.programIdNotText,
          by simp only [Program.idOfJson, hget, Program.keyOf?, hkey]; rfl⟩
      | error reason =>
        exact ⟨.badProgramId id reason,
          by simp only [Program.idOfJson, hget, Program.keyOf?, hkey]; rfl⟩
    | _ => exact ⟨.programIdNotText, by simp only [Program.idOfJson, hget, Program.keyOf?]; rfl⟩

structure Program.ReadFrom (checkKey : KeyCheck) (j : Json) (p : Program) : Prop where
  object : ∃ fields, j = .obj fields
  name : j.get? "name".toList = some (.str p.name)
  programId : OptionalAt (Program.keyOf? checkKey) j "program_id" p.programId
  instructions : ReadAt Instruction.ReadFrom j "instructions" p.instructions
  groups : ReadAt Group.ReadFrom j "account_structs" p.groups
  records : ReadAt StateRecord.ReadFrom j "state_structs" p.records
  errors : ReadAt ErrorEntry.ReadFrom j "errors" p.errors

theorem Program.decode_eq_ok_iff :
    Program.decode checkKey j = .ok p ↔ Program.ReadFrom checkKey j p := by
  by_cases hobject : ∃ fields, j = .obj fields
  · obtain ⟨fields, rfl⟩ := hobject
    simp only [Program.decode, bind_eq_ok, pure_eq_ok, requireText_eq_ok, listOf_eq_ok,
      Program.idOfJson_eq_ok_iff]
    constructor
    · rintro ⟨name, hname, id, hid, list₁, hlist₁, instructions, hinstructions, list₂, hlist₂,
        groups, hgroups, list₃, hlist₃, records, hrecords, list₄, hlist₄, errors, herrors, rfl⟩
      exact ⟨⟨fields, rfl⟩, hname, hid,
        ⟨list₁, hlist₁, (items_eq_ok fun e _ _ => Instruction.ofJson_eq_ok_iff (j := e)).1
          hinstructions⟩,
        ⟨list₂, hlist₂, (items_eq_ok fun e _ _ => Group.ofJson_eq_ok_iff (j := e)).1 hgroups⟩,
        ⟨list₃, hlist₃, (items_eq_ok fun e _ _ => StateRecord.ofJson_eq_ok_iff (j := e)).1
          hrecords⟩,
        ⟨list₄, hlist₄, (items_eq_ok fun e _ _ => ErrorEntry.ofJson_eq_ok_iff (j := e)).1 herrors⟩⟩
    · rintro ⟨-, hname, hid, ⟨list₁, hlist₁, hinstructions⟩, ⟨list₂, hlist₂, hgroups⟩,
        ⟨list₃, hlist₃, hrecords⟩, ⟨list₄, hlist₄, herrors⟩⟩
      exact ⟨_, hname, _, hid,
        list₁, hlist₁, _, (items_eq_ok fun e _ _ => Instruction.ofJson_eq_ok_iff (j := e)).2
          hinstructions,
        list₂, hlist₂, _, (items_eq_ok fun e _ _ => Group.ofJson_eq_ok_iff (j := e)).2 hgroups,
        list₃, hlist₃, _, (items_eq_ok fun e _ _ => StateRecord.ofJson_eq_ok_iff (j := e)).2
          hrecords,
        list₄, hlist₄, _, (items_eq_ok fun e _ _ => ErrorEntry.ofJson_eq_ok_iff (j := e)).2
          herrors, rfl⟩
  · constructor
    · intro h
      cases j with
      | obj fields => exact absurd ⟨fields, rfl⟩ hobject
      | _ => cases h
    · exact fun h => absurd h.object hobject

/-! ## Text where text is declared -/

/-- The constraint has text where it is declared, or null where that is allowed. -/
def Constraint.Typed : Constraint → Prop
  | .init _ _ space => space.IsText
  | .bump source => source.IsTextOrNull
  | .condition _ error | .hasOne _ error => error.IsTextOrNull
  | _ => True

/-- The declaration has text where it is declared. -/
structure Declaration.Typed (d : Declaration) : Prop where
  inner : d.inner.IsTextOrNull
  constraints : ∀ c ∈ d.constraints, c.Typed

/-- The program has text where it is declared. -/
structure Program.Typed (p : Program) : Prop where
  bodies : ∀ ix ∈ p.instructions, ix.body.IsText
  accounts : ∀ g ∈ p.groups, ∀ d ∈ g.accounts, d.Typed
  messages : ∀ e ∈ p.errors, e.msg.IsText

namespace Json

/-- Inside all boxes, what the account type names is a text if it is filled in. -/
inductive GivesInner : Json → Prop where
  | plain {j payload : Json} {tag : Text} (hvariant : j.IsVariant tag payload)
      (hbox : tag ≠ "Box".toList)
      (hinner : payload.TextAt "inner") : GivesInner j
  | box {j payload value : Json} (hvariant : j.IsVariant "Box".toList payload)
      (hinner : payload.get? "inner".toList = some value) (hinside : GivesInner value) :
      GivesInner j

/-- What the constraint takes over unread is a text, null, or not filled in where that is the
same. -/
def GivesConstraint (j : Json) : Prop :=
  ∀ tag payload, j.IsVariant tag payload →
    (tag = "Init".toList ∨ tag = "InitIfNeeded".toList → payload.TextAt "space") ∧
    (tag = "Bump".toList → payload.IsTextOrNull) ∧
    (tag = "Constraint".toList ∨ tag = "HasOne".toList →
      ((payload.get? "error".toList).getD .null).IsTextOrNull)

/-- The model gives text, or nothing, wherever text is taken over unread. -/
structure GivesTexts (j : Json) : Prop where
  bodies : ∀ ix ∈ j.itemsAt "instructions", ix.TextAt "body"
  inner : ∀ g ∈ j.itemsAt "account_structs", ∀ a ∈ g.itemsAt "accounts",
    GivesInner ((a.get? "ty".toList).getD .null)
  constraints : ∀ g ∈ j.itemsAt "account_structs", ∀ a ∈ g.itemsAt "accounts",
    ∀ c ∈ a.itemsAt "constraints",
    GivesConstraint c
  messages : ∀ e ∈ j.itemsAt "errors", e.TextAt "msg"

theorem IsVariant.unique {payload' : Json} {tag' : Text} (h : j.IsVariant tag payload)
    (h' : j.IsVariant tag' payload') : tag = tag' ∧ payload = payload' := by
  cases h <;> cases h' <;> exact ⟨rfl, rfl⟩

theorem givesConstraint_iff {j payload : Json} {tag : Text} (h : j.IsVariant tag payload) :
    GivesConstraint j ↔
      (tag = "Init".toList ∨ tag = "InitIfNeeded".toList → payload.TextAt "space") ∧
      (tag = "Bump".toList → payload.IsTextOrNull) ∧
      (tag = "Constraint".toList ∨ tag = "HasOne".toList →
        ((payload.get? "error".toList).getD .null).IsTextOrNull) := by
  constructor
  · exact fun hgives => hgives tag payload h
  · intro hgives tag' payload' h'
    obtain ⟨rfl, rfl⟩ := h.unique h'
    exact hgives

end Json

theorem AccountType.ReadFrom.inner_iff (h : ReadFrom j ty) :
    ty.inner.IsTextOrNull ↔ j.GivesInner := by
  induction h with
  | @plain j payload tag kind hvariant hkind hbox =>
    have htag : tag ≠ "Box".toList := by
      rintro rfl
      exact hbox (Option.some.inj (hkind.symm.trans (by decide)))
    rw [isTextOrNull_filledOr]
    constructor
    · exact fun hinner => .plain hvariant htag hinner
    · rintro (⟨hvariant', -, hinner⟩ | ⟨hvariant', -, -⟩)
      · obtain ⟨-, rfl⟩ := hvariant.unique hvariant'
        exact hinner
      · exact absurd (hvariant.unique hvariant').1 htag
  | @box j payload value inside hvariant hinner _ ih =>
    rw [ih]
    constructor
    · exact fun hinside => .box hvariant hinner hinside
    · rintro (⟨hvariant', hbox, -⟩ | ⟨hvariant', hinner', hinside⟩)
      · exact absurd (hvariant'.unique hvariant).1 hbox
      · obtain ⟨-, rfl⟩ := hvariant.unique hvariant'
        rw [hinner] at hinner'
        obtain rfl := Option.some.inj hinner'
        exact hinside

theorem Constraint.ReadFrom.typed_iff (h : ReadFrom j c) : c.Typed ↔ j.GivesConstraint := by
  cases h with
  | mutable hvariant => simp [givesConstraint_iff hvariant, Typed]
  | init ifNeeded hvariant hpayer =>
    rw [givesConstraint_iff hvariant]
    cases ifNeeded <;> simp [Typed, isText_filledOr]
  | seeds hvariant => simp [givesConstraint_iff hvariant, Typed]
  | bump hvariant => simp [givesConstraint_iff hvariant, Typed]
  | condition hvariant hexpr => simp [givesConstraint_iff hvariant, Typed]
  | hasOne hvariant hfield => simp [givesConstraint_iff hvariant, Typed]
  | @target payload tag kind hvariant hkind hvalue =>
    have hother : ∀ e ∈ TargetConstraint.variants,
        e.1.toList ∉ ["Init".toList, "InitIfNeeded".toList, "Bump".toList,
      "Constraint".toList, "HasOne".toList] := by decide
    obtain ⟨e, he, rfl, -⟩ := exists_of_named? hkind
    have htag := hother e he
    simp only [mem_cons, not_mem_nil, or_false, not_or] at htag
    simp only [givesConstraint_iff hvariant, Typed, htag, or_self, false_imp_iff, and_self]

theorem ReadAt.forall_iff {From : Json → α → Prop} {out : List α} (h : ReadAt From j key out)
    {P : α → Prop} {Q : Json → Prop} (hiff : ∀ e x, From e x → (P x ↔ Q e)) :
    (∀ x ∈ out, P x) ↔ ∀ e ∈ j.itemsAt key, Q e := by
  obtain ⟨list, hlist, hall⟩ := h
  rw [hlist.itemsAt_eq]
  clear hlist
  induction hall with
  | nil => simp
  | cons hfrom _ ih => rw [forall_mem_cons, forall_mem_cons, hiff _ _ hfrom, ih]

theorem Declaration.ReadFrom.typed_iff (h : Declaration.ReadFrom j d) :
    d.Typed ↔ GivesInner ((j.get? "ty".toList).getD .null) ∧ ∀ c ∈ j.itemsAt "constraints",
    GivesConstraint c := by
  rw [← h.ty.inner_iff, ← h.constraints.forall_iff fun _ _ hc => hc.typed_iff]
  exact ⟨fun htyped => ⟨htyped.inner, htyped.constraints⟩, fun htyped => ⟨htyped.1, htyped.2⟩⟩

theorem Program.ReadFrom.typed_iff (h : Program.ReadFrom checkKey j p) :
    p.Typed ↔ j.GivesTexts := by
  have hbodies := h.instructions.forall_iff (P := fun ix => ix.body.IsText)
    (Q := fun e => e.TextAt "body")
    fun e ix hix => by rw [hix.body, isText_filledOr]
  have hmessages := h.errors.forall_iff (P := fun e => e.msg.IsText) (Q := fun e => e.TextAt "msg")
    fun e entry hentry => by rw [hentry.msg, isText_filledOr]
  have haccounts := h.groups.forall_iff fun e g hg => hg.accounts.forall_iff fun a d hd =>
    hd.typed_iff
  constructor
  · intro htyped
    have hall := haccounts.1 htyped.accounts
    exact ⟨hbodies.1 htyped.bodies, fun g hg a ha => (hall g hg a ha).1,
      fun g hg a ha => (hall g hg a ha).2, hmessages.1 htyped.messages⟩
  · intro hgives
    exact ⟨hbodies.2 hgives.bodies, haccounts.2 fun g hg a ha => ⟨hgives.inner g hg a ha,
      hgives.constraints g hg a ha⟩, hmessages.2 hgives.messages⟩

/-- **What is loaded, and when it is well typed.** For every check of program ids and every value: a
program is loaded from it exactly if the program can be read from it, and a value from which none
can be read is refused. A loaded program has text in all places where it is declared exactly if the
model gives text, or nothing, in the places that are taken over unread. -/
theorem Program.decode_typed_iff (checkKey : KeyCheck) (j : Json) :
    (∀ p, Program.decode checkKey j = .ok p ↔ Program.ReadFrom checkKey j p) ∧
    ((∃ fault, Program.decode checkKey j = .error fault) ↔ ¬ ∃ p, Program.ReadFrom checkKey j p) ∧
    ∀ p, Program.decode checkKey j = .ok p → (p.Typed ↔ j.GivesTexts) := by
  refine ⟨fun p => Program.decode_eq_ok_iff, ?_,
    fun p hp => (Program.decode_eq_ok_iff.1 hp).typed_iff⟩
  simp only [← Program.decode_eq_ok_iff]
  cases Program.decode checkKey j <;> simp

/-- A declared account with a bump. -/
def bumpedAccount (bump : Json) : Json :=
  .object
    [("name", .str "pool".toList),
      ("ty", .object [("Account", .object [("inner", .str "Pool".toList)])]),
     ("constraints", .arr [.object [("Bump", bump)]])]

/-- The model of a program with one instruction, one account with a bump, and one error. -/
def smallModel (body bump msg : Json) : Json :=
  .object
    [("name", .str "p".toList),
     ("instructions",
       .arr [.object [("name", .str "go".toList), ("accounts_struct", .str "Go".toList),
       ("body", body)]]),
     ("account_structs",
       .arr [.object [("name", .str "Go".toList), ("accounts", .arr [bumpedAccount bump])]]),
     ("errors", .arr [.object [("name", .str "Late".toList), ("msg", msg)]])]

/-- The program that is read from it. -/
def smallProgram (body bump msg : Json) : Program where
  name := "p".toList
  programId := none
  instructions := [⟨"go".toList, "Go".toList, [], body⟩]
  groups := [⟨"Go".toList, [⟨"pool".toList, .account, .str "Pool".toList, none, [.bump bump]⟩], []⟩]
  records := []
  errors := [⟨"Late".toList, msg, none⟩]

theorem readFrom_bumpedAccount (bump : Json) : Declaration.ReadFrom (bumpedAccount bump)
      ⟨"pool".toList, .account, .str "Pool".toList, none, [.bump bump]⟩ := by
  have hty : AccountType.ReadFrom (.object [("Account", .object [("inner", .str "Pool".toList)])])
      ⟨.account, .str "Pool".toList, none⟩ :=
    @AccountType.ReadFrom.plain _ _ _ .account (.carrying _ _) (by decide) (by decide)
  have hget : (bumpedAccount bump).get? "ty".toList =
      some (.object [("Account", .object [("inner", .str "Pool".toList)])]) := by
    simp [bumpedAccount, Json.object, Json.get?, lookup_cons]
  refine ⟨?_, by rwa [hget], _, .array ?_, .cons (.bump (.carrying _ _)) .nil⟩ <;>
    simp [bumpedAccount, Json.object, Json.get?, lookup_cons]

theorem decode_smallModel {body bump msg : Json} (hbody : body.isFilled = true)
    (hmsg : msg.isFilled = true) :
    Program.decode checkKey (smallModel body bump msg) = .ok (smallProgram body bump msg) := by
  refine Program.decode_eq_ok_iff.2 ⟨⟨_, rfl⟩, ?_, .absent ?_,
    ⟨[.object [("name", .str "go".toList), ("accounts_struct", .str "Go".toList), ("body", body)]],
      .array ?_, .cons ⟨?_, ?_, ⟨_, .absent ?_, .nil⟩, ?_⟩ .nil⟩,
    ⟨[.object [("name", .str "Go".toList), ("accounts", .arr [bumpedAccount bump])]], .array ?_,
      .cons ⟨?_, ⟨[bumpedAccount bump], .array ?_, .cons (readFrom_bumpedAccount bump) .nil⟩,
        ⟨_, .absent ?_, .nil⟩⟩ .nil⟩,
    ⟨_, .absent ?_, .nil⟩,
    ⟨[.object [("name", .str "Late".toList), ("msg", msg)]], .array ?_,
      .cons ⟨?_, ?_, .absent ?_⟩ .nil⟩⟩ <;>
    simp [smallModel, smallProgram, Json.object, Json.get?, lookup_cons, filledOr, hbody, hmsg]

theorem smallModel_typed :
    Program.decode (fun _ => .ok ()) (smallModel (.str "ok".toList) .null (.str "late".toList)) =
        .ok (smallProgram (.str "ok".toList) .null (.str "late".toList)) ∧
      (smallModel (.str "ok".toList) .null (.str "late".toList)).GivesTexts ∧
      (smallProgram (.str "ok".toList) .null (.str "late".toList)).Typed := by
  have hread := @decode_smallModel (fun _ => .ok ()) (.str "ok".toList) .null
    (.str "late".toList) rfl rfl
  have hgives : (smallModel (.str "ok".toList) .null (.str "late".toList)).GivesTexts := by
    refine ⟨fun ix hix => ?_, fun g hg a ha => ?_, fun g hg a ha c hc => ?_, fun e he => ?_⟩
    · obtain rfl := List.mem_singleton.1 hix
      rintro value hvalue -
      cases hvalue
      exact ⟨_, rfl⟩
    · obtain rfl := List.mem_singleton.1 hg
      obtain rfl := List.mem_singleton.1 ha
      refine .plain (.carrying _ _) (by decide) ?_
      rintro value hvalue -
      cases hvalue
      exact ⟨_, rfl⟩
    · obtain rfl := List.mem_singleton.1 hg
      obtain rfl := List.mem_singleton.1 ha
      obtain rfl := List.mem_singleton.1 hc
      refine (@givesConstraint_iff _ .null "Bump".toList (.carrying _ _)).2 ⟨?_, fun _ => .inl rfl,
        ?_⟩
      · intro h
        exact absurd h (by decide)
      · intro h
        exact absurd h (by decide)
    · obtain rfl := List.mem_singleton.1 he
      rintro value hvalue -
      cases hvalue
      exact ⟨_, rfl⟩
  exact ⟨hread, hgives, ((Program.decode_typed_iff _ _).2.2 _ hread).2 hgives⟩

/-- **Values that are no text pass into the program.** A body that is a number, a bump that is a
truth value and a message that is a list are taken over as they stand. -/
theorem untyped_values_loaded :
    (∀ checkKey, Program.decode checkKey (smallModel (.int 5) (.bool true) (.arr [.null])) =
        .ok (smallProgram (.int 5) (.bool true) (.arr [.null]))) ∧
      ¬ (smallProgram (.int 5) (.bool true) (.arr [.null])).Typed := by
  refine ⟨fun _ => decode_smallModel rfl rfl, fun htyped => ?_⟩
  obtain ⟨t, ht⟩ := htyped.bodies _ List.mem_cons_self
  cases ht

end AnchorLowering
