import AnchorLowering.Model.Decoder
import AnchorLowering.Proofs.AccountGuards

/-!
# Accounts inside boxes

An account type may stand inside any number of boxes. Reading it goes through all of them, so the
record or program inside the innermost type is always found. Of the kinds only two are kept: that of
the outermost type and that of the one right inside it. The kind of an account is therefore seen
through one box and through no more (`ofJson_boxed`): the innermost kind is known if and only if
there is at most one box.

Main result: `Declaration.seen_through_boxes_iff`.
-/

namespace AnchorLowering

open Decode

variable {kind : AccountKind} {d : Declaration} {inner j : Json}

namespace AccountType

/-! ## Reading boxes -/

/-- An account type inside `n` boxes. -/
def boxed : Nat → Json → Json
  | 0, j => j
  | n + 1, j => .obj [("Box".toList, .obj [("inner".toList, boxed n j)])]

/-- An account type that is no box, with its kind and the record or program inside it: the name of a
variant, alone or with what it carries. -/
inductive Unboxed : Json → AccountKind → Json → Prop where
  | name {tag : String} {kind : AccountKind} (hvariant : (tag, kind) ∈ AccountKind.variants)
    (hbox : kind ≠ .wrapped) : Unboxed (.str tag.toList) kind .null
  | carrying {tag : String} {kind : AccountKind} (hvariant : (tag, kind) ∈ AccountKind.variants)
    (hbox : kind ≠ .wrapped) (payload : Json) :
    Unboxed (.obj [(tag.toList, payload)]) kind (filledOr payload "inner" .null)

theorem named?_of_mem_variants {tag : String} (h : (tag, kind) ∈ AccountKind.variants) :
    named? AccountKind.variants tag.toList = some kind := by
  have hall : ∀ e ∈ AccountKind.variants, named? AccountKind.variants e.1.toList = some e.2 := by
    decide
  exact hall _ h

theorem ofJson_of_variant {j payload : Json} {place tag : Text} {kind : AccountKind}
    (hvariant : variant j place = .ok (tag, payload)) (hkind : named? AccountKind.variants tag =
      some kind)
    (hbox : kind ≠ .wrapped) :
    ofJson j place = .ok ⟨kind, filledOr payload "inner" .null, none⟩ := by
  rw [ofJson]
  split
  · simp_all
  · rename_i tag' payload' hread
    rw [hvariant] at hread
    obtain ⟨rfl, rfl⟩ := Prod.mk.inj (Except.ok.inj hread)
    rw [hkind]
    cases kind with
    | wrapped => exact absurd rfl hbox
    | _ => rfl

theorem Unboxed.kind_ne (h : Unboxed j kind inner) : kind ≠ .wrapped := by
  cases h with
  | name _ hbox => exact hbox
  | carrying _ hbox => exact hbox

theorem Unboxed.ofJson_eq (h : Unboxed j kind inner) (place : Text) :
    ofJson j place = .ok ⟨kind, inner, none⟩ := by
  cases h with
  | @name tag _ hvariant hbox =>
    exact @ofJson_of_variant (.str tag.toList) .null _ _ _ rfl
      (named?_of_mem_variants hvariant) hbox
  | carrying hvariant hbox payload =>
    exact ofJson_of_variant rfl (named?_of_mem_variants hvariant) hbox

theorem ofJson_of_box {j payload value : Json} {place : Text} {inside : AccountType}
    (hvariant : variant j place = .ok ("Box".toList, payload))
    (hget : payload.get? "inner".toList = some value)
    (h : ofJson value (place ++ ".inner".toList) = .ok inside) :
    ofJson j place = .ok ⟨.wrapped, inside.inner, some inside.kind⟩ := by
  have hkind : named? AccountKind.variants "Box".toList = some .wrapped := by decide
  rw [ofJson]
  split
  · simp_all
  · rename_i tag payload hread
    rw [hvariant] at hread
    obtain ⟨rfl, rfl⟩ := Prod.mk.inj (Except.ok.inj hread)
    rw [hkind]
    dsimp only
    split
    · simp_all
    · rename_i value' hvalue
      rw [hget] at hvalue
      obtain rfl := Option.some.inj hvalue
      rw [h]

/-- The outermost kind of a type inside `n` boxes. -/
def outerKind : Nat → AccountKind → AccountKind
  | 0, kind => kind
  | _ + 1, _ => .wrapped

/-- The kind right inside the outermost of `n` boxes. -/
def nextKind : Nat → AccountKind → Option AccountKind
  | 0, _ => none
  | n + 1, kind => some (outerKind n kind)

theorem ofJson_boxed (h : Unboxed j kind inner) (n : Nat) (place : Text) :
    ofJson (boxed n j) place = .ok ⟨outerKind n kind, inner, nextKind n kind⟩ := by
  induction n generalizing place with
  | zero => exact h.ofJson_eq place
  | succ n ih => exact @ofJson_of_box _ (.obj [("inner".toList, boxed n j)]) _ _ _ rfl rfl (ih _)

end AccountType

/-! ## Reading declarations -/

namespace Declaration

open AccountType

/-- The constraints of a declaration, as they are read. -/
def constraintsOf (j : Json) (place : Text) : Decoded (List Constraint) := do
  items (fun c i => Constraint.ofJson c (item (place ++ ".constraints".toList) i))
    (← listOf j "constraints" place)

theorem ofJson_of_type {ty : Json} {place : Text} {read : AccountType}
    (hty : j.get? "ty".toList = some ty)
    (hread : AccountType.ofJson ty (place ++ ".ty".toList) = .ok read) (d : Declaration) :
    Declaration.ofJson j place = .ok d ↔ ∃ name constraints, requireText j "name" place = .ok name ∧
      constraintsOf j place = .ok constraints ∧ d = ⟨name, read.kind, read.inner, read.wrapped,
        constraints⟩ := by
  have hunfold : Declaration.ofJson j place = (do
      let name ← requireText j "name" place
      let constraints ← constraintsOf j place
      return ⟨name, read.kind, read.inner, read.wrapped, constraints⟩) := by
    simp only [Declaration.ofJson, constraintsOf, hty, Option.getD_some, hread, bind_assoc]
    rfl
  rw [hunfold]
  cases hname : requireText j "name" place with
  | error e => simp [bind, Except.bind]
  | ok name =>
    cases hconstraints : constraintsOf j place with
    | error e => simp [bind, Except.bind]
    | ok constraints =>
      simp only [bind, Except.bind, pure, Except.pure, Except.ok.injEq]
      constructor
      · rintro rfl
        exact ⟨name, constraints, rfl, rfl, rfl⟩
      · rintro ⟨_, _, rfl, rfl, rfl⟩
        rfl

theorem effectiveKind_eq_iff {n : Nat} (hbox : kind ≠ .wrapped) (hkind : d.kind = outerKind n kind)
    (hwrapped : d.wrapped = nextKind n kind) :
    d.effectiveKind = kind ↔ n ≤ 1 := by
  rw [effectiveKind, hkind, hwrapped]
  match n with
  | 0 => simp [outerKind, hbox]
  | 1 => simp [outerKind, nextKind]
  | n + 2 => simpa [outerKind, nextKind] using hbox.symm

end Declaration

/-! ## Guards and records -/

namespace Lowering

open AccountType

theorem filter_signer_guards (c : Context) (layouts : Table RecordLayout) (facts : Facts)
    (group : Text) {ds : List Declaration} {i : Nat} (hd : ds[i]? = some d) :
    ((guards c (ds.zip (ds.zipIdx.map fun e => .ofDeclaration layouts facts group e.1 e.2))).filter
      (·.index? == some i)).filter (·.phase = 0) =
        if d.effectiveKind = .signer then [.isSigner i d.name] else [] := by
  have hfilter := @filter_guards c (.ofDeclaration layouts facts group) (fun _ _ => ⟨rfl, rfl⟩) ds
    i d hd 0
  rw [hfilter, guardsIn, signerGuard?]
  split <;> rfl

end Lowering

namespace Declaration

open AccountType Lowering

/-- **Boxes are transparent up to the first one.** A declaration whose type stands in `n` boxes is
read whenever its name and its constraints are, and the record or program inside it is that of the
innermost type. The kind of the innermost type is known if and only if `n` is at most one; so is the
guard of a signer among the guards of its instruction, and so is the record of an account that the
program has. -/
theorem seen_through_boxes_iff {t inner : Json} {kind : AccountKind} (ht : Unboxed t kind inner)
    (n : Nat) {j : Json} (hty : j.get? "ty".toList = some (boxed n t)) (place : Text) :
    ((∃ d, Declaration.ofJson j place = .ok d) ↔
      (∃ name, requireText j "name" place = .ok name) ∧ ∃ constraints, constraintsOf j place =
      .ok constraints) ∧
    ∀ d, Declaration.ofJson j place = .ok d →
      d.inner = inner ∧ (d.effectiveKind = kind ↔ n ≤ 1) ∧
      (kind = .signer → ∀ (c : Context) (layouts : Table RecordLayout) (facts : Facts)
        (group : Text)
        (ds : List Declaration) (i : Nat), ds[i]? = some d →
        ((guards c (ds.zip (ds.zipIdx.map fun e => .ofDeclaration layouts facts group e.1
          e.2))).filter
          (·.index? == some i)).filter (·.phase = 0) = if n ≤ 1 then [.isSigner i d.name] else []) ∧
      (kind = .account → ∀ (record : Text) (layouts : Table RecordLayout) (facts : Facts)
        (group : Text) (i : Nat),
        inner = .str record → record ≠ [] → (layouts.get? record).isSome = true →
        (AccountSlot.ofDeclaration layouts facts group d i).stateType = if n ≤
        1 then some record else none) := by
  have hread := ofJson_boxed ht n (place ++ ".ty".toList)
  have hiff := ofJson_of_type hty hread
  refine ⟨⟨?_, ?_⟩, fun d hd => ?_⟩
  · rintro ⟨d, hd⟩
    obtain ⟨name, constraints, hname, hconstraints, -⟩ := (hiff d).1 hd
    exact ⟨⟨name, hname⟩, constraints, hconstraints⟩
  · rintro ⟨⟨name, hname⟩, constraints, hconstraints⟩
    exact ⟨_, (hiff _).2 ⟨name, constraints, hname, hconstraints, rfl⟩⟩
  · obtain ⟨name, constraints, -, -, rfl⟩ := (hiff d).1 hd
    have hkind := effectiveKind_eq_iff (d := ⟨name, outerKind n kind, inner, nextKind n kind,
      constraints⟩)
      ht.kind_ne rfl rfl
    refine ⟨rfl, hkind, ?_, ?_⟩
    · rintro rfl c layouts facts group ds i hi
      rw [filter_signer_guards c layouts facts group hi]
      simp only [hkind]
    · rintro rfl record layouts facts group i rfl hne hsome
      obtain ⟨x, record, rfl⟩ := List.exists_cons_of_ne_nil hne
      simp only [AccountSlot.ofDeclaration, stateType?, hkind, hsome, and_true]

/-- A declaration of a signer inside boxes. -/
def boxedSigner (n : Nat) : Json :=
  .obj [("name".toList, .str "payer".toList), ("ty".toList, boxed n (.str "Signer".toList))]

theorem unboxed_signer : Unboxed (.str "Signer".toList) .signer .null :=
  .name (by decide) (by decide)

theorem seen_through_boxes_once :
    (boxedSigner 1).get? "ty".toList = some (boxed 1 (.str "Signer".toList)) ∧
    ∃ d, Declaration.ofJson (boxedSigner 1) "payer".toList = .ok d ∧ d.effectiveKind = .signer ∧
      ((guards (.build [] [] [] [] .standard)
        ([d].zip ([d].zipIdx.map fun e => .ofDeclaration [] ⟨[], [], []⟩ [] e.1 e.2))).filter
          (·.index? == some 0)).filter (·.phase = 0) = [.isSigner 0 d.name] := by
  have hty : (boxedSigner 1).get? "ty".toList = some (boxed 1 (.str "Signer".toList)) := rfl
  obtain ⟨hread, hseen⟩ := seen_through_boxes_iff unboxed_signer 1 hty "payer".toList
  obtain ⟨d, hd⟩ := hread.2 ⟨⟨_, rfl⟩, _, rfl⟩
  obtain ⟨-, hkind, hguards, -⟩ := hseen d hd
  exact ⟨hty, d, hd, hkind.2 (Nat.le_refl 1), hguards rfl _ [] ⟨[], [], []⟩ [] [d] 0 rfl⟩

/-- **A signer in two boxes loses its guard.** It is read as a box around a box, and nothing checks
that it signs. -/
theorem signer_lost_in_two_boxes :
    ∃ d, Declaration.ofJson (boxedSigner 2) "payer".toList = .ok d ∧ d.effectiveKind = .wrapped ∧
      guards (.build [] [] [] [] .standard)
        ([d].zip ([d].zipIdx.map fun e => .ofDeclaration [] ⟨[], [], []⟩ [] e.1 e.2)) = [] := by
  have hty : (boxedSigner 2).get? "ty".toList = some (boxed 2 (.str "Signer".toList)) := rfl
  have hread := ofJson_boxed unboxed_signer 2 ("payer".toList ++ ".ty".toList)
  have hd := (ofJson_of_type hty hread ⟨"payer".toList, .wrapped, .null, some .wrapped, []⟩).2
    ⟨_, [], rfl, rfl, rfl⟩
  exact ⟨_, hd, rfl, rfl⟩

end Declaration

end AnchorLowering
