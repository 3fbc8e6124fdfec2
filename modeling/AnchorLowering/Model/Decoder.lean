import AnchorLowering.Json.Display
import AnchorLowering.Model.Program

/-!
# Programs from JSON

A program model is a JSON object. Its parts are read in a fixed order and the first fault found is
reported with the place where it lies. A variant is a name, or an object with one entry whose key
is the name.

A part that is missing, null, false, zero or empty is taken as left out where that is allowed.

What a key is is not decided here: reading takes a check of program ids (`KeyCheck`).
-/

namespace AnchorLowering

inductive ModelError where
  | notAnObject
  | missing (place key : Text)
  | notText (place key : Text) (value : Json)
  | notAList (place key : Text)
  | notAVariant (place : Text) (value : Json)
  | programIdNotText
  | badProgramId (id : Text) (reason : Text)
  | unknownAccountType (place tag : Text)
  | seedsNotAList (place : Text)
  | valueRequired (place tag : Text)
  | unknownConstraint (place tag : Text)
  | badBound (place : Text)
  | badCode (place : Text)

def Json.kindName : Json → Text
  | .null => "NoneType"
  | .bool _ => "bool"
  | .int _ => "int"
  | .decimal _ => "float"
  | .str _ => "str"
  | .arr _ => "list"
  | .obj _ => "dict"

def ModelError.message : ModelError → Text
  | notAnObject => "Program model must be a JSON object"
  | missing place key => place ++ ": missing '".toList ++ key ++ "'".toList
  | notText place key value =>
    place ++ ": '".toList ++ key ++ "' must be str, got ".toList ++ value.kindName
  | notAList place key => place ++ ": '".toList ++ key ++ "' must be a list".toList
  | notAVariant place value =>
    place ++ ": expected an enum variant, got ".toList ++ value.notate
  | programIdNotText => "program_id must be a string"
  | badProgramId id reason =>
    "Invalid program id '".toList ++ id ++ "': ".toList ++ reason
  | unknownAccountType place tag =>
    place ++ ": unknown account type '".toList ++ tag ++ "'".toList
  | seedsNotAList place => place ++ ": Seeds must be a list".toList
  | valueRequired place tag => place ++ ": ".toList ++ tag ++ " requires a value".toList
  | unknownConstraint place tag =>
    place ++ ": unknown constraint '".toList ++ tag ++ "'".toList
  | badBound place => place ++ ": max_len must be a non-negative integer".toList
  | badCode place => place ++ ": code must be an integer".toList

namespace Decode

/-- The outcome of reading a part of a model. -/
abbrev Decoded (α : Type) := Except ModelError α

/-- A check of program ids. A text that is no key is refused with a reason. -/
abbrev KeyCheck := Text → Except Text Unit

/-! ## Parts of objects -/

/-- The place of an item of a list. -/
def item (place : Text) (index : Nat) : Text :=
  place ++ "[".toList ++ Text.ofNat index ++ "]".toList

/-- The value of a key that has to be there. -/
def requireKey (j : Json) (key : String) (place : Text) : Decoded Json :=
  match j.get? key.toList with
  | some value => .ok value
  | none => .error (.missing place key.toList)

/-- The text of a key that has to be there. -/
def requireText (j : Json) (key : String) (place : Text) : Decoded Text := do
  match ← requireKey j key place with
  | .str t => .ok t
  | value => .error (.notText place key.toList value)

/-- The list of a key; a key that is absent or null has the empty one. -/
def listOf (j : Json) (key : String) (place : Text) : Decoded (List Json) :=
  match j.get? key.toList with
  | none | some .null => .ok []
  | some (.arr items) => .ok items
  | some _ => .error (.notAList place key.toList)

/-- The value of a key if it is filled in, else the default. -/
def filledOr (j : Json) (key : String) (default : Json) : Json :=
  match j.get? key.toList with
  | some value => if value.isFilled then value else default
  | none => default

/-- Reads the items of a list, each with its index. -/
def items {α : Type} (read : Json → Nat → Decoded α) (list : List Json) : Decoded (List α) :=
  list.zipIdx.mapM fun e => read e.1 e.2

/-- The name of a variant and what it carries. -/
def variant (j : Json) (place : Text) : Decoded (Text × Json) :=
  match j with
  | .str tag => .ok (tag, .null)
  | .obj [(tag, payload)] => .ok (tag, payload)
  | _ => .error (.notAVariant place j)

/-- The value of a name in a table. -/
def named? {α : Type} (table : List (String × α)) (name : Text) : Option α :=
  (table.find? fun e => e.1.toList == name).map (·.2)

end Decode

open Decode

/-! ## Accounts -/

/-- The account types by the names of their variants. -/
def AccountKind.variants : List (String × AccountKind) :=
  [("Account", .account), ("Signer", .signer), ("SystemAccount", .systemAccount),
   ("UncheckedAccount", .unchecked), ("Program", .program), ("Sysvar", .sysvar),
   ("TokenAccount", .tokenAccount), ("Mint", .mint), ("Box", .wrapped)]

/-- The single-value constraints by the names of their variants. -/
def TargetConstraint.variants : List (String × TargetConstraint) :=
  [("TokenMint", .tokenMint), ("TokenAuthority", .tokenAuthority),
   ("MintDecimals", .mintDecimals), ("MintAuthority", .mintAuthority), ("Address", .address),
   ("Close", .close)]

/-- An account type: its kind, the record or program in it, and the kind inside a box. -/
structure AccountType where
  kind : AccountKind
  inner : Json
  wrapped : Option AccountKind

theorem Json.sizeOf_lookup_lt {key : Text} {value : Json} {fields : List (Text × Json)}
    (h : fields.lookup key = some value) : sizeOf value < sizeOf fields := by
  induction fields with
  | nil => simp at h
  | cons f rest ih =>
    obtain ⟨k, v⟩ := f
    rw [List.lookup_cons] at h
    split at h
    · simp only [Option.some.injEq] at h
      subst h
      simp only [List.cons.sizeOf_spec, Prod.mk.sizeOf_spec]
      omega
    · have := ih h
      simp only [List.cons.sizeOf_spec]
      omega

theorem Json.sizeOf_get_lt {j value : Json} {key : Text} (h : j.get? key = some value) :
    sizeOf value < sizeOf j := by
  cases j with
  | obj fields =>
    have := sizeOf_lookup_lt h
    simp only [Json.obj.sizeOf_spec]
    omega
  | _ => simp [Json.get?] at h

theorem Decode.sizeOf_variant_le {j payload : Json} {place tag : Text}
    (h : variant j place = .ok (tag, payload)) : sizeOf payload ≤ sizeOf j := by
  unfold variant at h
  split at h
  · simp only [Except.ok.injEq, Prod.mk.injEq] at h
    obtain ⟨-, rfl⟩ := h
    simp
  · simp only [Except.ok.injEq, Prod.mk.injEq] at h
    obtain ⟨rfl, rfl⟩ := h
    simp only [Json.obj.sizeOf_spec, List.cons.sizeOf_spec, Prod.mk.sizeOf_spec]
    omega
  · simp at h

/-- Reads an account type. A box has to say what is inside it. -/
def AccountType.ofJson (j : Json) (place : Text) : Decoded AccountType :=
  match h : variant j place with
  | .error e => .error e
  | .ok (tag, payload) =>
    match named? AccountKind.variants tag with
    | none => .error (.unknownAccountType place tag)
    | some .wrapped =>
      match h' : payload.get? "inner".toList with
      | none => .error (.missing place "inner")
      | some value =>
        have : sizeOf value < sizeOf j :=
          Nat.lt_of_lt_of_le (Json.sizeOf_get_lt h') (sizeOf_variant_le h)
        match AccountType.ofJson value (place ++ ".inner".toList) with
        | .error e => .error e
        | .ok inside => .ok ⟨.wrapped, inside.inner, some inside.kind⟩
    | some kind => .ok ⟨kind, filledOr payload "inner" .null, none⟩
termination_by sizeOf j

def Constraint.ofJson (j : Json) (place : Text) : Decoded Constraint := do
  let (tag, payload) ← variant j place
  if tag == "Mut".toList then return .mutable
  if tag == "Init".toList || tag == "InitIfNeeded".toList then
    let payer ← requireText payload "payer" place
    return .init (tag == "InitIfNeeded".toList) payer (filledOr payload "space" (.str []))
  if tag == "Seeds".toList then
    match payload with
    | .arr parts => return .seeds (parts.map Json.display)
    | _ => throw (.seedsNotAList place)
  if tag == "Bump".toList then return .bump payload
  if tag == "Constraint".toList then
    let expr ← requireText payload "expr" place
    return .condition expr ((payload.get? "error".toList).getD .null)
  if tag == "HasOne".toList then
    let field ← requireText payload "field" place
    return .hasOne field ((payload.get? "error".toList).getD .null)
  match named? TargetConstraint.variants tag with
  | none => throw (.unknownConstraint place tag)
  | some kind =>
    match payload with
    | .null => throw (.valueRequired place tag)
    | _ => return .target kind payload.display

def Declaration.ofJson (j : Json) (place : Text) : Decoded Declaration := do
  let name ← requireText j "name" place
  let ty ← AccountType.ofJson ((j.get? "ty".toList).getD .null) (place ++ ".ty".toList)
  let constraints ← items (fun c i => Constraint.ofJson c (item (place ++ ".constraints".toList) i))
    (← listOf j "constraints" place)
  return ⟨name, ty.kind, ty.inner, ty.wrapped, constraints⟩

/-! ## The parts of a program -/

def Argument.listOfJson (list : List Json) (place : Text) : Decoded (List Argument) :=
  items (fun a i => do
    let here := item (place ++ ".args".toList) i
    let name ← requireText a "name" here
    let ty ← requireText a "ty" here
    return ⟨name, ty⟩) list

def Instruction.ofJson (j : Json) (index : Nat) : Decoded Instruction := do
  let place := item "instructions" index
  let name ← requireText j "name" place
  let group ← requireText j "accounts_struct" place
  let args ← Argument.listOfJson (← listOf j "args" place) place
  return ⟨name, group, args, filledOr j "body" (.str [])⟩

def Group.ofJson (j : Json) (index : Nat) : Decoded Group := do
  let place := item "account_structs" index
  let name ← requireText j "name" place
  let accounts ← items (fun a i => Declaration.ofJson a (item (name ++ ".accounts".toList) i))
    (← listOf j "accounts" place)
  let args ← Argument.listOfJson (← listOf j "instruction_args" place) place
  return ⟨name, accounts, args⟩

def Bound.ofField (j : Json) (place : Text) : Decoded (Option Bound) :=
  match j.get? "max_len".toList with
  | none | some .null => .ok none
  | some value =>
    match Bound.ofJson? value with
    | some bound => .ok (some bound)
    | none => .error (.badBound place)

def StateField.ofJson (j : Json) (place : Text) : Decoded StateField := do
  let bound ← Bound.ofField j place
  let name ← requireText j "name" place
  let ty ← requireText j "ty" place
  return ⟨name, ty, bound⟩

def StateRecord.ofJson (j : Json) (index : Nat) : Decoded StateRecord := do
  let place := item "state_structs" index
  let name ← requireText j "name" place
  let fields ← items (fun f i => StateField.ofJson f (item (name ++ ".fields".toList) i))
    (← listOf j "fields" place)
  return ⟨name, fields, ((j.get? "has_init_space".toList).getD .null).isFilled⟩

def ErrorCode.ofEntry (j : Json) (place : Text) : Decoded (Option ErrorCode) :=
  match j.get? "code".toList with
  | none | some .null => .ok none
  | some value =>
    match ErrorCode.ofJson? value with
    | some code => .ok (some code)
    | none => .error (.badCode place)

def ErrorEntry.ofJson (j : Json) (index : Nat) : Decoded ErrorEntry := do
  let place := item "errors" index
  let code ← ErrorCode.ofEntry j place
  let name ← requireText j "name" place
  return ⟨name, filledOr j "msg" (.str []), code⟩

def Program.idOfJson (checkKey : KeyCheck) (j : Json) : Decoded (Option Text) :=
  match j.get? "program_id".toList with
  | none | some .null => .ok none
  | some (.str id) =>
    match checkKey id with
    | .ok () => .ok (some id)
    | .error reason => .error (.badProgramId id reason)
  | some _ => .error .programIdNotText

def Program.decode (checkKey : KeyCheck) (j : Json) : Decoded Program := do
  let .obj _ := j | throw .notAnObject
  let name ← requireText j "name" "program"
  let id ← Program.idOfJson checkKey j
  let instructions ← items Instruction.ofJson (← listOf j "instructions" "program")
  let groups ← items Group.ofJson (← listOf j "account_structs" "program")
  let records ← items StateRecord.ofJson (← listOf j "state_structs" "program")
  let errors ← items ErrorEntry.ofJson (← listOf j "errors" "program")
  return ⟨name, id, instructions, groups, records, errors⟩

end AnchorLowering
