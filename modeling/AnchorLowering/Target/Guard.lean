import AnchorLowering.Target.Account

/-!
# Guards

The checks that run before a lowered body, in place of the checks that the account declarations
imply.
-/

namespace AnchorLowering

/-- How the check of a derived address finds the expected address. -/
inductive DerivationMode where
  | deriveAndCompare
  | reconstructFromBump
  deriving DecidableEq

namespace DerivationMode

def name : DerivationMode → Text
  | deriveAndCompare => "derive_and_compare"
  | reconstructFromBump => "reconstruct_from_bump"

def ofName? (t : Text) : Option DerivationMode :=
  [deriveAndCompare, reconstructFromBump].find? (·.name == t)

end DerivationMode

/-- A check on an account, which is given by its index and its name. -/
inductive Guard where
  | isSigner (index : Nat) (account : Text)
  | isWritable (index : Nat) (account : Text)
  | derivedAddress (index : Nat) (account : Text) (seeds : List Text) (bump : Option Text)
      (mode : DerivationMode)
  | ownerIs (index : Nat) (account owner : Text)
  | keyEquals (index : Nat) (account expected : Text)
  | custom (code : Text) (index : Option Nat) (account : Option Text)
  deriving DecidableEq

namespace Guard

/-- The name of the kind of check. -/
def kind : Guard → Text
  | isSigner .. => "is_signer"
  | isWritable .. => "is_writable"
  | derivedAddress .. => "pda_check"
  | ownerIs .. => "owner_check"
  | keyEquals .. => "key_equals"
  | custom .. => "custom"

def index? : Guard → Option Nat
  | isSigner i _ | isWritable i _ | derivedAddress i _ _ _ _ | ownerIs i _ _ | keyEquals i _ _ =>
    some i
  | custom _ i _ => i

def describe (g : Guard) : Text :=
  let subject : Text :=
    match g with
    | isSigner _ account | isWritable _ account => account
    | derivedAddress _ account _ _ mode => Text.concat [account, ", ", mode.name]
    | ownerIs _ account owner => Text.concat [account, " == ", owner]
    | keyEquals _ account expected => Text.concat [account, " == ", expected]
    | custom code _ _ => Text.join " " code.words
  Text.concat [g.kind, "(", subject, ")"]

def toJson (g : Guard) : Json :=
  let index := g.index?.toList.map fun i => ("account_index", Json.nat i)
  let details :=
    match g with
    | isSigner .. | isWritable .. => []
    | derivedAddress _ _ seeds bump mode =>
      [("seeds", Json.texts seeds), ("bump", .ofText? bump), ("mode", .str mode.name)]
    | ownerIs _ _ owner => [("owner", .str owner)]
    | keyEquals _ _ expected => [("expected", .str expected)]
    | custom code _ _ => [("code", .str code)]
  .object (("kind", .str g.kind) :: index ++ details)

end Guard

end AnchorLowering
