import AnchorLowering.Lowering.AccountAccess
import AnchorLowering.Lowering.Assertion
import AnchorLowering.Target.Guard

/-!
# Guards of an instruction

The guards come in four phases, each in the order of the accounts: signers, writable accounts,
derived addresses, and the constraints that are lowered to code.
-/

namespace AnchorLowering.Lowering

open Pattern Source

/-! ## Derived addresses -/

/-- The seeds or the bump read the account's own data, which are not verified yet. -/
def readsItself (account : Text) (seeds : List Text) (bump : Option Text) : Bool :=
  let access : Pattern Unit := do
    receiver account
    spaced "."
    let _ ← one isWord
  seeds.any access.occursIn || bump.any access.occursIn

/-- A bump is trusted only if the account exists already and the bump is not its own data. -/
def derivationMode (isInit readsItself : Bool) (bump : Option Text) : DerivationMode :=
  if isInit || readsItself || bump.isNone then .deriveAndCompare else .reconstructFromBump

/-! ## Constraints -/

/-- The error of a condition that names none. -/
def conditionError : Text := "ProgramError::Custom(0)"

def lowerCondition (c : Context) (expr : Text) : Text :=
  dereferenceComparisons (routeFields c (flattenAccess (Text.join " " expr.words)))

/-- The guard for a constraint, if it has one. -/
def constraintGuard? (c : Context) (a : AccountSlot) : Constraint → Option Guard
  | .condition expr error =>
    let code := guardWith (Text.concat ["!(", lowerCondition c expr, ")"])
      (errorValue error.text? conditionError)
    some (.custom code (some a.index) (some a.name))
  | .hasOne field error =>
    let holder := ((c.stateFor? a.name).map StateBinding.handle).getD a.name
    let code := guardWith (Text.concat [holder, ".", field, " != *", field, ".key()"])
      (errorValue error.text? invalidAccountData)
    some (.custom code (some a.index) (some a.name))
  | .target .address value => some (.keyEquals a.index a.name value)
  | _ => none

/-! ## Phases -/

def signerGuard? (d : Declaration) (a : AccountSlot) : Option Guard :=
  if d.effectiveKind = .signer then some (.isSigner a.index a.name) else none

def writableGuard? (d : Declaration) (a : AccountSlot) : Option Guard :=
  if d.isMutable then some (.isWritable a.index a.name) else none

def derivedGuard? (d : Declaration) (a : AccountSlot) : Option Guard :=
  d.seeds?.map fun seeds =>
    let bump := d.bumpSource?
    .derivedAddress a.index a.name seeds bump
      (derivationMode a.isInit (readsItself d.name seeds bump) bump)

def guards (c : Context) (accounts : List (Declaration × AccountSlot)) : List Guard :=
  accounts.filterMap (fun e => signerGuard? e.1 e.2)
    ++ accounts.filterMap (fun e => writableGuard? e.1 e.2)
    ++ accounts.filterMap (fun e => derivedGuard? e.1 e.2)
    ++ accounts.flatMap fun e => e.1.constraints.filterMap (constraintGuard? c e.2)

end AnchorLowering.Lowering
