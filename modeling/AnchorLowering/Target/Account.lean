import AnchorLowering.Model.Program

/-!
# Account slots

An account of a lowered instruction, at its place in the instruction's account list.
-/

namespace AnchorLowering

/-- An account of a lowered instruction. -/
structure AccountSlot where
  name : Text
  index : Nat
  kind : AccountKind
  isSigner : Bool
  isWritable : Bool
  isDerived : Bool
  seeds : List Text
  bump : Option Text
  isInit : Bool
  payer : Option Text
  tokenMint : Option Text
  tokenAuthority : Option Text
  stateType : Option Text
  deriving DecidableEq

def AccountSlot.toJson (a : AccountSlot) : Json :=
  .object
    [("name", .str a.name), ("index", .nat a.index), ("isSigner", .bool a.isSigner),
     ("isWritable", .bool a.isWritable), ("isPda", .bool a.isDerived),
     ("seeds", if a.isDerived then .texts a.seeds else .null), ("isInit", .bool a.isInit),
     ("payer", .ofText? a.payer), ("tokenMint", .ofText? a.tokenMint),
     ("tokenAuthority", .ofText? a.tokenAuthority), ("stateType", .ofText? a.stateType)]

end AnchorLowering
