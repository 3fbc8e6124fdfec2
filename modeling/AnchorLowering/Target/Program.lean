import AnchorLowering.Config
import AnchorLowering.Source.Marker
import AnchorLowering.Target.Discriminator
import AnchorLowering.Target.Guard
import AnchorLowering.Target.Record

/-!
# Target programs

What a program is lowered to: instructions with their accounts, guards and lowered bodies, records
with every field at a fixed place, and errors with their codes.
-/

namespace AnchorLowering

structure TargetError where
  name : Text
  code : ErrorCode
  msg : Json

/-- The code of the first error that has none of its own. -/
def TargetError.codeBase : Nat := 6000

/-- The target errors of a program. An error without a code has one by its place. -/
def TargetError.ofProgram (p : Program) : List TargetError :=
  p.errors.zipIdx.map fun e =>
    ⟨e.1.name, e.1.code.getD (.number (codeBase + e.2 : Nat)), e.1.msg⟩

structure TargetInstruction where
  name : Text
  discriminator : Buffer
  accounts : List AccountSlot
  args : List Argument
  guards : List Guard
  body : Text
  issues : List Source.Issue
  failed : Bool

/-- The first account of the name. -/
def TargetInstruction.account? (ix : TargetInstruction) (name : Text) : Option AccountSlot :=
  ix.accounts.find? (·.name == name)

structure TargetProgram where
  name : Text
  programId : Option Text
  config : Config
  instructions : List TargetInstruction
  records : List TargetRecord
  errors : List TargetError

namespace TargetProgram

/-- The first instruction of the name. -/
def instruction? (p : TargetProgram) (name : Text) : Option TargetInstruction :=
  p.instructions.find? (·.name == name)

def record? (p : TargetProgram) (name : Text) : Option TargetRecord :=
  p.records.find? (·.name == name)

/-- What is left unresolved, each with its instruction. -/
def issues (p : TargetProgram) : List (Text × Source.Issue) :=
  p.instructions.flatMap fun ix => ix.issues.map fun issue => (ix.name, issue)

end TargetProgram

/-! ## As JSON -/

/-- The instruction as a JSON value. -/
def TargetInstruction.toJson (ix : TargetInstruction) : Json :=
  .object
    [("name", .str ix.name),
     ("discriminator", .arr (ix.discriminator.map fun b => .nat b.toNat)),
     ("accounts", .arr (ix.accounts.map AccountSlot.toJson)),
     ("args", .arr (ix.args.map fun a => .object [("name", .str a.name), ("type", .str a.ty)])),
     ("validations", .arr (ix.guards.map Guard.toJson)),
     ("body", .str ix.body),
     ("issues", .arr (ix.issues.map fun i =>
       .object [("pass", .str i.step), ("fragment", .str i.fragment)])),
     ("failed", .bool ix.failed)]

def TargetError.toJson (e : TargetError) : Json :=
  .object [("code", e.code.toJson), ("name", .str e.name), ("msg", e.msg)]

def TargetProgram.toJson (p : TargetProgram) : Json :=
  .object
    [("name", .str p.name), ("address", .ofText? p.programId), ("config", p.config.toJson),
     ("instructions", .arr (p.instructions.map TargetInstruction.toJson)),
     ("accounts", .arr (p.records.map TargetRecord.toJson)),
     ("errors", .arr (p.errors.map TargetError.toJson))]

/-! ## Summary -/

def TargetInstruction.summary (ix : TargetInstruction) : Text :=
  let status := if ix.failed then "FAILED".toList
    else Text.concat [Text.ofNat ix.issues.length, " unresolved"]
  Text.concat ["  ", ix.name, " [", Discriminator.hex ix.discriminator, "] ",
    Text.ofNat ix.accounts.length, " accounts, ", Text.ofNat ix.guards.length, " checks, ", status]

def TargetProgram.summary (p : TargetProgram) : Text :=
  let rule := List.replicate 60 '='
  let id : Text :=
    match p.programId with
    | none | some [] => "(none)"
    | some id => id
  Text.join "\n" <|
    [rule, Text.concat ["TRANSPILED PROGRAM: ", p.name], rule, Text.concat ["Program ID: ", id],
     Text.concat ["Instructions: ", Text.ofNat p.instructions.length],
     Text.concat ["Records: ", Text.ofNat p.records.length],
     Text.concat ["Errors: ", Text.ofNat p.errors.length], []]
    ++ p.instructions.map TargetInstruction.summary
    ++ p.records.map (fun r => Text.concat ["  ", r.name, ": ", Text.ofNat r.size, " bytes"])
    ++ [rule]

end AnchorLowering
