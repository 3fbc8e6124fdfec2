import AnchorLowering.Encoding.Sha256
import AnchorLowering.Lowering.Guards
import AnchorLowering.Lowering.Pipeline
import AnchorLowering.Model.Naming
import AnchorLowering.Target.Program

/-!
# Lowering a program

A program whose names are in order is lowered instruction by instruction. An instruction whose body
cannot be lowered becomes a marker, and the others are not affected. Two instructions with one
discriminator stop the run.

A `Lowerer` takes the lowering of bodies and the hash of names as parameters; `Lowerer.standard` has
those of this library.
-/

namespace AnchorLowering

/-! ## Parts of a program -/

/-- The layouts of a program's records by name. Of a repeated name the last one counts. -/
def Program.layouts (p : Program) : Table RecordLayout :=
  .ofEntries (p.records.map fun r => (r.name, RecordLayout.ofRecord r))

def Program.targetRecords (p : Program) : List TargetRecord :=
  p.records.map fun r => .ofLayout ((p.layouts.get? r.name).getD (.ofRecord r))

/-- The record that a declared account holds, if the program has it. -/
def Declaration.stateType? (d : Declaration) (layouts : Table RecordLayout) : Option Text :=
  match d.inner with
  | .str (c :: rest) =>
    if d.effectiveKind = .account ∧ (layouts.get? (c :: rest)).isSome then some (c :: rest)
    else none
  | _ => none

def AccountSlot.ofDeclaration (layouts : Table RecordLayout) (facts : Facts) (group : Text)
    (d : Declaration) (index : Nat) : AccountSlot :=
  let derived := facts.derivedFor? d.name (some group)
  { name := d.name
    index
    kind := d.effectiveKind
    isSigner := d.effectiveKind = .signer
    isWritable := d.isMutable || d.payer?.isSome
    isDerived := derived.isSome
    seeds := (derived.map (·.seeds)).getD []
    bump := derived.bind (·.bumpSource)
    isInit := d.payer?.isSome
    payer := d.payer?
    tokenMint := d.target? .tokenMint
    tokenAuthority := d.target? .tokenAuthority
    stateType := d.stateType? layouts }

/-- The declarations of the accounts that an instruction takes. -/
def Program.declarationsFor (p : Program) (ix : Instruction) : List Declaration :=
  ((p.group? ix.group).map (·.accounts)).getD []

/-- The arguments of an instruction, or those of its group if it has none. -/
def Program.argumentsFor (p : Program) (ix : Instruction) : List Argument :=
  if ix.args.isEmpty then ((p.group? ix.group).map (·.args)).getD [] else ix.args

namespace Lowering

open Source

/-! ## Instructions and programs -/

/-- What a run is parametrised by: the options, the lowering of bodies with its failures in words,
and the hash of names. -/
structure Lowerer (ε : Type) where
  config : Config
  lowerBody : Context → Text → Except ε Text
  describeFailure : ε → Text
  hash : Buffer → Buffer

namespace Lowerer

variable {ε : Type}

def discriminator (l : Lowerer ε) (name : Text) (index : Nat) : Buffer :=
  if l.config.anchorCompat then Discriminator.ofName l.hash name else Discriminator.ofIndex index

def lowerInstruction (l : Lowerer ε) (p : Program) (facts : Facts) (ix : Instruction)
    (index : Nat) : Except ε TargetInstruction := do
  let layouts := p.layouts
  let ds := p.declarationsFor ix
  let accounts := ds.zipIdx.map fun d => AccountSlot.ofDeclaration layouts facts ix.group d.1 d.2
  let derived := ds.filterMap fun d => facts.derivedFor? d.name (some ix.group)
  let context := Context.build ix.name accounts layouts derived l.config
  let body ← l.lowerBody context (unwrapBody ix.bodyText)
  return {
    name := ix.name
    discriminator := l.discriminator ix.name index
    accounts
    args := p.argumentsFor ix
    guards := guards context (ds.zip accounts)
    body
    issues := Marker.collect body
    failed := false }

/-- What an instruction becomes whose body cannot be lowered. -/
def failedInstruction (l : Lowerer ε) (ix : Instruction) (index : Nat) (failure : ε) :
    TargetInstruction :=
  let body := Marker.render "transform" (l.describeFailure failure)
  { name := ix.name
    discriminator := l.discriminator ix.name index
    accounts := []
    args := ix.args
    guards := []
    body
    issues := Marker.collect body
    failed := true }

/-- Lowers one instruction and contains its failure. -/
def lowerContained (l : Lowerer ε) (p : Program) (facts : Facts) (ix : Instruction) (index : Nat) :
    TargetInstruction :=
  match l.lowerInstruction p facts ix index with
  | .ok target => target
  | .error failure => l.failedInstruction ix index failure

inductive RunError where
  | badName (error : NamingError)
  | collision (collision : Discriminator.Collision)
  deriving DecidableEq

def RunError.message : RunError → Text
  | .badName error => error.message
  | .collision c => c.message

def run (l : Lowerer ε) (p : Program) (facts : Facts) : Except RunError TargetProgram :=
  match p.checkNames with
  | .error error => .error (.badName error)
  | .ok () =>
    let instructions := p.instructions.zipIdx.map fun ix => l.lowerContained p facts ix.1 ix.2
    match Discriminator.collision? (instructions.map fun ix => (ix.name, ix.discriminator)) with
    | some c => .error (.collision c)
    | none =>
      .ok {
        name := p.name
        programId := p.programId
        config := l.config
        instructions
        records := p.targetRecords
        errors := TargetError.ofProgram p }

end Lowerer

def describeOverlap (o : Overlap) : Text := Text.concat ["ValueError: ", o.message]

/-- The lowerer that lowers bodies by the given steps. -/
def Lowerer.ofSteps (steps : List Step) (config : Config) : Lowerer Overlap where
  config
  lowerBody := runSteps steps
  describeFailure := describeOverlap
  hash := Sha256.hash

def Lowerer.standard (config : Config) : Lowerer Overlap := ofSteps Step.all config

def lowerProgram (config : Config) (p : Program) : Except Lowerer.RunError TargetProgram :=
  (Lowerer.standard config).run p (Facts.analyze p)

end Lowering

end AnchorLowering
