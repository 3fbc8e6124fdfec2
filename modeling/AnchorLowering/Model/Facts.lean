import AnchorLowering.Layout.Record
import AnchorLowering.Source.Region

/-!
# Facts about a program

What no single declaration says: which accounts have derived addresses, which programs each body
calls, and how large the records are.
-/

namespace AnchorLowering

structure DerivedAccount where
  account : Text
  seeds : List Text
  bumpSource : Option Text
  programId : Text
  group : Option Text
  deriving DecidableEq

structure ProgramCall where
  instruction : Text
  targetProgram : Text
  address : Text
  operation : Text
  roles : List Text
  deriving DecidableEq

structure RecordSize where
  record : Text
  size : Nat
  fieldSizes : List (Text × Nat)
  assumptions : List Text
  deriving DecidableEq

structure Facts where
  derived : List DerivedAccount
  calls : List ProgramCall
  sizes : List RecordSize

namespace Facts

/-- The derived address of an account. One declared in the group is preferred; without it, the
first that belongs to no group. Without a group to look in, the first of all. -/
def derivedFor? (f : Facts) (account : Text) (group : Option Text) : Option DerivedAccount :=
  let named := f.derived.filter (·.account == account)
  match group with
  | none => named.head?
  | some g => (named.find? (·.group == some g)).or (named.find? (·.group.isNone))

/-- The size of the first record of the name. -/
def sizeFor? (f : Facts) (record : Text) : Option RecordSize := f.sizes.find? (·.record == record)

def callsIn (f : Facts) (instruction : Text) : List ProgramCall :=
  f.calls.filter (·.instruction == instruction)

/-! ## Calls -/

/-- A call that is recognised in a body. -/
structure CallShape where
  program : String
  function : String
  targetProgram : String
  address : String
  operation : String
  roles : List String

def tokenProgram : String := "TokenkegQfeZyiNwAJbNbGKPFXCWuBvf9Ss623VQ5DA"

def systemProgram : String := "11111111111111111111111111111111"

def callShapes : List CallShape :=
  [⟨"token", "transfer", "token", tokenProgram, "transfer", ["from", "to", "authority"]⟩,
   ⟨"token", "mint_to", "token", tokenProgram, "mint_to", ["mint", "to", "authority"]⟩,
   ⟨"token", "burn", "token", tokenProgram, "burn", ["mint", "from", "authority"]⟩,
   ⟨"system_program", "transfer", "system", systemProgram, "transfer", ["from", "to"]⟩]

open Pattern in
/-- The head of a call up to its opening bracket. -/
def CallShape.pattern (s : CallShape) : Pattern Unit := do
  wordBoundary
  tokens [s.program.toList, "::", s.function.toList, "("]

/-- The place of each recognised call in a body, with its shape, from left to right. -/
def locateCalls (body : Text) : List (Nat × CallShape) :=
  let found := callShapes.flatMap fun s =>
    (Source.findAll s.pattern body).map fun m => (m.start, s)
  found.mergeSort fun a b => a.1 ≤ b.1

/-- The calls of an instruction, in the order of its body. -/
def callsOf (ix : Instruction) : List ProgramCall :=
  (locateCalls ix.bodyText).map fun e =>
    { instruction := ix.name
      targetProgram := e.2.targetProgram
      address := e.2.address
      operation := e.2.operation
      roles := e.2.roles.map String.toList }

/-! ## Derived addresses and sizes -/

/-- The derived address that a declaration asks for by its seeds. -/
def derivedOf? (group : Text) (d : Declaration) : Option DerivedAccount :=
  d.seeds?.map fun seeds =>
    { account := d.name, seeds, bumpSource := d.bumpSource?, programId := "program_id"
      group := some group }

def sizeOf (r : StateRecord) : RecordSize :=
  let layout := RecordLayout.ofRecord r
  { record := r.name
    size := layout.size
    fieldSizes := layout.fields.map fun f => (f.name, f.size)
    assumptions := layout.assumptions.map SizeAssumption.describe }

def analyze (p : Program) : Facts where
  derived := p.groups.flatMap fun g => g.accounts.filterMap (derivedOf? g.name)
  calls := p.instructions.flatMap callsOf
  sizes := p.records.map Facts.sizeOf

end Facts

end AnchorLowering
