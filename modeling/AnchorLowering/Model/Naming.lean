import AnchorLowering.Model.Program

/-!
# Names of a program

A program, its groups and its records have names. The instructions of a program have names that
differ from one another, and so have the accounts of a group.
-/

namespace AnchorLowering

/-- A name is missing or taken twice. -/
inductive NamingError where
  | programWithoutName
  | instructionWithoutName
  | duplicateInstruction (name : Text)
  | groupWithoutName
  | accountWithoutName (group : Text)
  | duplicateAccount (group name : Text)
  | recordWithoutName
  deriving DecidableEq

def NamingError.message : NamingError → Text
  | programWithoutName => "Program has no name"
  | instructionWithoutName => "Instruction with empty name"
  | duplicateInstruction name => Text.concat ["Duplicate instruction '", name, "'"]
  | groupWithoutName => "Accounts struct with empty name"
  | accountWithoutName group => Text.concat [group, ": account with empty name"]
  | duplicateAccount group name => Text.concat [group, ": duplicate account '", name, "'"]
  | recordWithoutName => "State struct with empty name"

/-- Checks that no name of a list is empty or occurred before it. -/
def NamingError.checkNames (empty : NamingError) (duplicate : Text → NamingError) :
    List Text → List Text → Except NamingError Unit
  | _, [] => .ok ()
  | seen, name :: rest =>
    if name.isEmpty then .error empty
    else if seen.contains name then .error (duplicate name)
    else checkNames empty duplicate (name :: seen) rest

/-- Checks the names of a group and of its accounts. -/
def Group.checkNames (g : Group) : Except NamingError Unit :=
  if g.name.isEmpty then .error .groupWithoutName
  else NamingError.checkNames (.accountWithoutName g.name) (.duplicateAccount g.name) []
    (g.accounts.map (·.name))

def StateRecord.checkName (r : StateRecord) : Except NamingError Unit :=
  if r.name.isEmpty then .error .recordWithoutName else .ok ()

def Program.checkNames (p : Program) : Except NamingError Unit := do
  if p.name.isEmpty then throw .programWithoutName
  NamingError.checkNames .instructionWithoutName .duplicateInstruction []
    (p.instructions.map (·.name))
  p.groups.forM Group.checkNames
  p.records.forM StateRecord.checkName

end AnchorLowering
