import AnchorLowering.Config
import AnchorLowering.Model.Facts
import AnchorLowering.Source.Receiver
import AnchorLowering.Target.Account

/-!
# The context of a body

What a lowering step may ask about the instruction whose body it lowers: the accounts, the state
records that they hold, the sequences in these records, and the derived addresses.
-/

namespace AnchorLowering

/-- A bounded sequence that a body can reach: a field of an account's record, or a local. -/
structure SequenceField where
  owner : Option Text
  name : Text
  capacity : Bound
  counterType : Text
  deriving DecidableEq

def SequenceField.lengthName (s : SequenceField) : Text := counterName s.name

/-- A local sequence. Its counter has the native width. -/
def SequenceField.ofLocal (name : Text) (capacity : Nat) : SequenceField :=
  ⟨none, name, .count capacity, "usize"⟩

/-- An account that holds a record, with the names of the record's fields. -/
structure StateBinding where
  account : Text
  record : Text
  fields : List Text
  deriving DecidableEq

def StateBinding.handle (b : StateBinding) : Text := b.account ++ "_state".toList

structure Context where
  instruction : Text
  accounts : List AccountSlot
  states : List StateBinding
  sequences : List SequenceField
  derived : List DerivedAccount
  config : Config

namespace Context

open Pattern Source

/-! ## Building a context -/

/-- The names that a record's fields have in the target: a sequence brings its counter. -/
def fieldNames (layout : RecordLayout) : List Text :=
  layout.fields.flatMap fun f => if f.isSequence then [f.name, counterName f.name] else [f.name]

def sequencesOf (account : Text) (layout : RecordLayout) : List SequenceField :=
  layout.fields.filterMap fun f => f.capacity.map fun capacity =>
    ⟨some account, f.name, capacity, FieldType.counterType capacity.toNat⟩

def layoutOf? (layouts : Table RecordLayout) (a : AccountSlot) : Option RecordLayout :=
  match a.stateType with
  | none | some [] => none
  | some ty => layouts.get? ty

def build (instruction : Text) (accounts : List AccountSlot) (layouts : Table RecordLayout)
    (derived : List DerivedAccount) (config : Config) : Context :=
  let held := accounts.filterMap fun a => (layoutOf? layouts a).map fun layout => (a.name, layout)
  { instruction, accounts, derived, config
    states := held.map fun h => ⟨h.1, h.2.name, fieldNames h.2⟩
    sequences := held.flatMap fun h => sequencesOf h.1 h.2 }

/-! ## Questions -/

def account? (c : Context) (name : Text) : Option AccountSlot := c.accounts.find? (·.name == name)

def derivedFor? (c : Context) (account : Text) : Option DerivedAccount :=
  c.derived.find? (·.account == account)

def stateFor? (c : Context) (account : Text) : Option StateBinding :=
  c.states.find? (·.account == account)

/-- The sequence of the account's record with this name. -/
def sequenceFor? (c : Context) (owner name : Text) : Option SequenceField :=
  c.sequences.find? fun s => s.owner == some owner && s.name == name

def handleOwner? (c : Context) (name : Text) : Option Text :=
  if Text.endsWith name "_state" then
    (c.stateFor? (name.take (name.length - 6))).map (·.account)
  else none

/-- The account behind a receiver: itself, the account that an alias stands for, or the owner of a
handle. -/
def owner? (c : Context) (aliases : Table Text) (name : Text) : Option Text :=
  let name := (aliases.get? name).getD name
  let name := (c.handleOwner? name).getD name
  if (c.account? name).isSome then some name else none

/-! ## Aliases -/

/-- A binding of a local to an account, read as the two names. -/
def aliasBinding : Pattern (Text × Text) := do
  letKeyword
  let name ← capture word
  spaced "="
  let _ ← opt borrow
  let _ ← opt (do tokens ["ctx", ".", "accounts", "."]; blanks)
  let account ← capture word
  blanks
  lit ";"
  pure (name, account)

/-- The locals that stand for accounts. A later binding replaces an earlier one. -/
def aliases (c : Context) (body : Text) : Table Text :=
  .ofEntries <| ((Source.findAll aliasBinding body).map (·.value)).filter fun e =>
    (c.account? e.2).isSome

end Context

end AnchorLowering
