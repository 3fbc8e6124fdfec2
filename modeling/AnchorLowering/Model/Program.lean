import AnchorLowering.Model.Bound

/-!
# Source programs

A program has instructions, each with a body of text and the name of the group of accounts that it
takes; groups of account declarations with their constraints; state records; and errors.

Some parts are taken over from the model as they stand, whatever kind of value they are: bodies,
messages, the space and the error of a constraint, the source of a bump, and the record or program
inside an account type. They are JSON values here and are read as text where text is needed. A value
of another kind has no text there: such a body is empty, and such a bump or error counts as not
given. Where the difference matters, a program is assumed to be well typed.
-/

namespace AnchorLowering

inductive AccountKind where
  | signer
  | account
  | program
  | tokenAccount
  | mint
  | wrapped
  | systemAccount
  | unchecked
  | sysvar
  deriving DecidableEq

/-- The kinds with their names. -/
def AccountKind.table : List (AccountKind × String) :=
  [(.signer, "signer"), (.account, "account"), (.program, "program"),
   (.tokenAccount, "token_account"), (.mint, "mint"), (.wrapped, "wrapped"),
   (.systemAccount, "system_account"), (.unchecked, "unchecked"), (.sysvar, "sysvar")]

def AccountKind.name (kind : AccountKind) : Text := ((table.lookup kind).getD "").toList

def AccountKind.ofName? (name : Text) : Option AccountKind :=
  (table.find? fun e => e.2.toList == name).map (·.1)

/-- The constraints that carry a single value. -/
inductive TargetConstraint where
  | tokenMint
  | tokenAuthority
  | mintDecimals
  | mintAuthority
  | address
  | close
  deriving DecidableEq

inductive Constraint where
  | mutable
  /-- The account is created, paid for by `payer`. -/
  | init (ifNeeded : Bool) (payer : Text) (space : Json)
  | seeds (seeds : List Text)
  /-- Where the bump of a derived address comes from; null for the canonical one. -/
  | bump (source : Json)
  | condition (expr : Text) (error : Json)
  /-- The record's field holds the key of the account of that name. -/
  | hasOne (field : Text) (error : Json)
  | target (kind : TargetConstraint) (value : Text)

namespace Constraint

def seeds? : Constraint → Option (List Text)
  | seeds s => some s
  | _ => none

/-- The source of a bump constraint. -/
def bump? : Constraint → Option Json
  | bump source => some source
  | _ => none

def payer? : Constraint → Option Text
  | init _ payer _ => some payer
  | _ => none

def target? (kind : TargetConstraint) : Constraint → Option Text
  | target k value => if k = kind then some value else none
  | _ => none

def isMutable : Constraint → Bool
  | mutable => true
  | _ => false

end Constraint

/-- A declared account. `inner` is the record or program inside its type, `wrapped` the kind inside
a box. -/
structure Declaration where
  name : Text
  kind : AccountKind
  inner : Json
  wrapped : Option AccountKind
  constraints : List Constraint

namespace Declaration

/-- The kind of the account, seen through its box. -/
def effectiveKind (d : Declaration) : AccountKind :=
  if d.kind = .wrapped then d.wrapped.getD d.kind else d.kind

def seeds? (d : Declaration) : Option (List Text) := d.constraints.findSome? Constraint.seeds?

/-- The source of the account's bump; none for the canonical one. -/
def bumpSource? (d : Declaration) : Option Text :=
  (d.constraints.findSome? Constraint.bump?).bind Json.text?

def payer? (d : Declaration) : Option Text := d.constraints.findSome? Constraint.payer?

def target? (d : Declaration) (kind : TargetConstraint) : Option Text :=
  d.constraints.findSome? (Constraint.target? kind)

def isMutable (d : Declaration) : Bool := d.constraints.any Constraint.isMutable

end Declaration

/-- An argument of an instruction. -/
structure Argument where
  name : Text
  ty : Text
  deriving DecidableEq

/-- A group of account declarations that instructions share. -/
structure Group where
  name : Text
  accounts : List Declaration
  args : List Argument

/-- An instruction of a program. -/
structure Instruction where
  name : Text
  group : Text
  args : List Argument
  body : Json

def Instruction.bodyText (ix : Instruction) : Text := ix.body.text?.getD []

/-- A field of a state record, with the bound that is declared for it. -/
structure StateField where
  name : Text
  ty : Text
  bound : Option Bound
  deriving DecidableEq

structure StateRecord where
  name : Text
  fields : List StateField
  hasInitSpace : Bool
  deriving DecidableEq

structure ErrorEntry where
  name : Text
  msg : Json
  code : Option ErrorCode

structure Program where
  name : Text
  programId : Option Text
  instructions : List Instruction
  groups : List Group
  records : List StateRecord
  errors : List ErrorEntry

namespace Program

/-- The first group of the name. -/
def group? (p : Program) (name : Text) : Option Group := p.groups.find? (·.name == name)

/-- The first record of the name. -/
def record? (p : Program) (name : Text) : Option StateRecord := p.records.find? (·.name == name)

end Program

end AnchorLowering
