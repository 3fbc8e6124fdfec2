import AnchorLowering.Lowering.Context

/-!
# State accesses

The fields of a record in an account are reached through a handle that is read once at the start of
the body. Accesses to a field, directly or through an alias of the account, go to the handle; the
handle is bound at the start if it is used and not bound yet, and it is mutable if the body writes
through it.
-/

namespace AnchorLowering.Lowering

open Pattern Source

/-! ## Routing fields -/

/-- Longer names first; names of one length keep their order. -/
def longestFirst (names : List Text) : List Text :=
  names.mergeSort fun a b => b.length ≤ a.length

/-- An access to a field of the account's record, replaced by the access to the handle. A method
call is no field access. -/
def fieldAccess (b : StateBinding) : Pattern Text := do
  receiver b.account
  spaced "."
  let field ← oneOf (longestFirst b.fields)
  wordBoundary
  notAhead (do blanks; lit "(")
  pure (Text.concat [b.handle, ".", field])

def routeBinding (t : Text) (b : StateBinding) : Text :=
  if b.fields.isEmpty then t else replaceInCode (fieldAccess b) t

/-- Routes field accesses to the handles, one account after the other. -/
def routeFields (c : Context) (t : Text) : Text := c.states.foldl routeBinding t

/-! ## Loads and aliases -/

/-- A load of the account's record, replaced by the account; the flag tells whether it is a load for
writing. -/
def recordLoad (b : StateBinding) : Pattern (Bool × Text) := do
  receiver b.account
  spaced "."
  lit "load"
  let forWriting ← opt (oneOf ["_mut", "_init"])
  blanks
  tokens ["(", ")", "?"]
  pure (forWriting.isSome, b.account)

def loadsForWriting (body : Text) (b : StateBinding) : Bool :=
  (Source.findAll (recordLoad b) body).any (·.value.1)

def dropLoads (body : Text) (b : StateBinding) : Text :=
  replaceInCode (do return (← recordLoad b).2) body

/-- Drops the loads of all records, and lists the accounts that are loaded for writing. -/
def unloadRecords : List StateBinding → Text → Text × List Text
  | [], body => (body, [])
  | b :: rest, body =>
    let written := if loadsForWriting body b then [b.account] else []
    let (body, more) := unloadRecords rest (dropLoads body b)
    (body, written ++ more)

def isLineBlank (c : Char) : Bool := c == ' ' || c == '\t'

/-- A statement that binds a local to a name, with the rest of its line, read as the two names. -/
def aliasStatement : Pattern (Text × Text) := do
  many isLineBlank
  letKeyword
  let name ← capture word
  spaced "="
  let _ ← opt borrow
  let account ← capture word
  blanks
  lit ";"
  many isLineBlank
  let _ ← opt (lit "\n")
  pure (name, account)

/-- A binding of an alias, replaced by nothing if the alias stands for that account. -/
def dropAlias (c : Context) (aliases : Table Text) : Pattern Text := do
  let ((name, account), statement) ← withText aliasStatement
  let folded := (c.account? account).isSome
    && (name == account || aliases.get? name == some account)
  pure (if folded then [] else statement)

def inlineAlias (body : Text) (entry : Text × Text) : Text :=
  if entry.1 == entry.2 then body
  else replaceInCode (do wholeReceiver entry.1; pure entry.2) body

def foldAliases (c : Context) (body : Text) : Text :=
  let aliases := c.aliases body
  aliases.foldl inlineAlias (replaceInCode (dropAlias c aliases) body)

/-! ## Keys in assignments -/

def indices : Pattern Unit := star do
  blanks
  lit "["
  many (· != ']')
  lit "]"

def keyCall : Pattern Unit := do
  chain1
  lit "key"
  blanks
  noArguments

/-- An assignment of a key to a field behind a handle, with the key read from behind its
reference. -/
def keyAssignment (handles : List Text) : Pattern Text := do
  let left ← capture do
    wordBoundary
    let _ ← oneOf handles
    spaced "."
    word
    indices
    blanks
    lit "="
    notAhead (lit "=")
    blanks
  let key ← capture keyCall
  notAhead (do blanks; lit ".")
  pure (Text.concat [left, "*", key])

def storeKeys (c : Context) (body : Text) : Text :=
  replaceInCode (keyAssignment (c.states.map StateBinding.handle)) body

/-! ## Binding handles -/

def compoundOperator : Pattern Unit := do
  let _ ← opt (oneOf ["<<", ">>", "-", "+", "*", "/", "%", "&", "|", "^"])

def writingMethods : List Text :=
  ["iter_mut", "get_mut", "first_mut", "last_mut", "copy_from_slice", "fill", "swap", "sort",
   "reverse"]

/-- The ways to write through a handle: assigning to something in it, borrowing it for writing, and
calling a method that writes. -/
def writes (handle : Text) : List (Pattern Unit) :=
  [(do
      wordBoundary
      lit handle
      spaced "."
      word
      indices
      star do
        spaced "."
        word
        indices
      blanks
      compoundOperator
      lit "="
      notAhead (lit "=")),
   (do
      lit "&"
      blanks
      lit "mut"
      blanks1
      lit handle
      wordBoundary),
   (do
      wordBoundary
      lit handle
      spaced "."
      chain
      let _ ← oneOf writingMethods
      blanks
      lit "(")]

def writesThrough (body handle : Text) : Bool := (writes handle).any fun p => occurs p body

def bindHandle (b : StateBinding) (mutable : Bool) : Text :=
  if mutable then
    Text.concat
      ["let mut ", b.handle, " = ", b.record, "::from_account_info_mut(", b.account, ")?;"]
  else
    Text.concat ["let ", b.handle, " = ", b.record, "::from_account_info(", b.account, ")?;"]

/-- The statement that binds the handle of an account, if the body uses it without binding it. -/
def handleFor? (body : Text) (written : List Text) (b : StateBinding) : Option Text :=
  if occurs (wholeReceiver b.handle) body && !occurs (letName b.handle) body then
    some (bindHandle b (written.contains b.account || writesThrough body b.handle))
  else none

/-- Puts the statements that bind the handles before the body. -/
def bindHandles (c : Context) (written : List Text) (body : Text) : Text :=
  (c.states.filterMap (handleFor? body written)).flatMap (· ++ ['\n']) ++ body

def lowerState (c : Context) (body : Text) : Text :=
  if c.states.isEmpty then body
  else
    let (body, written) := unloadRecords c.states body
    bindHandles c written (storeKeys c (routeFields c (foldAliases c body)))

end AnchorLowering.Lowering
