import AnchorLowering.Lowering.SequenceAccess
import AnchorLowering.Lowering.StateAccess
import AnchorLowering.Source.Binding
import AnchorLowering.Source.Edit
import AnchorLowering.Source.StructLiteral

/-!
# Calls of other programs

A call of the token or system program takes a call context, which holds the program, a struct of
accounts and possibly the seeds of a signer, and an amount. It becomes an instruction struct that
is invoked, with the signer's seeds where a derived account has to sign.

A call context, and the seeds in it, may be bound to locals. The bindings that a call reads are
removed with it if nothing else reads them. A call that is not understood is marked.
-/

namespace AnchorLowering.Lowering

open Pattern Source

/-! ## The calls -/

/-- A call of another program and the instruction that it becomes. Each role pairs a field of the
instruction with the field of the accounts struct that it is taken from. -/
structure CallTarget where
  program : String
  function : String
  structPath : String
  roles : List (String × String)
  amountField : String
  signerRole : String
  isSystem : Bool
  deriving DecidableEq

def callTargets : List CallTarget :=
  [{ program := "token", function := "transfer"
     structPath := "pinocchio_token::instructions::Transfer"
     roles := [("from", "from"), ("to", "to"), ("authority", "authority")]
     amountField := "amount", signerRole := "authority", isSystem := false },
   { program := "token", function := "mint_to"
     structPath := "pinocchio_token::instructions::MintTo"
     roles := [("mint", "mint"), ("account", "to"), ("mint_authority", "authority")]
     amountField := "amount", signerRole := "mint_authority", isSystem := false },
   { program := "token", function := "burn"
     structPath := "pinocchio_token::instructions::Burn"
     roles := [("account", "from"), ("mint", "mint"), ("authority", "authority")]
     amountField := "amount", signerRole := "authority", isSystem := false },
   { program := "system_program", function := "transfer"
     structPath := "pinocchio_system::instructions::Transfer"
     roles := [("from", "from"), ("to", "to")]
     amountField := "lamports", signerRole := "from", isSystem := true }]

def pathLinks : Pattern Unit := star do
  wordBoundary
  word
  spaced "::"

def CallTarget.head (t : CallTarget) : Pattern Unit := do
  pathLinks
  wordBoundary
  tokens [t.program.toList, "::", t.function.toList]
  wordBoundary

/-! ## Call contexts -/

/-- A call context: the program, the accounts, and the seeds of the signer. -/
structure CallContext where
  program : Text
  accounts : StructLiteral
  signer : Option Text

def callContextHead : Pattern Unit := do
  pathLinks
  wordBoundary
  tokens ["CpiContext", "::"]
  blanks
  let _ ← oneOf ["new_with_signer", "new"]
  wordBoundary

/-- Seeds that are added to a call context after it is built, read as the seeds. -/
def withSigner : Pattern Text := do
  tokens [".", "with_signer", "("]
  let seeds ← capture (many fun _ => true)
  lit ")"
  pure seeds

/-- The program, the accounts and the signer among the arguments of a call context. -/
def callContextArgs? (hasSigner : Bool) (args : List Text) : Option (Text × Text × Option Text) :=
  match hasSigner, args with
  | true, [program, accounts, signer] => some (program, accounts, some signer)
  | false, [program, accounts] => some (program, accounts, none)
  | _, _ => none

def CallContext.parse? (expr : Text) : Option CallContext := do
  let expr := Text.trim expr
  let call ← (findCallsWith false callContextHead expr).head?
  if call.start != 0 then none
  let (program, accounts, signer) ←
    callContextArgs? (Text.holds call.head "new_with_signer") call.args
  let rest := Text.trim (expr.drop call.stop)
  let signer ←
    if rest.isEmpty then some signer
    else (withSigner.readAll? rest).map fun seeds => some (Text.trim seeds)
  let accounts ← StructLiteral.parse? accounts
  some ⟨program, accounts, signer⟩

/-! ## Signer seeds -/

def fullSlice : Pattern Unit := do
  let _ ← opt (tokens ["[", "..", "]"])

/-- Seeds that are written out, read as the list between the inner brackets. -/
def writtenSeeds : Pattern Text := do
  tokens ["&", "[", "&", "["]
  let seeds ← capture (many fun _ => true)
  lit "]"
  blanks
  fullSlice
  blanks
  lit "]"
  pure seeds

def seedsLocal : Pattern Text := do
  tokens ["&", "["]
  blanks
  let _ ← opt (lit "&")
  blanks
  let name ← capture word
  blanks
  fullSlice
  blanks
  lit "]"
  pure name

def arrayBody : Pattern Text := do
  let _ ← opt (lit "&")
  blanks
  lit "["
  let items ← capture (many fun _ => true)
  lit "]"
  pure items

def byteSeed : Pattern Text := do
  tokens ["&", "["]
  notAhead (do blanks; lit "..")
  let bytes ← capture (many1 fun _ => true)
  lit "]"
  pure bytes

abbrev SeedLookup := Option (List Text) × List Binding

def seedsInLocal (body name : Text) : SeedLookup :=
  match Binding.find? body name with
  | none => (none, [])
  | some binding =>
    match arrayBody.readAll? binding.value with
    | none => (none, [])
    | some items => (some ((arguments items).map collapseBlanks), [binding])

/-- Finds the seeds behind an expression, through at most `depth` locals. -/
def lookupSeeds (body : Text) : (depth : Nat) → Text → SeedLookup
  | 0, _ => (none, [])
  | depth + 1, expr =>
    let expr := collapseBlanks expr
    match writtenSeeds.readAll? expr with
    | some seeds => (some (((arguments seeds).map collapseBlanks).filter (!·.isEmpty)), [])
    | none =>
      match seedsLocal.readAll? expr with
      | some name => seedsInLocal body name
      | none =>
        if (word.readAll? expr).isSome then
          match Binding.find? body expr with
          | none => (none, [])
          | some binding =>
            let (seeds, used) := lookupSeeds body depth binding.value
            (seeds, binding :: used)
        else (none, [])

def seedDepth : Nat := 4

def resolveSeeds (body expr : Text) : SeedLookup := lookupSeeds body seedDepth expr

def seedReference (seed : Text) : Text :=
  let seed := collapseBlanks seed
  if Text.startsWith seed "&" || Text.startsWith seed "b\"" || Text.endsWith seed ".as_ref()"
      || Text.endsWith seed ".as_bytes()" then seed
  else Text.concat [seed, ".as_ref()"]

/-! ## Bindings that nothing reads -/

def occurrences (body name : Text) : List Nat :=
  (Source.findAll (do wordBoundary; lit name; wordBoundary) body).map (·.start)

/-- The stretches of the bindings that nothing outside the excluded stretches reads. A binding that
goes joins the excluded ones, so what only it reads can go after it. -/
def deadBindings (body : Text) : List Span → List Binding → List Span
  | _, [] => []
  | excluded, b :: rest =>
    let span : Span := (b.start, b.stop)
    let isRead := (occurrences body b.name).any fun i =>
      !(excluded ++ [span]).any fun s => Span.holds s i
    if excluded.contains span || isRead then deadBindings body excluded rest
    else span :: deadBindings body (excluded ++ [span]) rest

/-! ## Parts of the instruction -/

/-- Routes state fields, unless that needs a handle that the body does not bind. -/
def routeIfBound (c : Context) (body expr : Text) : Text :=
  let routed := routeFields c expr
  let isUnbound := c.states.any fun b =>
    Text.holds routed b.handle && !occurs (letName b.handle) body
  if isUnbound then expr else routed

def accountConversion : Pattern Text := do
  blanks
  lit "."
  blanks
  let _ ← oneOf ["to_account_info", "clone"]
  blanks
  noArguments
  let _ ← atEnd <|> ahead (do lit "\n"; atEnd)
  pure []

/-- An account expression without its final conversion and its reference marks. -/
def accountReference (expr : Text) : Text :=
  let expr := accountConversion.replaceAll (collapseBlanks expr)
  Text.trim (expr.dropWhile (· == '&'))

/-- The account is derived and held by the program, and does not sign itself. -/
def isProgramOwned (c : Context) (name : Text) : Bool :=
  match c.account? name with
  | none => false
  | some a => !a.isSigner && a.isDerived && (a.kind == .account || a.kind == .unchecked)

def transferInPlace (source destination amount : Text) : Text :=
  braces <| Text.concat
    ["let lamports = ", amount, "; *", source, ".try_borrow_mut_lamports()? -= lamports; *",
     destination, ".try_borrow_mut_lamports()? += lamports;"]

/-- The bump of a derived account: its source where that can be read here, else the local for it. -/
def bumpExpression (c : Context) (body account : Text) (source : Option Text) : Text :=
  match source with
  | none | some [] => account ++ "_bump".toList
  | some source =>
    let routed := routeIfBound c body source
    if routed != source || (c.stateFor? (Text.trim (Text.beforeFirst '.' source))).isNone then
      routed
    else account ++ "_bump".toList

def numbered (name : String) (index : Nat) : Text := name.toList ++ Text.ofNat index

/-- A seed of the signer, with the statement that binds it where it needs one: an array of bytes
has to outlive the list that borrows it. -/
def seedPart (signer : Nat) (seed : Text) (k : Nat) : List Text × Text :=
  match byteSeed.readAll? seed with
  | some bytes =>
    let name := Text.concat [numbered "cpi_seed_" signer, "_", Text.ofNat k]
    ([Text.concat ["let ", name, " = [", Text.trim bytes, "];"]],
      Text.concat ["Seed::from(&", name, ")"])
  | none => ([], Text.concat ["Seed::from(", seedReference seed, ")"])

def invokeSigned (signer : Nat) (seeds : List Text) (bump : Option Text)
    (instruction suffix : Text) : Text :=
  let parts := seeds.zipIdx.map fun e => seedPart signer e.1 e.2
  let bumpName := numbered "cpi_bump_" signer
  let bumpParts := bump.toList.map fun b =>
    ([Text.concat ["let ", bumpName, " = [", b, "];"]], Text.concat ["Seed::from(&", bumpName, ")"])
  let all := parts ++ bumpParts
  let seedsName := numbered "cpi_seeds_" signer
  let signerName := numbered "cpi_signer_" signer
  Text.join " " <| all.flatMap (·.1) ++
    [Text.concat ["let ", seedsName, " = [", Text.join ", " (all.map (·.2)), "];"],
     Text.concat ["let ", signerName, " = Signer::from(&", seedsName, ");"],
     Text.concat [instruction, ".invoke_signed(&[", signerName, "])", suffix]]

/-! ## Lowering a call -/

/-- What a call becomes, the stretches that go with it, and whether it has a signer. -/
structure LoweredCall where
  replacement : Text
  removed : List Span
  isSigned : Bool

/-- The call context of a call: written in place, or bound to a local, whose binding then goes. -/
def findCallContext? (body expr : Text) : Option (CallContext × List Span) :=
  match CallContext.parse? expr with
  | some context => some (context, [])
  | none => do
    let name := Text.trim expr
    if (word.readAll? name).isNone then none
    let binding ← Binding.find? body name
    let context ← CallContext.parse? binding.value
    some (context, [(binding.start, binding.stop)])

def CallTarget.accounts? (t : CallTarget) (literal : StructLiteral) :
    Option (List (String × Text)) :=
  t.roles.mapM fun role =>
    (literal.fields.get? role.2.toList).map fun value => (role.1, accountReference value)

def CallTarget.instruction (t : CallTarget) (accounts : List (String × Text)) (amount : Text) :
    Text :=
  let fields := accounts.map fun a => Text.concat [a.1.toList, ": ", a.2]
  Text.concat [t.structPath.toList, " ",
    braces (Text.concat [Text.join ", " fields, ", ", t.amountField.toList, ": ", amount])]

/-- The seeds of the signer, the bump where it is added to them, and the bindings that were read. -/
def signerSeeds (c : Context) (body : Text) (signer : Option Text) (account : Text)
    (derived : Option DerivedAccount) : Option (List Text × Option Text) × List Binding :=
  let (written, used) :=
    match signer with
    | none | some [] => (none, [])
    | some expr => resolveSeeds body expr
  match written, derived with
  | some seeds, _ => (some (seeds, none), used)
  | none, some d =>
    let bump := bumpExpression c body account d.bumpSource
    (some (d.seeds.map (routeIfBound c body), some bump), used)
  | none, none => (none, used)

/-- Lowers a call, where `signer` numbers the signed calls; none if it is not understood. -/
def CallTarget.lower? (t : CallTarget) (c : Context) (body : Text) (call : Call) (signer : Nat) :
    Option LoweredCall := do
  let [contextExpr, amount] := call.args | none
  let amount := collapseBlanks amount
  let (context, removed) ← findCallContext? body contextExpr
  let accounts ← t.accounts? context.accounts
  let signerAccount := (accounts.lookup t.signerRole).getD []
  let derived := c.derivedFor? signerAccount
  if t.isSystem && c.config.inlineCpi && isProgramOwned c signerAccount then
    let destination := (accounts.lookup "to").getD []
    return ⟨transferInPlace signerAccount destination amount, removed, false⟩
  let instruction := t.instruction accounts amount
  if context.signer.isNone && derived.isNone then
    return ⟨Text.concat [instruction, ".invoke()", call.suffix], removed, false⟩
  let (seeds?, used) := signerSeeds c body context.signer signerAccount derived
  let (seeds, bump) ← seeds?
  let dead := deadBindings body (removed ++ [(call.start, call.stop)]) used
  return ⟨invokeSigned signer seeds bump instruction call.suffix, removed ++ dead, true⟩

/-- Lowers calls in their order. A call that is not understood becomes a marker. -/
def lowerCalls (c : Context) (body : Text) :
    Nat → List (Call × CallTarget) → List (Call × LoweredCall)
  | _, [] => []
  | signer, (call, t) :: rest =>
    let lowered := (t.lower? c body call signer).getD
      ⟨Marker.render "cpi" (body.slice call.start call.stop), [], false⟩
    (call, lowered) :: lowerCalls c body (if lowered.isSigned then signer + 1 else signer) rest

/-! ## Lamports -/

/-- A borrow of an account's balance by the given method, replaced by the checked one. -/
def balanceBorrow (method checked : String) : Pattern Text := do
  let mark ← opt do
    lit "*"
    let _ ← opt (lit "*")
    blanks
  let account ← capture dottedName
  blanks
  tokens [".", "lamports", ".", method.toList, "(", ")"]
  pure (Text.concat [if mark.isSome then "*" else "", account, ".", checked.toList, "()?"])

/-- A checked borrow behind two dereference marks, replaced by the one behind one. -/
def doubleDereference : Pattern Text := do
  lit "**"
  blanks
  let access ← capture do
    dottedName
    spaced "."
    lit "try_borrow"
    let _ ← opt (lit "_mut")
    lit "_lamports"
  wordBoundary
  pure ('*' :: access)

def lowerBalances (body : Text) : Text :=
  [balanceBorrow "borrow_mut" "try_borrow_mut_lamports",
    balanceBorrow "borrow" "try_borrow_lamports", doubleDereference].foldl
      (fun body rule => replaceInCode rule body) body

/-! ## The step -/

def findTargetCalls (body : Text) : List (Call × CallTarget) :=
  (callTargets.flatMap fun t => (findCalls t.head body).map fun call => (call, t)).mergeSort
    fun a b => a.1.start ≤ b.1.start

def lowerProgramCalls (c : Context) (body : Text) : Except Overlap Text :=
  let body := lowerBalances body
  let lowered := lowerCalls c body 0 (findTargetCalls body)
  let replacements := lowered.map fun e => ⟨e.1.start, e.1.stop, e.2.replacement⟩
  let removals := (lowered.flatMap (·.2.removed)).map fun s => ⟨s.1, s.2, []⟩
  Edit.apply body (replacements ++ removals)

end AnchorLowering.Lowering
