import AnchorLowering.Encoding.Base58
import AnchorLowering.Json.Parser
import AnchorLowering.Lowering.Program
import AnchorLowering.Model.Decoder

/-!
# The command line

Two commands read a program model: `analyze` reports the facts about the program and `transpile`
lowers it. Each can write its result to a file as JSON.

Options are read as is usual: a long name may be shortened as long as it stays unambiguous, a value
follows its option or is joined to it, short flags may be joined, and two dashes end the options.
What to do is decided here, apart from reading and writing files.
-/

namespace AnchorLowering

/-- The program of a model. Its id is a key in base 58. -/
def Program.ofJson (j : Json) : Decode.Decoded Program :=
  Program.decode (fun id => (Base58.checkKey id).mapError Base58.KeyError.message) j

namespace CommandLine

/-! ## Options -/

inductive Flag where
  | help
  | verbose
  | output
  | noAlloc
  | lazyEntrypoint
  | inlineCpi
  | noAnchorCompat
  | noLogs
  | unsafeMath
  | workers
  | showBody
  deriving DecidableEq

def Flag.takesValue : Flag → Bool
  | output | workers => true
  | _ => false

abbrev FlagNames := List (String × Flag)

def mainFlags : FlagNames :=
  [("-h", .help), ("--help", .help), ("--verbose", .verbose), ("-v", .verbose)]

def analyzeFlags : FlagNames :=
  [("-h", .help), ("--help", .help), ("--output", .output), ("-o", .output)]

def transpileFlags : FlagNames :=
  analyzeFlags ++
    [("--no-alloc", .noAlloc), ("--lazy-entrypoint", .lazyEntrypoint), ("--inline-cpi", .inlineCpi),
     ("--no-anchor-compat", .noAnchorCompat), ("--no-logs", .noLogs),
     ("--unsafe-math", .unsafeMath), ("--workers", .workers), ("-j", .workers),
     ("--show-body", .showBody)]

/-! ## Words -/

/-- What a word on the command line is. -/
inductive Word where
  | value (t : Text)
  | flag (flag : Flag) (isShort : Bool) (joined : Option Text)
  | unknown
  | separator

def flagNamed? (names : FlagNames) (name : Text) : Option Flag :=
  (names.find? fun e => e.1.toList == name).map (·.2)

def isNegativeNumber (t : Text) : Bool :=
  match t with
  | '-' :: rest =>
    let whole := rest.takeWhile isDecimal
    match rest.dropWhile isDecimal with
    | [] => !whole.isEmpty
    | '.' :: places => !places.isEmpty && places.all isDecimal
    | _ => false
  | _ => false

/-- The parts of a word before and after its first equals sign. -/
def splitEquals (t : Text) : Text × Option Text :=
  match t.dropWhile (· != '=') with
  | _ :: rest => (t.takeWhile (· != '='), some rest)
  | [] => (t, none)

/-- The options that a word may shorten, each with the value joined to it. -/
def shortened (names : FlagNames) (t : Text) : List Word :=
  if t.startsWith "--" then
    let (name, joined) := splitEquals t
    (names.filter fun e => name.isPrefixOf e.1.toList).map fun e => .flag e.2 false joined
  else
    names.filterMap fun e =>
      if e.1.toList == t.take 2 then some (.flag e.2 true (some (t.drop 2)))
      else if t.isPrefixOf e.1.toList then some (.flag e.2 false none)
      else none

/-- A word that starts with a dash and is no option by its full name; none if it is ambiguous. -/
def classifyOther (names : FlagNames) (t : Text) : Option Word :=
  match shortened names t with
  | [w] => some w
  | _ :: _ :: _ => none
  | [] => some (if isNegativeNumber t || t.contains ' ' then .value t else .unknown)

/-- Classifies a word; none if it is ambiguous. -/
def classify (names : FlagNames) (t : Text) : Option Word :=
  let isShort := !t.startsWith "--"
  if !t.startsWith "-" || t.length == 1 then some (.value t)
  else
    match flagNamed? names t with
    | some flag => some (.flag flag isShort none)
    | none =>
      match splitEquals t with
      | (name, some joined) =>
        match flagNamed? names name with
        | some flag => some (.flag flag isShort (some joined))
        | none => classifyOther names t
      | (_, none) => classifyOther names t

/-- Classifies the words of a command line; none if one is ambiguous. After a separator all words
are values. -/
def classifyAll (names : FlagNames) : List Text → Option (List Word)
  | [] => some []
  | t :: rest =>
    if t == "--".toList then some (.separator :: rest.map Word.value)
    else do return (← classify names t) :: (← classifyAll names rest)

/-! ## Reading the words -/

/-- What was read from the words of a command. -/
structure Reading where
  flags : List Flag
  output : Option Text
  workers : Option Int
  positionals : List Text
  hasUnknown : Bool

inductive Stop where
  | help
  | usage
  deriving DecidableEq

/-- Reads an integer. Blanks around it, a sign, and single underscores between digits are
allowed. -/
def readInt? (t : Text) : Option Int :=
  let t := Text.trim t
  let (negative, digits) :=
    match t with
    | '-' :: rest => (true, rest)
    | '+' :: rest => (false, rest)
    | rest => (false, rest)
  let groups := Text.runsOf (· != '_') digits
  let wellFormed := !digits.isEmpty && Text.join "_" groups == digits
    && groups.all fun g => g.all isDecimal
  if wellFormed then
    let n := Text.toNat groups.flatten
    some (if negative then -(n : Int) else n)
  else none

namespace Reading

def empty : Reading := ⟨[], none, none, [], false⟩

def setFlag (r : Reading) (flag : Flag) : Except Stop Reading :=
  if flag = .help then .error .help else .ok { r with flags := r.flags ++ [flag] }

def setValue (r : Reading) (flag : Flag) (value : Text) : Except Stop Reading :=
  match flag with
  | .workers =>
    match readInt? value with
    | some n => .ok { r with workers := some n }
    | none => .error .usage
  | _ => .ok { r with output := some value }

/-- The options in a word of joined short flags, up to one that takes the rest as its value. -/
def splitJoined (names : FlagNames) (flag : Flag) : Text → Except Stop (List Flag × Option Text)
  | [] => .ok ([flag], if flag.takesValue then some [] else none)
  | c :: rest =>
    if flag.takesValue then .ok ([flag], some (c :: rest))
    else
      match flagNamed? names ['-', c] with
      | none => .error .usage
      | some next =>
        match rest with
        | [] => .ok ([flag, next], none)
        | _ => (splitJoined names next rest).map fun r => (flag :: r.1, r.2)

/-- Sets the last of some options to the value after it, and the others without one. -/
def setJoined (r : Reading) (flags : List Flag) (value : Option Text) : Except Stop Reading :=
  match flags, value with
  | [], _ => .ok r
  | [flag], some value => r.setValue flag value
  | flag :: rest, value => do
    let r ← r.setFlag flag
    setJoined r rest value

def readWords (names : FlagNames) : Reading → List Word → Except Stop Reading
  | r, [] => .ok r
  | r, .value t :: rest => readWords names { r with positionals := r.positionals ++ [t] } rest
  | r, .separator :: rest => readWords names r rest
  | r, .unknown :: rest => readWords names { r with hasUnknown := true } rest
  | r, .flag flag _ none :: rest =>
    if flag.takesValue then
      match rest with
      | .value t :: rest => do readWords names (← r.setValue flag t) rest
      | .separator :: .value t :: rest => do readWords names (← r.setValue flag t) rest
      | _ => .error .usage
    else do readWords names (← r.setFlag flag) rest
  | r, .flag flag isShort (some joined) :: rest =>
    if flag.takesValue then do readWords names (← r.setValue flag joined) rest
    else if isShort && !joined.isEmpty then
      match splitJoined names flag joined with
      | .error stop => .error stop
      | .ok (flags, none) =>
        if flags.getLast?.any Flag.takesValue then
          match rest with
          | .value t :: rest => do readWords names (← r.setJoined flags (some t)) rest
          | _ => .error .usage
        else do readWords names (← r.setJoined flags none) rest
      | .ok (flags, some value) => do readWords names (← r.setJoined flags (some value)) rest
    else .error .usage

def ofWords (names : FlagNames) (words : List Text) : Except Stop Reading :=
  match classifyAll names words with
  | none => .error .usage
  | some words => readWords names empty words

/-- The model that a command is given: it has to be the only value. -/
def model (r : Reading) : Except Stop Text :=
  match r.positionals, r.hasUnknown with
  | [model], false => .ok model
  | _, _ => .error .usage

def has (r : Reading) (flag : Flag) : Bool := r.flags.contains flag

def config (r : Reading) : Config where
  noAlloc := r.has .noAlloc
  lazyEntrypoint := r.has .lazyEntrypoint
  inlineCpi := r.has .inlineCpi
  anchorCompat := !r.has .noAnchorCompat
  noLogs := r.has .noLogs
  unsafeMath := r.has .unsafeMath
  maxWorkers := r.workers

end Reading

/-! ## Commands -/

inductive Command where
  | showHelp
  | usageError
  | analyze (model : Text) (output : Option Text)
  | transpile (model : Text) (output : Option Text) (config : Config) (showBody : Bool)

/-- The words before the first value are options of their own; the first value names the command. -/
def splitCommand : List Word → List Text → List Word × Option (Text × List Text)
  | .value name :: _, _ :: rest => ([], some (name, rest))
  | w :: words, _ :: rest =>
    let (before, command) := splitCommand words rest
    (w :: before, command)
  | _, _ => ([], none)

/-- Reads the words after the name of a command. -/
def readCommand (name : Text) (words : List Text) : Except Stop Command := do
  if name == "analyze".toList then
    let r ← Reading.ofWords analyzeFlags words
    return .analyze (← r.model) r.output
  else if name == "transpile".toList then
    let r ← Reading.ofWords transpileFlags words
    return .transpile (← r.model) r.output r.config (r.has .showBody)
  else throw .usage

def parseArguments (words : List Text) : Except Stop Command := do
  let some classified := classifyAll mainFlags words | throw .usage
  let (before, command) := splitCommand classified words
  let r ← Reading.readWords mainFlags .empty before
  match command with
  | none => if r.hasUnknown then throw .usage else return .showHelp
  | some (name, rest) =>
    if before.any (fun w => w matches .separator) then throw .usage
    let command ← readCommand name rest
    if r.hasUnknown then throw .usage else return command

def Command.parse (words : List Text) : Command :=
  match parseArguments words with
  | .ok command => command
  | .error .help => .showHelp
  | .error .usage => .usageError

def Command.model? : Command → Option Text
  | analyze model _ | transpile model _ _ _ => some model
  | _ => none

/-! ## Results -/

/-- What a command gives: its exit code, the text to show, and the file to write. -/
structure Result where
  exitCode : Nat
  report : Text
  file : Option (Text × Text)

def usage : Text :=
  Text.join "\n"
    ["usage: [-h] [--verbose] command ...", "",
     "  analyze model [-o FILE]",
     "      Show derived accounts, program calls and record sizes",
     "  transpile model [-o FILE] [--no-alloc] [--lazy-entrypoint] [--inline-cpi]",
     "      [--no-anchor-compat] [--no-logs] [--unsafe-math] [-j N] [--show-body]",
     "      Lower a program model"]

def Result.failure (message : Text) : Result := ⟨1, Text.concat ["Error: ", message], none⟩

/-- The file to write, if the command names one. -/
def fileFor? (output : Option Text) (j : Json) : Option (Text × Text) :=
  match output with
  | none | some [] => none
  | some path => some (path, j.renderIndented)

/-- Loads the program in the text of a model; the text is missing if the file cannot be read. -/
def loadModel (path : Text) (content : Option Text) : Except Text Program :=
  match content with
  | none => .error (Text.concat ["Model file not found: ", path])
  | some content =>
    match Json.parse? content with
    | none => .error (Text.concat [path, ": invalid JSON"])
    | some j =>
      match Program.ofJson j with
      | .ok p => .ok p
      | .error e => .error e.message

/-- The facts as they are written to a file. -/
def factsJson (p : Program) (facts : Facts) : Json :=
  .object
    [("program", .str p.name),
     ("pdas", .arr (facts.derived.map fun d => .object
       [("account", .str d.account), ("group", .ofText? d.group), ("seeds", .texts d.seeds),
        ("bump", .ofText? d.bumpSource)])),
     ("cpi_calls", .arr (facts.calls.map fun c => .object
       [("instruction", .str c.instruction), ("program", .str c.targetProgram),
        ("address", .str c.address), ("operation", .str c.operation), ("roles", .texts c.roles)])),
     ("sizes", .obj (Table.ofEntries (facts.sizes.map fun s => (s.record, .nat s.size))))]

def factsReport (p : Program) (facts : Facts) : Text :=
  Text.join "\n" <|
    [Text.concat ["Program: ", p.name]]
    ++ facts.derived.map (fun d =>
      Text.concat ["  derived ", d.account, ": ", Text.join ", " d.seeds])
    ++ facts.calls.map (fun c =>
      Text.concat ["  call in ", c.instruction, ": ", c.targetProgram, " ", c.operation])
    ++ facts.sizes.map (fun s =>
      Text.concat ["  record ", s.record, ": ", Text.ofNat s.size, " bytes"])

def targetReport (showBody : Bool) (target : TargetProgram) : Text :=
  Text.join "\n" <|
    target.summary
      :: target.issues.map (fun e => Text.concat ["  ", e.1, " ", e.2.describe])
      ++ (if showBody then target.instructions.map fun ix => Text.concat [ix.name, ":\n", ix.body]
          else [])

def runAnalyze (output : Option Text) (p : Program) : Result :=
  let facts := Facts.analyze p
  ⟨0, factsReport p facts, fileFor? output (factsJson p facts)⟩

def runTranspile (output : Option Text) (config : Config) (showBody : Bool) (p : Program) :
    Result :=
  match Lowering.lowerProgram config p with
  | .error e => .failure e.message
  | .ok target => ⟨0, targetReport showBody target, fileFor? output target.toJson⟩

/-- Runs a command, given the text of the file that it reads if that could be read. -/
def Command.run (command : Command) (content : Option Text) : Result :=
  match command with
  | showHelp => ⟨0, usage, none⟩
  | usageError => ⟨2, usage, none⟩
  | analyze model output =>
    match loadModel model content with
    | .error message => .failure message
    | .ok p => runAnalyze output p
  | transpile model output config showBody =>
    match loadModel model content with
    | .error message => .failure message
    | .ok p => runTranspile output config showBody p

end CommandLine

end AnchorLowering
