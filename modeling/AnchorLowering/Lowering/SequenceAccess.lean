import AnchorLowering.Lowering.Context
import AnchorLowering.Lowering.Snippet
import AnchorLowering.Source.Call
import AnchorLowering.Source.Marker

/-!
# Sequence accesses

Operations on growable sequences become operations on a fixed array and its counter: appending past
the capacity returns an error, views take the elements in use, and loops and resets likewise. Where
heap allocation is forbidden, local sequences become local arrays first, and what is left of heap
allocation is marked.

Operations are lowered from right to left, so an operation among the arguments of another comes
first, and a change never moves what lies to its left.
-/

namespace AnchorLowering.Lowering

open Pattern Source

/-! ## Operations -/

/-- An operation on a sequence. The last kind calls a method on the elements in use. -/
inductive SequenceOp where
  | push
  | len
  | isEmpty
  | clear
  | remove
  | extend
  | view (method : String)
  deriving DecidableEq

def SequenceOp.table : List (String × SequenceOp) :=
  [("push", .push), ("len", .len), ("is_empty", .isEmpty), ("clear", .clear), ("remove", .remove),
   ("extend_from_slice", .extend), ("iter_mut", .view "iter_mut"), ("iter", .view "iter"),
   ("contains", .view "contains"), ("get", .view "get"), ("first", .view "first"),
   ("last", .view "last")]

/-- The operation with the name, among those that a text may start with. -/
def SequenceOp.pattern : Pattern SequenceOp := choose table

/-- A sequence as it is named in a body: the receiver with its final dot, and the name. -/
structure SequencePlace where
  receiver : Text
  name : Text
  deriving DecidableEq

def sequencePlace : Pattern SequencePlace := do
  let receiver ← capture chain
  wordBoundary
  let name ← capture word
  pure ⟨Text.withoutBlanks receiver, name⟩

def sequenceCall : Pattern (SequencePlace × SequenceOp) := do
  let place ← sequencePlace
  spaced "."
  let op ← SequenceOp.pattern
  wordBoundary
  ahead (do blanks; lit "(")
  pure (place, op)

/-- What names of sequences stand for: the context, the aliases of accounts and the locals. -/
structure Scope where
  context : Context
  aliases : Table Text
  locals : Table SequenceField

def Scope.resolve? (s : Scope) (place : SequencePlace) : Option SequenceField :=
  if place.receiver.isEmpty then s.locals.get? place.name
  else do
    let last := Text.lastPart "." (Text.trimDots place.receiver)
    let owner ← s.context.owner? s.aliases last
    s.context.sequenceFor? owner place.name

def asIndex (expr : Text) : Text :=
  let expr := Text.trim expr
  if (word.readAll? expr).isSome then Text.concat [expr, " as usize"]
  else Text.concat ["(", expr, ") as usize"]

def SequenceOp.accepts (op : SequenceOp) (args : Text) : Bool :=
  match op with
  | .len | .isEmpty | .clear => args.isEmpty
  | .push | .remove | .extend => !args.isEmpty
  | .view _ => true

def SequenceOp.render (op : SequenceOp) (receiver : Text) (s : SequenceField) (args : Text) :
    Text :=
  let target := receiver ++ s.name
  let length := receiver ++ s.lengthName
  let live := length ++ " as usize".toList
  let capacity := s.capacity.text
  match op with
  | .push =>
    braces <| Text.concat
      [guardWith (Text.concat [live, " >= ", capacity]) invalidArgument, " ", target, "[", live,
       "] = ", args, "; ", length, " += 1;"]
  | .len => Text.concat ["(", live, ")"]
  | .isEmpty => Text.concat ["(", length, " == 0)"]
  | .clear => Text.concat [length, " = 0"]
  | .remove =>
    braces <| Text.concat
      ["let remove_at = ", asIndex args, "; ",
       guardWith (Text.concat ["remove_at >= ", live]) invalidArgument,
       " let removed = ", target, "[remove_at]; for shift_at in remove_at..", live, " - 1 ",
       braces (Text.concat [target, "[shift_at] = ", target, "[shift_at + 1];"]), " ", length,
       " -= 1; removed"]
  | .extend =>
    braces <| Text.concat
      ["let extend_src = ", args, "; let extend_at = ", live, "; ",
       guardWith (Text.concat ["extend_at + extend_src.len() > ", capacity]) invalidArgument, " ",
       target, "[extend_at..extend_at + extend_src.len()].copy_from_slice(extend_src); ", length,
       " += extend_src.len() as ", s.counterType, ";"]
  | .view method => Text.concat [target, "[..", live, "].", method.toList, "(", args, ")"]

def startsStatement (body : Text) (index : Nat) : Bool :=
  match (Text.trimRight (body.take index)).getLast? with
  | none => true
  | some c => c == ';' || c == '\x7b' || c == '\x7d'

/-- Where an operation ends, given the end of its argument list. An operation that becomes a block
takes the question mark after it, and the semicolon too if it is a statement of its own. -/
def SequenceOp.stop (op : SequenceOp) (body : Text) (start argsStop : Nat) : Nat :=
  match op with
  | .push | .extend =>
    let stop := (afterMark? body '?' argsStop).getD argsStop
    if startsStatement body start then (afterMark? body ';' stop).getD stop else stop
  | _ => argsStop

/-- Lowers one operation in a body that is unchanged up to the operation's argument list. -/
def lowerOperation (s : Scope) (m : Match (SequencePlace × SequenceOp)) (body : Text) : Text :=
  let (place, op) := m.value
  let lowered? := do
    let sequence ← s.resolve? place
    let openIndex := skipBlanks body m.stop
    let close ← matchingClose body openIndex
    let args := Text.trim (body.slice (openIndex + 1) close)
    if op.accepts args then
      some (body.splice m.start (op.stop body m.start (close + 1))
        (op.render place.receiver sequence args))
    else none
  lowered?.getD body

def lowerOperations (s : Scope) (body : Text) : Text :=
  (Source.findAll sequenceCall body).foldr (lowerOperation s) body

/-! ## Loops and resets -/

/-- The head of a loop over a sequence, replaced by the loop over the elements in use. -/
def loopHead (s : Scope) : Pattern Text := do
  let ((binder, forWriting, place), whole) ← withText do
    wordBoundary
    lit "for"
    blanks1
    let binder ← capture do
      let _ ← one (!isBlank ·)
      few (· != '\n')
    blanks1
    lit "in"
    blanks1
    lit "&"
    blanks
    let forWriting ← opt (do lit "mut"; blanks1)
    let place ← sequencePlace
    blanks
    ahead (lit "\x7b")
    pure (binder, forWriting.isSome, place)
  match s.resolve? place with
  | none => pure whole
  | some sequence =>
    pure <| Text.concat
      ["for ", binder, " in &", if forWriting then "mut " else "", place.receiver, sequence.name,
       "[..", place.receiver, sequence.lengthName, " as usize] "]

def emptySequence : Pattern Unit :=
  tokens ["Vec", "::", "new", "(", ")"] <|> tokens ["vec", "!", "[", "]"]

/-- An assignment that empties a sequence, replaced by the reset of the counter. A binding is no
such assignment. -/
def resetAssignment (s : Scope) : Pattern Text := do
  let (place, whole) ← withText do
    notAfter "let "
    notAfter "mut "
    let place ← sequencePlace
    blanks
    lit "="
    notAhead (lit "=")
    blanks
    emptySequence
    pure place
  match s.resolve? place with
  | none => pure whole
  | some sequence => pure (Text.concat [place.receiver, sequence.lengthName, " = 0"])

/-! ## Locals -/

/-- A local array with its counter, as a lowered local sequence is written. -/
def loweredLocal : Pattern SequenceField := do
  wordBoundary
  lit "let"
  blanks1
  lit "mut"
  blanks1
  let name ← capture word
  blanks
  let _ ← opt do
    tokens [":", "["]
    many (· != ']')
    lit "]"
    blanks
  tokens ["=", "[", "Default", "::", "default", "(", ")", ";"]
  blanks
  let capacity ← capture (many1 isDecimal)
  blanks
  tokens ["]", ";"]
  blanks
  lit "let"
  blanks1
  lit "mut"
  blanks1
  lit (counterName name)
  blanks
  tokens [":", "usize", "=", "0", ";"]
  pure (.ofLocal name (Text.toNat capacity))

/-- The binding of a local sequence: its name, the type of its elements, and its capacity. -/
structure LocalSequence where
  name : Text
  element : Option Text
  explicit : Option Text

def localBinding : Pattern LocalSequence := do
  wordBoundary
  lit "let"
  blanks1
  lit "mut"
  blanks1
  let name ← capture word
  blanks
  let element ← opt do
    tokens [":", "Vec", "<"]
    blanks
    let element ← capture (few1 (· != '\n'))
    blanks
    lit ">"
    blanks
    pure element
  tokens ["=", "Vec", "::"]
  blanks
  let explicit ←
    (do tokens ["new", "(", ")"]; pure none) <|> (do
      tokens ["with_capacity", "("]
      blanks
      let digits ← capture (many1 isDecimal)
      blanks
      lit ")"
      pure (some digits))
  blanks
  lit ";"
  pure ⟨name, element, explicit⟩

namespace LocalSequence

/-- The capacity that is asked for, or the default for the elements. -/
def capacity (l : LocalSequence) : Nat :=
  match l.explicit, l.element with
  | some digits, _ => Text.toNat digits
  | none, some element => (FieldType.parse element).defaultCapacity
  | none, none => FieldType.fallbackCapacity

def render (l : LocalSequence) : Text :=
  let capacity := Text.ofNat l.capacity
  let annotation :=
    match l.element with
    | some element => Text.concat [": [", element, "; ", capacity, "]"]
    | none => []
  Text.concat
    ["let mut ", l.name, annotation, " = [Default::default(); ", capacity, "]; let mut ",
     counterName l.name, ": usize = 0;"]

end LocalSequence

def localBindings (body : Text) : List LocalSequence :=
  ((segments body).filter (·.isCode)).flatMap fun s => (localBinding.findAll s.text).map (·.value)

/-- The local sequences of a body: those that are lowered already, then those still to be. -/
def localSequences (body : Text) : Table SequenceField :=
  .ofEntries <|
    ((Source.findAll loweredLocal body).map fun m => (m.value.name, m.value))
      ++ (localBindings body).map fun l => (l.name, .ofLocal l.name l.capacity)

def lowerLocals (body : Text) : Text :=
  replaceInCode (do return (← localBinding).render) body

/-- A borrow of a whole local sequence, replaced by a borrow of the elements in use. -/
def localBorrow (name : Text) : Pattern Text := do
  behind fun before => !before.head?.any fun c => isWord c || c == '.'
  lit "&"
  blanks
  let forWriting ← opt (capture do lit "mut"; blanks1)
  lit name
  wordBoundary
  notAhead do
    blanks
    let _ ← one fun c => c == '.' || c == '[' || c == '('
  pure (Text.concat ["&", forWriting.getD [], name, "[..", counterName name, "]"])

/-- Cuts the borrows of local sequences to the elements in use, longer names first. -/
def sliceLocals (locals : Table SequenceField) (body : Text) : Text :=
  ((locals.map (·.1)).mergeSort fun a b => b.length ≤ a.length).foldl
    (fun body name => replaceInCode (localBorrow name) body) body

/-! ## Heap allocation -/

def heapCallHeads : List (Pattern Unit) :=
  [(do wordBoundary; tokens ["vec", "!"]),
   (do wordBoundary; tokens ["format", "!"]),
   (do wordBoundary; tokens ["String", "::", "from"]; wordBoundary),
   (do wordBoundary; tokens ["Box", "::", "new"]; wordBoundary),
   (do
      wordBoundary
      tokens ["Vec", "::"]
      blanks
      let _ ← oneOf ["new", "with_capacity"]
      wordBoundary)]

def heapMethod : Pattern Unit := do
  dottedName
  spaced "."
  let _ ← oneOf ["to_vec", "to_string", "to_owned"]
  blanks
  noArguments

def logHead : Pattern Unit := do
  wordBoundary
  let _ ← oneOf ["msg", "emit"]
  blanks
  lit "!"

abbrev Span := Nat × Nat

def Span.holds (s : Span) (index : Nat) : Bool := s.1 ≤ index && index < s.2

def heapSpans (body : Text) : List Span :=
  let calls := heapCallHeads.flatMap fun head =>
    (findCallsWith false head body).map fun c => (c.start, c.stop)
  let methods := (Source.findAll heapMethod body).map fun m => (m.start, m.stop)
  (calls ++ methods).mergeSort fun a b => a.1 < b.1 || (a.1 == b.1 && a.2 ≤ b.2)

/-- Keeps each stretch that starts where no kept one still runs; `limit` is where the last one
stopped. -/
def disjointSpans (limit : Nat) : List Span → List Span
  | [] => []
  | s :: rest => if s.1 < limit then disjointSpans limit rest else s :: disjointSpans s.2 rest

/-- Replaces what still allocates by markers, except in calls that log. -/
def markHeap (body : Text) : Text :=
  let logs : List Span := (findCallsWith false logHead body).map fun c => (c.start, c.stop)
  let spans := (heapSpans body).filter fun s => !logs.any fun l => Span.holds l s.1
  (disjointSpans 0 spans).foldr (fun s body =>
    body.splice s.1 s.2 (Marker.render "bounded_sequences" (body.slice s.1 s.2))) body

/-! ## The step -/

def lowerInScope (s : Scope) (body : Text) : Text :=
  replaceInCode (resetAssignment s) (replaceInCode (loopHead s) (lowerOperations s body))

def lowerSequences (c : Context) (body : Text) : Text :=
  let aliases := c.aliases body
  if c.config.noAlloc then
    let locals := localSequences body
    markHeap (sliceLocals locals (lowerInScope ⟨c, aliases, locals⟩ (lowerLocals body)))
  else lowerInScope ⟨c, aliases, []⟩ body

end AnchorLowering.Lowering
