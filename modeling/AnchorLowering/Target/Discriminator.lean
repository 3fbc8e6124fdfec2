import AnchorLowering.Json.Printer
import AnchorLowering.Layout.BoundedSequence

/-!
# Discriminators

Eight bytes tell the instructions of a program apart. They derive from the hash of the
instruction's name in lower case with underscores, or are a number.
-/

namespace AnchorLowering.Discriminator

def size : Nat := 8

/-- Puts an underscore before each upper-case letter that follows another character than an
underscore, and writes all letters in lower case; `previous` is the character before. -/
def snakeFrom : Option Char → Text → Text
  | _, [] => []
  | previous, c :: rest =>
    let apart := isUpper c && previous.any (· != '_')
    (if apart then '_' :: lowerForm c else lowerForm c) ++ snakeFrom (some c) rest

def snakeCase (name : Text) : Text := snakeFrom none name

def bytesOf (t : Text) : Buffer := t.flatMap String.utf8EncodeChar

/-- The discriminator that derives from a name under a hash. -/
def ofName (hash : Buffer → Buffer) (name : Text) : Buffer :=
  (hash (bytesOf ("global:".toList ++ snakeCase name))).take size

def limit : Nat := Buffer.limit size

/-- The discriminator that is a number, lowest byte first. -/
def ofIndex (index : Nat) : Buffer := Buffer.ofNat size index

/-- The discriminator that is a number; none for a number that does not fit. -/
def ofIndex? (index : Int) : Option Buffer :=
  if 0 ≤ index ∧ index < limit then some (ofIndex index.toNat) else none

def hex (b : Buffer) : Text := b.flatMap fun byte => Json.hexDigits 2 byte.toNat

structure Collision where
  first : Text
  second : Text
  discriminator : Buffer
  deriving DecidableEq

def Collision.message (c : Collision) : Text :=
  Text.concat ["Instructions '", c.first, "' and '", c.second, "' share discriminator ",
    hex c.discriminator]

/-- The first collision of a list, where `seen` are the entries before it. -/
def collisionFrom? : List (Text × Buffer) → List (Text × Buffer) → Option Collision
  | _, [] => none
  | seen, (name, d) :: rest =>
    match seen.find? fun e => e.2 == d with
    | some (first, _) => some ⟨first, name, d⟩
    | none => collisionFrom? (seen ++ [(name, d)]) rest

/-- The first entry whose discriminator occurred before, with the earliest entry that has it. -/
def collision? (entries : List (Text × Buffer)) : Option Collision := collisionFrom? [] entries

end AnchorLowering.Discriminator
