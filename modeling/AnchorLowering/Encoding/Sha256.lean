import AnchorLowering.Text.Basic

/-!
# SHA-256

The hash of a list of bytes: the padded message is cut into blocks of sixteen words, each block is
extended to a schedule of sixty-four words, and the schedule is mixed into a state of eight words.
-/

namespace AnchorLowering.Sha256

abbrev Word := UInt32

def rotate (n : Word) (x : Word) : Word := (x >>> n) ||| (x <<< (32 - n))

def roundConstants : List Word :=
  [0x428a2f98, 0x71374491, 0xb5c0fbcf, 0xe9b5dba5, 0x3956c25b, 0x59f111f1, 0x923f82a4, 0xab1c5ed5,
   0xd807aa98, 0x12835b01, 0x243185be, 0x550c7dc3, 0x72be5d74, 0x80deb1fe, 0x9bdc06a7, 0xc19bf174,
   0xe49b69c1, 0xefbe4786, 0x0fc19dc6, 0x240ca1cc, 0x2de92c6f, 0x4a7484aa, 0x5cb0a9dc, 0x76f988da,
   0x983e5152, 0xa831c66d, 0xb00327c8, 0xbf597fc7, 0xc6e00bf3, 0xd5a79147, 0x06ca6351, 0x14292967,
   0x27b70a85, 0x2e1b2138, 0x4d2c6dfc, 0x53380d13, 0x650a7354, 0x766a0abb, 0x81c2c92e, 0x92722c85,
   0xa2bfe8a1, 0xa81a664b, 0xc24b8b70, 0xc76c51a3, 0xd192e819, 0xd6990624, 0xf40e3585, 0x106aa070,
   0x19a4c116, 0x1e376c08, 0x2748774c, 0x34b0bcb5, 0x391c0cb3, 0x4ed8aa4a, 0x5b9cca4f, 0x682e6ff3,
   0x748f82ee, 0x78a5636f, 0x84c87814, 0x8cc70208, 0x90befffa, 0xa4506ceb, 0xbef9a3f7, 0xc67178f2]

structure State where
  a : Word
  b : Word
  c : Word
  d : Word
  e : Word
  f : Word
  g : Word
  h : Word

def State.start : State :=
  ⟨0x6a09e667, 0xbb67ae85, 0x3c6ef372, 0xa54ff53a, 0x510e527f, 0x9b05688c, 0x1f83d9ab, 0x5be0cd19⟩

/-- The sum of two states, word by word. -/
def State.add (s t : State) : State :=
  ⟨s.a + t.a, s.b + t.b, s.c + t.c, s.d + t.d, s.e + t.e, s.f + t.f, s.g + t.g, s.h + t.h⟩

def State.words (s : State) : List Word := [s.a, s.b, s.c, s.d, s.e, s.f, s.g, s.h]

/-- One round, with the sum of its constant and its word of the schedule. -/
def State.round (s : State) (k : Word) : State :=
  let mixE := rotate 6 s.e ^^^ rotate 11 s.e ^^^ rotate 25 s.e
  let choose := (s.e &&& s.f) ^^^ (~~~s.e &&& s.g)
  let mixA := rotate 2 s.a ^^^ rotate 13 s.a ^^^ rotate 22 s.a
  let majority := (s.a &&& s.b) ^^^ (s.a &&& s.c) ^^^ (s.b &&& s.c)
  let x := s.h + mixE + choose + k
  ⟨x + mixA + majority, s.a, s.b, s.c, s.d + x, s.e, s.f, s.g⟩

/-- The next word of a schedule, from the words before it, latest first. -/
def nextWord (recent : List Word) : Word :=
  let x := recent.getD 14 0
  let y := recent.getD 1 0
  recent.getD 15 0 + (rotate 7 x ^^^ rotate 18 x ^^^ (x >>> 3)) + recent.getD 6 0
    + (rotate 17 y ^^^ rotate 19 y ^^^ (y >>> 10))

/-- Adds `n` words to a schedule that is kept latest first. -/
def extend : Nat → List Word → List Word
  | 0, recent => recent
  | n + 1, recent => extend n (nextWord recent :: recent)

/-- Mixes a block of sixteen words into the state. -/
def State.absorb (s : State) (block : List Word) : State :=
  let schedule := (extend 48 block.reverse).reverse
  s.add ((roundConstants.zip schedule).foldl (fun t r => t.round (r.1 + r.2)) s)

/-- A number as eight bytes, highest first. -/
def lengthBytes (n : Nat) : List UInt8 :=
  (List.range 8).reverse.map fun i => UInt8.ofNat (n >>> (8 * i))

/-- The message with its end mark, zeros up to whole blocks, and its length in bits. -/
def pad (message : List UInt8) : List UInt8 :=
  message ++ 0x80 :: List.replicate ((119 - message.length % 64) % 64) 0
    ++ lengthBytes (8 * message.length)

/-- The words of a list of bytes, highest byte first. -/
def toWords : List UInt8 → List Word
  | a :: b :: c :: d :: rest =>
    (a.toUInt32 <<< 24 ||| b.toUInt32 <<< 16 ||| c.toUInt32 <<< 8 ||| d.toUInt32) :: toWords rest
  | _ => []

def wordBytes (w : Word) : List UInt8 :=
  [(w >>> 24).toUInt8, (w >>> 16).toUInt8, (w >>> 8).toUInt8, w.toUInt8]

def absorbBlocks : Nat → List Word → State → State
  | 0, _, s => s
  | n + 1, words, s => absorbBlocks n (words.drop 16) (s.absorb (words.take 16))

def hash (message : List UInt8) : List UInt8 :=
  let words := toWords (pad message)
  (absorbBlocks (words.length / 16) words .start).words.flatMap wordBytes

theorem length_hash (message : List UInt8) : (hash message).length = 32 := by
  simp [hash, State.words, wordBytes]

end AnchorLowering.Sha256
