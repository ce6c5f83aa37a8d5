import Recompile.Text.Basic

/-!
# Digests

Contents of files are told apart by their fingerprints, and units name their records by
digests. A fingerprint that the program makes is a SHA-256 digest in hexadecimal digits; one
that is read from a record may be any text.

A message is padded to whole blocks of sixteen words; each block is mixed into eight words of
state by sixty-four rounds, and the words of the message schedule are made on the way from the
last sixteen.
-/

set_option autoImplicit false

namespace Recompile

namespace Sha256

/-- The eight words that the blocks of a message are mixed into. -/
structure State where
  a : UInt32
  b : UInt32
  c : UInt32
  d : UInt32
  e : UInt32
  f : UInt32
  g : UInt32
  h : UInt32
  deriving DecidableEq, Repr

/-- The state before the first block: the fractional parts of the square roots of the
first eight primes. -/
def State.initial : State :=
  ⟨0x6a09e667, 0xbb67ae85, 0x3c6ef372, 0xa54ff53a, 0x510e527f, 0x9b05688c, 0x1f83d9ab, 0x5be0cd19⟩

/-- The words of a state, in order. -/
def State.words (s : State) : List UInt32 :=
  [s.a, s.b, s.c, s.d, s.e, s.f, s.g, s.h]

/-- The sum of two states, word by word. -/
def State.add (s t : State) : State :=
  ⟨s.a + t.a, s.b + t.b, s.c + t.c, s.d + t.d, s.e + t.e, s.f + t.f, s.g + t.g, s.h + t.h⟩

/-- The constants of the rounds: the fractional parts of the cube roots of the first
sixty-four primes. -/
def roundConstants : List UInt32 :=
  [0x428a2f98, 0x71374491, 0xb5c0fbcf, 0xe9b5dba5, 0x3956c25b, 0x59f111f1, 0x923f82a4, 0xab1c5ed5,
   0xd807aa98, 0x12835b01, 0x243185be, 0x550c7dc3, 0x72be5d74, 0x80deb1fe, 0x9bdc06a7, 0xc19bf174,
   0xe49b69c1, 0xefbe4786, 0x0fc19dc6, 0x240ca1cc, 0x2de92c6f, 0x4a7484aa, 0x5cb0a9dc, 0x76f988da,
   0x983e5152, 0xa831c66d, 0xb00327c8, 0xbf597fc7, 0xc6e00bf3, 0xd5a79147, 0x06ca6351, 0x14292967,
   0x27b70a85, 0x2e1b2138, 0x4d2c6dfc, 0x53380d13, 0x650a7354, 0x766a0abb, 0x81c2c92e, 0x92722c85,
   0xa2bfe8a1, 0xa81a664b, 0xc24b8b70, 0xc76c51a3, 0xd192e819, 0xd6990624, 0xf40e3585, 0x106aa070,
   0x19a4c116, 0x1e376c08, 0x2748774c, 0x34b0bcb5, 0x391c0cb3, 0x4ed8aa4a, 0x5b9cca4f, 0x682e6ff3,
   0x748f82ee, 0x78a5636f, 0x84c87814, 0x8cc70208, 0x90befffa, 0xa4506ceb, 0xbef9a3f7, 0xc67178f2]

/-- A word rotated to the right by fewer than 32 places. -/
def rotateRight (x : UInt32) (n : UInt32) : UInt32 :=
  (x >>> n) ||| (x <<< (32 - n))

/-- One round, for the round's constant and its word of the message schedule. -/
def State.round (s : State) (constant word : UInt32) : State :=
  let sum1 := rotateRight s.e 6 ^^^ rotateRight s.e 11 ^^^ rotateRight s.e 25
  let choice := (s.e &&& s.f) ^^^ (~~~s.e &&& s.g)
  let left := s.h + sum1 + choice + constant + word
  let sum0 := rotateRight s.a 2 ^^^ rotateRight s.a 13 ^^^ rotateRight s.a 22
  let majority := (s.a &&& s.b) ^^^ (s.a &&& s.c) ^^^ (s.b &&& s.c)
  ⟨left + sum0 + majority, s.a, s.b, s.c, s.d + left, s.e, s.f, s.g⟩

/-- The word of the message schedule that follows sixteen others. -/
def scheduleNext (window : List UInt32) : UInt32 :=
  let w1 := window.getD 1 0
  let w14 := window.getD 14 0
  let small0 := rotateRight w1 7 ^^^ rotateRight w1 18 ^^^ (w1 >>> 3)
  let small1 := rotateRight w14 17 ^^^ rotateRight w14 19 ^^^ (w14 >>> 10)
  window.getD 0 0 + small0 + window.getD 9 0 + small1

/-- The rounds for the given constants; the window holds the next words of the
message schedule. -/
def rounds : List UInt32 → List UInt32 → State → State
  | [], _, s => s
  | k :: ks, window, s =>
    rounds ks (window.drop 1 ++ [scheduleNext window]) (s.round k (window.getD 0 0))

/-- A state after one block of sixteen words. -/
def State.mix (s : State) (block : List UInt32) : State :=
  s.add (rounds roundConstants block s)

/-- A state after the given words; the words of a block are gathered, the last first,
until there are sixteen. -/
def absorb : State → List UInt32 → List UInt32 → State
  | s, _, [] => s
  | s, gathered, w :: ws =>
    if gathered.length = 15 then absorb (s.mix (w :: gathered).reverse) [] ws
    else absorb s (w :: gathered) ws

/-- A message with a one bit, zeros up to eight bytes before the end of a block, and
its length in bits. -/
def pad (message : List UInt8) : List UInt8 :=
  let size := message.length
  let zeros := (119 - size % 64) % 64
  let bits := 8 * size
  let length := [56, 48, 40, 32, 24, 16, 8, 0].map fun shift => UInt8.ofNat (bits >>> shift)
  message ++ 0x80 :: List.replicate zeros 0 ++ length

/-- Four bytes a word, the highest first. -/
def wordsOfBytes : List UInt8 → List UInt32
  | a :: b :: c :: d :: rest =>
    ((a.toUInt32 <<< 24) ||| (b.toUInt32 <<< 16) ||| (c.toUInt32 <<< 8) ||| d.toUInt32)
      :: wordsOfBytes rest
  | _ => []

/-- The eight hexadecimal digits of a word. -/
def hexOfWord (w : UInt32) : List Char :=
  [28, 24, 20, 16, 12, 8, 4, 0].map fun shift => hexDigit ((w.toNat >>> shift) % 16)

/-- The digest of a message, as 64 hexadecimal digits. -/
def hexDigest (message : List UInt8) : List Char :=
  (absorb .initial [] (wordsOfBytes (pad message))).words.flatMap hexOfWord

end Sha256

/-! ## Fingerprints -/

/-- What is remembered of the content of a file. -/
structure Fingerprint where
  text : String
  deriving DecidableEq, Repr, Inhabited

namespace Fingerprint

/-- The fingerprint of a content. -/
def ofBytes (bytes : List UInt8) : Fingerprint :=
  ⟨String.ofList (Sha256.hexDigest bytes)⟩

/-- The characters that make up exactly so many bytes at the start of a text. -/
def leadingBytes? : Nat → List Char → Option (List Char)
  | 0, _ => some []
  | _ + 1, [] => none
  | n + 1, c :: cs =>
    if c.utf8Size ≤ n + 1 then (leadingBytes? (n + 1 - c.utf8Size) cs).map (c :: ·) else none

/-- The first eight bytes of a fingerprint, or all of it if no character ends there. -/
def short (f : Fingerprint) : String :=
  match leadingBytes? 8 f.text.toList with
  | some cs => String.ofList cs
  | none => f.text

end Fingerprint

end Recompile
