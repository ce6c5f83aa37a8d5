/-!
# UTF-8

Bytes are read one at a time. Between characters a byte either is a character of
its own, opens a longer one, or is out of place; inside a character it has to lie in
the range that the bytes before it leave open. Bytes that belong to no character are
gathered into stretches as long as they could still have become a character, and
each stretch reads as one `none`. Reading text for meaning puts the replacement
character there; reading it strictly refuses it.
-/

set_option autoImplicit false

namespace Recompile.Utf8

/-- A character that has begun: its bits so far, how many bytes it still needs, and
the range in which the next one has to lie. -/
structure Pending where
  bits : Nat
  owed : Nat
  low : Nat
  high : Nat
  deriving DecidableEq, Repr

/-- What a byte means between two characters. -/
inductive Lead where
  /-- A character of one byte. -/
  | single (c : Char)
  /-- The first byte of a longer character. -/
  | opens (p : Pending)
  /-- No character starts with this byte. -/
  | stray
  deriving DecidableEq, Repr

/-- The meaning of a byte between two characters. Overlong forms, surrogates and code
points above `0x10FFFF` are excluded by the range of the second byte. -/
def lead (byte : UInt8) : Lead :=
  let b := byte.toNat
  if b < 0x80 then .single (Char.ofNat b)
  else if b < 0xC2 then .stray
  else if b < 0xE0 then .opens ⟨b - 0xC0, 1, 0x80, 0xBF⟩
  else if b = 0xE0 then .opens ⟨0, 2, 0xA0, 0xBF⟩
  else if b = 0xED then .opens ⟨0xD, 2, 0x80, 0x9F⟩
  else if b < 0xF0 then .opens ⟨b - 0xE0, 2, 0x80, 0xBF⟩
  else if b = 0xF0 then .opens ⟨0, 3, 0x90, 0xBF⟩
  else if b < 0xF4 then .opens ⟨b - 0xF0, 3, 0x80, 0xBF⟩
  else if b = 0xF4 then .opens ⟨4, 3, 0x80, 0x8F⟩
  else .stray

/-- What a byte between two characters completes, and what it leaves pending. -/
def enter (byte : UInt8) : List (Option Char) × Option Pending :=
  match lead byte with
  | .single c => ([some c], none)
  | .opens p => ([], some p)
  | .stray => ([none], none)

/-- What a byte completes, and what it leaves pending. -/
def step : Option Pending → UInt8 → List (Option Char) × Option Pending
  | none, byte => enter byte
  | some p, byte =>
    let b := byte.toNat
    if p.low ≤ b ∧ b ≤ p.high then
      let bits := p.bits * 64 + (b - 0x80)
      match p.owed with
      | 0 | 1 => ([some (Char.ofNat bits)], none)
      | n + 2 => ([], some ⟨bits, n + 1, 0x80, 0xBF⟩)
    else
      let next := enter byte
      (none :: next.1, next.2)

/-- The characters of the bytes, from a given point on. A character that the end cuts
off is a stray stretch as well. -/
def decodeFrom : Option Pending → List UInt8 → List (Option Char)
  | none, [] => []
  | some _, [] => [none]
  | pending, byte :: bytes =>
    (step pending byte).1 ++ decodeFrom (step pending byte).2 bytes

/-- The characters of the bytes, with `none` for each stray stretch. -/
def decode (bytes : List UInt8) : List (Option Char) :=
  decodeFrom none bytes

/-- The text of the bytes, with the replacement character for each stray stretch. -/
def decodeLossy (bytes : List UInt8) : List Char :=
  (decode bytes).map fun symbol => symbol.getD '\uFFFD'

/-- The text of the bytes, if they are well-formed. -/
def decode? (bytes : List UInt8) : Option (List Char) :=
  (decode bytes).mapM id

/-- The bytes of a text. -/
def encode (cs : List Char) : List UInt8 :=
  cs.flatMap String.utf8EncodeChar

end Recompile.Utf8
