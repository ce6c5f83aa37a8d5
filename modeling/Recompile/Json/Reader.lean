import Recompile.Json.Basic
import Recompile.Text.Basic
import Recompile.Text.Utf8

/-!
# Reading JSON

The reader takes a document one symbol at a time, a symbol being a character or a stray
stretch of bytes. Its state is where it stands and, on a stack, the arrays and objects
that are open around that place. Since a state has all that the reader knows,
reading a document is folding the step over its symbols: what a longer document means
depends on its beginning only through the state after it.

The grammar is the strict one: no byte order mark, no trailing comma or text, no control
character inside text, no superfluous zero in front of a number.
-/

set_option autoImplicit false

namespace Recompile.Json.Reader

/-- A part of a text, as it is spelled. -/
inductive Piece where
  /-- A character, spelled as it is or by a letter escape. -/
  | char (c : Char)
  /-- Bytes that are no character. -/
  | stray
  /-- A unit of UTF-16, spelled by its four digits. -/
  | unit (code : Nat)
  deriving DecidableEq, Repr

/-- The characters that pieces spell. Two units that are a surrogate pair spell one
character; half a pair spells none. -/
def charsOf? : List Piece → Option (List Char)
  | [] => some []
  | .char c :: rest => (charsOf? rest).map (c :: ·)
  | .stray :: _ => none
  | .unit high :: .unit low :: rest =>
    if 0xD800 ≤ high ∧ high < 0xDC00 then
      if 0xDC00 ≤ low ∧ low < 0xE000 then
        (charsOf? rest).map
          (Char.ofNat (0x10000 + (high - 0xD800) * 0x400 + (low - 0xDC00)) :: ·)
      else none
    else if 0xDC00 ≤ high ∧ high < 0xE000 then none
    else (charsOf? (.unit low :: rest)).map (Char.ofNat high :: ·)
  | .unit code :: rest =>
    if 0xD800 ≤ code ∧ code < 0xE000 then none
    else (charsOf? rest).map (Char.ofNat code :: ·)

/-- The text that pieces spell. -/
def textOf (pieces : List Piece) : JsonText :=
  (charsOf? pieces).map String.ofList

/-- Where the reader stands inside an escape. -/
inductive Escape where
  /-- Not in an escape. -/
  | closed
  /-- After the backslash. -/
  | opened
  /-- Some of the four digits still to come, with the value of those before. -/
  | digits (owed : Nat) (value : Nat)
  deriving DecidableEq, Repr

/-- A text that has begun: its pieces, the last first, and the escape at its end. -/
structure OpenText where
  pieces : List Piece
  escape : Escape
  deriving DecidableEq, Repr

/-- The character that a letter escape stands for. -/
def letterEscape? : Char → Option Char
  | '"' => some '"'
  | '\\' => some '\\'
  | '/' => some '/'
  | 'b' => some '\x08'
  | 'f' => some '\x0c'
  | 'n' => some '\n'
  | 'r' => some '\r'
  | 't' => some '\t'
  | _ => none

/-- What one symbol does to a text that has begun: it ends it, continues it, or is not
allowed there. -/
inductive TextStep where
  | ends
  | continues (t : OpenText)
  | refused
  deriving DecidableEq, Repr

/-- The effect of one symbol inside a text. -/
def OpenText.step (t : OpenText) (symbol : Option Char) : TextStep :=
  match t.escape, symbol with
  | .closed, none => .continues ⟨.stray :: t.pieces, .closed⟩
  | .closed, some c =>
    if c = '"' then .ends
    else if c = '\\' then .continues ⟨t.pieces, .opened⟩
    else if c.toNat < 0x20 then .refused
    else .continues ⟨.char c :: t.pieces, .closed⟩
  | .opened, some c =>
    if c = 'u' then .continues ⟨t.pieces, .digits 4 0⟩
    else
      match letterEscape? c with
      | some d => .continues ⟨.char d :: t.pieces, .closed⟩
      | none => .refused
  | .digits owed value, some c =>
    match hexValue? c with
    | some d =>
      if owed ≤ 1 then .continues ⟨.unit (value * 16 + d) :: t.pieces, .closed⟩
      else .continues ⟨t.pieces, .digits (owed - 1) (value * 16 + d)⟩
    | none => .refused
  | _, none => .refused

/-- Where the reader stands inside a number. -/
inductive NumberPlace where
  | sign
  /-- After a zero that starts the number. -/
  | zero
  | whole
  | point
  | fraction
  | exponent
  | exponentSign
  | exponentDigits
  deriving DecidableEq, Repr

/-- A number that has begun: its characters, the last first. -/
structure OpenNumber where
  place : NumberPlace
  spelling : List Char
  deriving DecidableEq, Repr

/-- Whether a number may end at a place. -/
def NumberPlace.mayEnd : NumberPlace → Bool
  | .zero | .whole | .fraction | .exponentDigits => true
  | _ => false

/-- The place after one more character. -/
def NumberPlace.next? (place : NumberPlace) (c : Char) : Option NumberPlace :=
  match place with
  | .sign => if c = '0' then some .zero else if c.isDigit then some .whole else none
  | .zero => afterWhole c
  | .whole => if c.isDigit then some .whole else afterWhole c
  | .point => if c.isDigit then some .fraction else none
  | .fraction => if c.isDigit then some .fraction else afterFraction c
  | .exponent =>
    if c = '+' ∨ c = '-' then some .exponentSign
    else if c.isDigit then some .exponentDigits else none
  | .exponentSign => if c.isDigit then some .exponentDigits else none
  | .exponentDigits => if c.isDigit then some .exponentDigits else none
where
  afterFraction (c : Char) : Option NumberPlace :=
    if c = 'e' ∨ c = 'E' then some .exponent else none
  afterWhole (c : Char) : Option NumberPlace :=
    if c = '.' then some .point else afterFraction c

/-- The number with one more character, if that continues it. -/
def OpenNumber.next? (n : OpenNumber) (c : Char) : Option OpenNumber :=
  (n.place.next? c).map fun place => ⟨place, c :: n.spelling⟩

/-- The value of a number that has ended. -/
def OpenNumber.value (n : OpenNumber) : Json :=
  if n.spelling.all Char.isDigit then .nat (Text.ofDecimalDigits n.spelling.reverse)
  else .number (String.ofList n.spelling.reverse)

/-- An array or object that waits for the value of an item or field; what it has
already is kept the last first. -/
inductive Frame where
  | item (done : List Json)
  | field (done : List (JsonText × Json)) (key : JsonText)
  deriving Repr

/-- Where the reader stands. -/
inductive Place where
  /-- A value has to start. -/
  | value
  /-- After the opening bracket: the first item or the closing bracket. -/
  | firstItem
  /-- After the opening brace: the first key or the closing brace. -/
  | firstKey
  /-- After a comma: a key. -/
  | key (done : List (JsonText × Json))
  /-- Inside a key. -/
  | inKey (done : List (JsonText × Json)) (t : OpenText)
  /-- After a key. -/
  | colon (done : List (JsonText × Json)) (key : JsonText)
  /-- Inside a text. -/
  | inText (t : OpenText)
  /-- Inside a number. -/
  | inNumber (n : OpenNumber)
  /-- Inside a word, with what is still missing and what the word means. -/
  | inWord (missing : List Char) (meaning : Json)
  /-- After a value. -/
  | after (j : Json)
  deriving Repr

/-- All that the reader knows about what it has read. -/
structure State where
  place : Place
  stack : List Frame
  deriving Repr

/-- The state before a document. -/
def State.initial : State :=
  ⟨.value, []⟩

/-- Whether a character may stand between the parts of a document. -/
def isSpace (c : Char) : Bool :=
  c = ' ' ∨ c = '\t' ∨ c = '\n' ∨ c = '\r'

/-- The place after the first character of a value. -/
def startValue (stack : List Frame) (c : Char) : Option State :=
  if c = '"' then some ⟨.inText ⟨[], .closed⟩, stack⟩
  else if c = '[' then some ⟨.firstItem, stack⟩
  else if c = '\x7b' then some ⟨.firstKey, stack⟩
  else if c = 'n' then some ⟨.inWord ['u', 'l', 'l'] .null, stack⟩
  else if c = 't' then some ⟨.inWord ['r', 'u', 'e'] (.bool true), stack⟩
  else if c = 'f' then some ⟨.inWord ['a', 'l', 's', 'e'] (.bool false), stack⟩
  else if c = '-' then some ⟨.inNumber ⟨.sign, [c]⟩, stack⟩
  else if c = '0' then some ⟨.inNumber ⟨.zero, [c]⟩, stack⟩
  else if c.isDigit then some ⟨.inNumber ⟨.whole, [c]⟩, stack⟩
  else none

/-- The place after the first character that follows a value. -/
def followValue (stack : List Frame) (j : Json) (c : Char) : Option State :=
  if isSpace c then some ⟨.after j, stack⟩
  else
    match stack with
    | [] => none
    | .item done :: stack =>
      if c = ',' then some ⟨.value, .item (j :: done) :: stack⟩
      else if c = ']' then some ⟨.after (.array (j :: done).reverse), stack⟩
      else none
    | .field done key :: stack =>
      if c = ',' then some ⟨.key ((key, j) :: done), stack⟩
      else if c = '\x7d' then some ⟨.after (.object ((key, j) :: done).reverse), stack⟩
      else none

/-- The state after one more symbol, unless no document goes on like that. -/
def State.step (s : State) (symbol : Option Char) : Option State :=
  match s.place, symbol with
  | .inText t, symbol =>
    match t.step symbol with
    | .ends => some ⟨.after (.text (textOf t.pieces.reverse)), s.stack⟩
    | .continues t => some ⟨.inText t, s.stack⟩
    | .refused => none
  | .inKey done t, symbol =>
    match t.step symbol with
    | .ends => some ⟨.colon done (textOf t.pieces.reverse), s.stack⟩
    | .continues t => some ⟨.inKey done t, s.stack⟩
    | .refused => none
  | .value, some c => if isSpace c then some s else startValue s.stack c
  | .firstItem, some c =>
    if isSpace c then some s
    else if c = ']' then some ⟨.after (.array []), s.stack⟩
    else startValue (.item [] :: s.stack) c
  | .firstKey, some c =>
    if isSpace c then some s
    else if c = '\x7d' then some ⟨.after (.object []), s.stack⟩
    else if c = '"' then some ⟨.inKey [] ⟨[], .closed⟩, s.stack⟩
    else none
  | .key done, some c =>
    if isSpace c then some s
    else if c = '"' then some ⟨.inKey done ⟨[], .closed⟩, s.stack⟩
    else none
  | .colon done key, some c =>
    if isSpace c then some s
    else if c = ':' then some ⟨.value, .field done key :: s.stack⟩
    else none
  | .inNumber n, some c =>
    match n.next? c with
    | some n => some ⟨.inNumber n, s.stack⟩
    | none => if n.place.mayEnd then followValue s.stack n.value c else none
  | .inWord missing meaning, some c =>
    match missing with
    | [] => followValue s.stack meaning c
    | [d] => if c = d then some ⟨.after meaning, s.stack⟩ else none
    | d :: missing => if c = d then some ⟨.inWord missing meaning, s.stack⟩ else none
  | .after j, some c => followValue s.stack j c
  | _, none => none

/-- The value of a document that ends in a state. -/
def State.result? (s : State) : Option Json :=
  match s.stack, s.place with
  | [], .after j => some j
  | [], .inNumber n => if n.place.mayEnd then some n.value else none
  | _, _ => none

end Reader

/-- The value of a document, given as symbols. -/
def ofSymbols? (symbols : List (Option Char)) : Option Json :=
  (symbols.foldlM Reader.State.step Reader.State.initial).bind Reader.State.result?

/-- The value of a document, given as text. -/
def ofText? (text : List Char) : Option Json :=
  ofSymbols? (text.map some)

/-- The value of a document, given as bytes. -/
def ofBytes? (bytes : List UInt8) : Option Json :=
  ofSymbols? (Utf8.decode bytes)

end Recompile.Json
