/-!
# JSON values

Values as they are written. An object keeps its fields in order, repeated ones
included, since what a repetition means is for the reader of the object to say. Text
may be spelled by escapes that name half a surrogate pair, or by bytes that are not
UTF-8: such text is well-formed as a part of a document that nobody looks at, so it is
kept as `none`.
-/

set_option autoImplicit false

namespace Recompile

/-- A piece of text in a document, or `none` if it is spelled but cannot be read. -/
abbrev JsonText : Type :=
  Option String

/-- A JSON value. -/
inductive Json where
  | null
  | bool (b : Bool)
  /-- A number written with digits alone. -/
  | nat (n : Nat)
  /-- A number written with a sign, a fraction or an exponent. -/
  | number (spelling : String)
  | text (t : JsonText)
  | array (items : List Json)
  | object (fields : List (JsonText × Json))
  deriving Repr, Inhabited

namespace Json

/-- A text that can be read. -/
def string (s : String) : Json :=
  .text (some s)

/-- An object with readable keys. -/
def record (fields : List (String × Json)) : Json :=
  .object (fields.map fun f => (some f.1, f.2))

end Json

end Recompile
