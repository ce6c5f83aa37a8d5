import Recompile.Json.Basic

/-!
# Decoding JSON values

A decoder says what a value means for the program, or that it means nothing. A record is
written as an object or as an array with the fields in their order; an object may have
further fields, but none of its own twice. A choice is written as the name of an
alternative, or as an object whose one field is the name with what belongs to it; the
fields that belong to an alternative are written as an object only.
-/

set_option autoImplicit false

namespace Recompile.Json

variable {α : Type}

/-- A readable text. -/
def text? : Json → Option String
  | .text t => t
  | _ => none

/-- A truth value. -/
def bool? : Json → Option Bool
  | .bool b => some b
  | _ => none

/-- A number written with digits alone, if it is below a bound. -/
def natBelow? (bound : Nat) : Json → Option Nat
  | .nat n => if n < bound then some n else none
  | _ => none

/-- A number that fits into 64 bits. -/
def size? : Json → Option Nat :=
  natBelow? UInt64.size

/-- An array of items of one kind. -/
def list? (item : Json → Option α) : Json → Option (List α)
  | .array items => items.mapM item
  | _ => none

/-- The fields of an object, if all keys are readable. -/
def fields? : Json → Option (List (String × Json))
  | .object fields => fields.mapM fun f => f.1.map (·, f.2)
  | _ => none

/-- The value of a field: at most one field may have that name. -/
def uniqueField? (fields : List (String × Json)) (name : String) : Option (Option Json) :=
  match fields.filter fun f => f.1 = name with
  | [] => some none
  | [f] => some (some f.2)
  | _ => none

/-- The values of the fields of an object, where they are given. -/
def objectMembers? (names : List String) (j : Json) : Option (List (Option Json)) := do
  names.mapM (uniqueField? (← j.fields?))

/-- The values of the fields of a record, where they are given. -/
def members? (names : List String) : Json → Option (List (Option Json))
  | .array items =>
    if items.length ≤ names.length then
      some (items.map some ++ List.replicate (names.length - items.length) none)
    else none
  | j => j.objectMembers? names

/-- A field that has to be given. -/
def needed (decode : Json → Option α) : Option Json → Option α
  | some j => decode j
  | none => none

/-- A field that has a meaning when it is not given. -/
def given (default : α) (decode : Json → Option α) : Option Json → Option α
  | some j => decode j
  | none => some default

/-- The alternative of a choice, and what belongs to it. -/
def choice? : Json → Option (String × Option Json)
  | .text (some name) => some (name, none)
  | .object [(some name, body)] => some (name, some body)
  | _ => none

/-- Whether an alternative to which nothing belongs is written as such. -/
def isBare : Option Json → Bool
  | none => true
  | some .null => true
  | some _ => false

end Recompile.Json
