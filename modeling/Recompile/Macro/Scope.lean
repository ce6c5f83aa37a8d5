import Recompile.Directive.Basic
import Recompile.Directive.Parser
import Recompile.Text.Basic

/-!
# Macros in scope

What is known about each macro at one place of one file: the macros given from outside
and the events before that place. No conditional block is decided, so every definition
that may be in effect counts. A macro names an include target only if nothing else can
be meant: it has one value in all, no parameters, and no `#undef` may have removed it.
-/

set_option autoImplicit false

namespace Recompile

/-- What is known about one macro. A macro without values is undefined. -/
structure MacroBinding where
  /-- The values that may be in effect, each once. -/
  values : List String
  /-- Whether it may have parameters. -/
  functionLike : Bool
  /-- Whether a conditional `#undef` may have removed it. -/
  maybeUndefined : Bool
  deriving DecidableEq, Repr

namespace MacroBinding

/-- Nothing is known: the macro is undefined. -/
def undefined : MacroBinding :=
  ⟨[], false, false⟩

/-- One definition more. -/
def addValue (b : MacroBinding) (value : String) : MacroBinding :=
  if value ∈ b.values then b else { b with values := b.values ++ [value] }

/-- The value, if there is no doubt about it. -/
def value? (b : MacroBinding) : Option String :=
  match b.values with
  | [value] => if b.functionLike || b.maybeUndefined then none else some value
  | _ => none

end MacroBinding

/-- What is known about every macro. -/
structure MacroScope where
  binding : String → MacroBinding

namespace MacroScope

/-- The scope in which every macro is undefined. -/
def empty : MacroScope :=
  ⟨fun _ => .undefined⟩

/-- The scope with another binding for one name. -/
def set (s : MacroScope) (name : String) (b : MacroBinding) : MacroScope :=
  ⟨fun n => if n = name then b else s.binding n⟩

/-- The scope of macros given from outside, the blanks around their values removed. Of
two values for one name the later one counts. -/
def ofExternal (macros : List (String × String)) : MacroScope :=
  macros.foldl (fun s m =>
    s.set m.1 ⟨[String.ofList (Text.trim m.2.toList)], false, false⟩) empty

/-- The scope after an event. -/
def apply (s : MacroScope) : MacroEvent → MacroScope
  | .define name value _ => s.set name ((s.binding name).addValue value)
  | .defineFunction name _ => s.set name { s.binding name with functionLike := true }
  | .undefine name false _ => s.set name .undefined
  | .undefine name true _ => s.set name { s.binding name with maybeUndefined := true }

/-- The scope after several events. -/
def applyAll (s : MacroScope) (events : List MacroEvent) : MacroScope :=
  events.foldl apply s

/-- Whether a text is an identifier. -/
def isIdentifier (cs : List Char) : Bool :=
  match cs with
  | [] => false
  | c :: rest => isIdentStart c && rest.all isIdentChar

/-- What stands between delimiters that enclose a text, if that is something and the
closing one does not occur in it. -/
def enclosed? (opening closing : Char) (cs : List Char) : Option (List Char) :=
  match cs with
  | [] => none
  | c :: rest =>
    if c = opening ∧ rest.getLast? = some closing then
      let inner := rest.dropLast
      if inner ≠ [] ∧ closing ∉ inner then some inner else none
    else none

/-- The include target that a value spells. -/
def target? (value : String) : Option (IncludeForm × String) :=
  match enclosed? '"' '"' value.toList with
  | some inner => some (.quoted, String.ofList inner)
  | none => (enclosed? '<' '>' value.toList).map fun inner => (.system, String.ofList inner)

/-- The most macros that are looked up for one directive. -/
def hopLimit : Nat :=
  16

/-- The include target that a name stands for, over at most the given number of macros. -/
def expandWithin (s : MacroScope) : Nat → String → Option (IncludeForm × String)
  | 0, _ => none
  | hops + 1, name =>
    if isIdentifier name.toList then
      match (s.binding name).value? with
      | none => none
      | some value =>
        match target? value with
        | some target => some target
        | none => s.expandWithin hops value
    else none

/-- The one include target that a name stands for. A value that is a name itself is
looked up in turn; a circle of names never comes to a target. -/
def expand (s : MacroScope) (name : String) : Option (IncludeForm × String) :=
  s.expandWithin hopLimit name

end MacroScope

end Recompile
