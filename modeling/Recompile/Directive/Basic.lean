/-!
# Directives

What a scan of a source file keeps of it: its include directives and the events that
change its macros, each with the line on which it starts. Conditional blocks are not
decided, so an `#undef` inside one is only noted as conditional.
-/

set_option autoImplicit false

namespace Recompile

/-- How an include directive names its target. -/
inductive IncludeForm where
  /-- `#include "target"`: the directory of the file is searched first. -/
  | quoted
  /-- `#include <target>`: only the search roots are searched. -/
  | system
  /-- `#include NAME`: the macro says what is included. -/
  | macroName
  deriving DecidableEq, Repr, Inhabited

/-- An include directive. -/
structure Include where
  form : IncludeForm
  /-- The path between the delimiters, or all that follows the keyword. -/
  target : String
  /-- Whether the keyword is `#import`. -/
  isImport : Bool
  line : Nat
  deriving DecidableEq, Repr, Inhabited

/-- A directive as it would be written. -/
def Include.written (i : Include) : String :=
  let keyword := if i.isImport then "#import " else "#include "
  match i.form with
  | .quoted => keyword ++ "\"" ++ i.target ++ "\""
  | .system => keyword ++ "<" ++ i.target ++ ">"
  | .macroName => keyword ++ i.target

/-- A change to the macros of a file. -/
inductive MacroEvent where
  /-- `#define NAME value` -/
  | define (name value : String) (line : Nat)
  /-- `#define NAME(…) …`: no such macro can name an include target. -/
  | defineFunction (name : String) (line : Nat)
  /-- `#undef NAME`, conditional if it stands inside a block that may not apply. -/
  | undefine (name : String) (conditional : Bool) (line : Nat)
  deriving DecidableEq, Repr, Inhabited

namespace MacroEvent

/-- The line of an event. -/
def line : MacroEvent → Nat
  | .define _ _ line | .defineFunction _ line | .undefine _ _ line => line

/-- The macro that an event changes. -/
def name : MacroEvent → String
  | .define name _ _ | .defineFunction name _ | .undefine name _ _ => name

end MacroEvent

/-- All that a scan keeps of a file, in the order of its lines. -/
structure Directives where
  includes : List Include
  macros : List MacroEvent
  deriving DecidableEq, Repr, Inhabited

end Recompile
