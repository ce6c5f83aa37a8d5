import Recompile.Config.Basic
import Recompile.State.Codec

/-!
# Configurations as JSON
-/

set_option autoImplicit false

namespace Recompile

namespace CompileMode

/-- The name of a mode. -/
def label : CompileMode → String
  | .incremental => "Incremental"
  | .clean => "Clean"

/-- The mode with a given name. -/
def ofLabel? (name : String) : Option CompileMode :=
  [incremental, clean].find? fun mode => mode.label = name

/-- A mode, by its name. -/
def ofJson? (j : Json) : Option CompileMode := do
  let (name, body) ← j.choice?
  if Json.isBare body then ofLabel? name else none

end CompileMode

namespace Config

/-- Macros, as an object with their values. -/
def macrosToJson (macros : List (String × String)) : Json :=
  .record (macros.map fun m => (m.1, .string m.2))

/-- Macros, the later of two with one name counting. -/
def macrosOfJson? (j : Json) : Option (List (String × String)) := do
  let fields ← j.fields?
  let macros ← fields.mapM fun f => f.2.text?.map (f.1, ·)
  some (macros.foldl (fun c m => c.addMacro m.1 m.2) (ofUnit "")).macros

/-- A number of workers, or `null` for no bound. -/
def workersOfJson? : Json → Option (Option Nat)
  | .null => some none
  | j => j.size?.map some

/-- A configuration, as an object. -/
def toJson (c : Config) : Json :=
  .record [("unit_id", .string c.unit),
    ("include_roots", .array (c.roots.map Path.toJson)),
    ("sources", .array (c.sources.map Path.toJson)),
    ("macros", macrosToJson c.macros),
    ("imports_are_includes", .bool c.imports),
    ("mode", .string c.mode.label),
    ("discover_inputs", .bool c.discoverInputs),
    ("max_parallel", (c.maxParallel.map Json.nat).getD .null)]

/-- A configuration; only the unit is needed, and each other member has its default. -/
def ofJson? (j : Json) : Option Config := do
  let [unit, roots, sources, macros, imports, mode, discover, workers] ←
    j.members? ["unit_id", "include_roots", "sources", "macros", "imports_are_includes",
      "mode", "discover_inputs", "max_parallel"] | none
  some
    { unit := ← Json.needed Json.text? unit
      roots := ← Json.given [] (Json.list? Path.ofJson?) roots
      sources := ← Json.given [] (Json.list? Path.ofJson?) sources
      macros := ← Json.given [] macrosOfJson? macros
      imports := ← Json.given false Json.bool? imports
      mode := ← Json.given .incremental CompileMode.ofJson? mode
      discoverInputs := ← Json.given true Json.bool? discover
      maxParallel := ← Json.given none workersOfJson? workers }

/-- The configuration that a document has. -/
def decode? (text : List Char) : Option Config :=
  (Json.ofText? text).bind ofJson?

end Config

end Recompile
