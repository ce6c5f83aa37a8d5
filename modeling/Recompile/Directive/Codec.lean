import Recompile.Directive.Basic
import Recompile.Json.Decode

/-!
# Directives as JSON
-/

set_option autoImplicit false

namespace Recompile

namespace IncludeForm

/-- The name of a form. -/
def label : IncludeForm → String
  | .quoted => "Quoted"
  | .system => "System"
  | .macroName => "MacroReference"

/-- The form with a given name. -/
def ofLabel? (name : String) : Option IncludeForm :=
  [quoted, system, macroName].find? fun form => form.label = name

/-- A form, by its name. -/
def ofJson? (j : Json) : Option IncludeForm := do
  let (name, body) ← j.choice?
  if Json.isBare body then ofLabel? name else none

end IncludeForm

namespace Include

/-- A directive, as an object. -/
def toJson (i : Include) : Json :=
  .record [("kind", .string i.form.label), ("target", .string i.target),
    ("import", .bool i.isImport), ("line", .nat i.line)]

/-- A directive, all of whose members are needed. -/
def ofJson? (j : Json) : Option Include := do
  let [form, target, isImport, line] ← j.members? ["kind", "target", "import", "line"] | none
  let form ← Json.needed IncludeForm.ofJson? form
  let target ← Json.needed Json.text? target
  let isImport ← Json.needed Json.bool? isImport
  let line ← Json.needed Json.size? line
  some ⟨form, target, isImport, line⟩

end Include

namespace MacroEvent

/-- An event, as an object with its kind as the only name. -/
def toJson : MacroEvent → Json
  | .define name value line =>
    .record [("Define",
      .record [("name", .string name), ("value", .string value), ("line", .nat line)])]
  | .defineFunction name line =>
    .record [("DefineFunction", .record [("name", .string name), ("line", .nat line)])]
  | .undefine name conditional line =>
    .record [("Undef",
      .record [("name", .string name), ("conditional", .bool conditional), ("line", .nat line)])]

/-- The event of a kind, from what belongs to it. -/
def ofBody? (kind : String) (body : Json) : Option MacroEvent :=
  if kind = "Define" then do
    let [name, value, line] ← body.objectMembers? ["name", "value", "line"] | none
    some (.define (← Json.needed Json.text? name) (← Json.needed Json.text? value)
      (← Json.needed Json.size? line))
  else if kind = "DefineFunction" then do
    let [name, line] ← body.objectMembers? ["name", "line"] | none
    some (.defineFunction (← Json.needed Json.text? name) (← Json.needed Json.size? line))
  else if kind = "Undef" then do
    let [name, conditional, line] ← body.objectMembers? ["name", "conditional", "line"] | none
    some (.undefine (← Json.needed Json.text? name) (← Json.needed Json.bool? conditional)
      (← Json.needed Json.size? line))
  else none

/-- An event, by its kind and what belongs to it. -/
def ofJson? (j : Json) : Option MacroEvent := do
  let (kind, body) ← j.choice?
  ofBody? kind (← body)

end MacroEvent

namespace Directives

/-- The directives of a text, both members of which are needed. -/
def ofJson? (j : Json) : Option Directives := do
  let [includes, macros] ← j.members? ["includes", "macros"] | none
  let includes ← Json.needed (Json.list? Include.ofJson?) includes
  let macros ← Json.needed (Json.list? MacroEvent.ofJson?) macros
  some ⟨includes, macros⟩

end Directives

end Recompile
