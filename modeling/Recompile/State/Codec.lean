import Recompile.Json.Decode
import Recompile.Json.Printer
import Recompile.Json.Reader
import Recompile.State.Basic

/-!
# States as JSON

A state is written as an object with the fields `sources`, `files` and
`used_macro_include`; paths are in path order. What is stored of a unit is a record: the
version of the format, the name of the unit and its state.
-/

set_option autoImplicit false

namespace Recompile

/-- A path, by its spelling. -/
def Path.toJson (p : Path) : Json :=
  .string p.toString

/-- A path, by its spelling. -/
def Path.ofJson? (j : Json) : Option Path :=
  j.text?.map Path.ofString

/-- The paths of a set, in order. -/
def PathSet.toJson (s : PathSet) : Json :=
  .array (s.toList.map Path.toJson)

/-- A set of paths; of several spellings of one path the first stays. -/
def PathSet.ofJson? (j : Json) : Option PathSet :=
  (j.list? Path.ofJson?).map (PathSet.addAll ∅)

namespace FileState

/-- What is remembered of a file, as an object. -/
def toJson (f : FileState) : Json :=
  .record [("fingerprint", .string f.fingerprint.text),
    ("resolved_includes", PathSet.toJson f.resolved)]

/-- What is remembered of a file; only the fingerprint is needed. -/
def ofJson? (j : Json) : Option FileState := do
  let [fingerprint, resolved] ← j.members? ["fingerprint", "resolved_includes"] | none
  let fingerprint ← Json.needed Json.text? fingerprint
  let resolved ← Json.given ∅ PathSet.ofJson? resolved
  some ⟨⟨fingerprint⟩, resolved⟩

end FileState

namespace State

/-- The files of a state; of two entries for one path the later one counts. -/
def filesOfJson? (j : Json) : Option (PathMap FileState) := do
  let fields ← j.fields?
  let entries ← fields.mapM fun f => (FileState.ofJson? f.2).map (Path.ofString f.1, ·)
  some (PathMap.insertAll ∅ entries)

/-- A state, as an object. -/
def toJson (s : State) : Json :=
  .record [("sources", PathSet.toJson s.sources),
    ("files", .record (s.files.entries.map fun e => (e.1.toString, e.2.toJson))),
    ("used_macro_include", .bool s.usedMacroInclude)]

/-- A state, each member of which has its default. -/
def ofJson? (j : Json) : Option State := do
  let [sources, files, used] ← j.members? ["sources", "files", "used_macro_include"] | none
  let sources ← Json.given ∅ PathSet.ofJson? sources
  let files ← Json.given ∅ filesOfJson? files
  let used ← Json.given false Json.bool? used
  some ⟨sources, files, used⟩

/-- A state as a document. -/
def encode (s : State) : List UInt8 :=
  Utf8.encode s.toJson.compact

/-- The state that a document has. -/
def decode? (bytes : List UInt8) : Option State :=
  (Json.ofBytes? bytes).bind ofJson?

end State

/-- What is stored of a unit. -/
structure Record where
  version : Nat
  unit : String
  state : State
  deriving DecidableEq, Repr

namespace Record

/-- The version of the format. -/
def currentVersion : Nat :=
  1

/-- A record, as an object. -/
def toJson (r : Record) : Json :=
  .record [("version", .nat r.version), ("unit_id", .string r.unit), ("state", r.state.toJson)]

/-- A record, all of whose members are needed. -/
def ofJson? (j : Json) : Option Record := do
  let [version, unit, state] ← j.members? ["version", "unit_id", "state"] | none
  let version ← Json.needed (Json.natBelow? UInt32.size) version
  let unit ← Json.needed Json.text? unit
  let state ← Json.needed State.ofJson? state
  some ⟨version, unit, state⟩

/-- A record as a document. -/
def encode (r : Record) : List UInt8 :=
  Utf8.encode r.toJson.compact

/-- The record that a document has. -/
def decode? (bytes : List UInt8) : Option Record :=
  (Json.ofBytes? bytes).bind ofJson?

end Record

end Recompile
