import Recompile.FileTree.Edit
import Recompile.State.Codec

/-!
# Stores

A store keeps the states of build units, each under the name of its unit, and always
replaces a state as a whole. A memory store keeps them in a table. A full store is a
memory store that takes no more states. A directory store keeps a file for each unit;
whatever is not a record of the current version for that very unit counts as no state.
-/

set_option autoImplicit false

namespace Recompile

/-- The states of units, the latest for each unit. -/
abbrev Records : Type :=
  List (String × State)

namespace Records

/-- The state of a unit. -/
def find? (rs : Records) (unit : String) : Option State :=
  (List.find? (fun r => r.1 = unit) rs).map Prod.snd

/-- The records without that of a unit. -/
def remove (rs : Records) (unit : String) : Records :=
  List.filter (fun r => r.1 ≠ unit) rs

/-- The records with the state of a unit. -/
def put (rs : Records) (unit : String) (s : State) : Records :=
  (unit, s) :: rs.remove unit

end Records

/-- Where states are kept. -/
inductive Store where
  | memory (records : Records)
  /-- Takes no more states, but gives and forgets those it has. -/
  | full (records : Records)
  /-- Keeps records as files in a directory. -/
  | directory (root : Path)
  deriving DecidableEq, Repr

/-- Why a store did not do what it was asked to. -/
inductive StoreError where
  | io (f : IoFailure)
  | full
  deriving DecidableEq, Repr

/-- What is wrong with a record. -/
inductive Defect where
  | unreadable (p : Path) (e : OsError)
  | undecodable (p : Path)
  | otherVersion (version : Nat)
  | otherUnit (unit : String)
  deriving DecidableEq, Repr

/-- What a store has for a unit. -/
inductive Loaded where
  | state (s : State)
  | missing
  /-- There is something, but it cannot be used. -/
  | discarded (d : Defect)
  deriving DecidableEq, Repr

/-- The state that a store has for a unit. -/
def Loaded.state? : Loaded → Option State
  | .state s => some s
  | _ => none

/-- A file tree and a store whose files, if it has any, are in that tree. -/
structure Workspace where
  tree : FileTree
  store : Store

namespace Store

/-- The file in which a directory store keeps the record of a unit: its name is the
digest of the unit's name. -/
def recordPath (root : Path) (unit : String) : Path :=
  root.join ⟨Sha256.hexDigest (Utf8.encode unit.toList) ++ ['.', 'j', 's', 'o', 'n']⟩

/-- The state in the bytes of a record, which has to be a current one of the unit. -/
def openRecord (p : Path) (unit : String) (bytes : List UInt8) : Loaded :=
  match Record.decode? bytes with
  | none => .discarded (.undecodable p)
  | some r =>
    if r.version ≠ Record.currentVersion then .discarded (.otherVersion r.version)
    else if r.unit ≠ unit then .discarded (.otherUnit r.unit)
    else .state r.state

/-- What the file of a unit's record has. -/
def loadFile (t : FileTree) (root : Path) (unit : String) : Loaded :=
  let p := recordPath root unit
  match t.read p with
  | .ok bytes => openRecord p unit bytes
  | .error .notFound => .missing
  | .error e => .discarded (.unreadable p e)

/-- The bytes that are stored for a unit. -/
def recordBytes (unit : String) (s : State) : List UInt8 :=
  Record.encode ⟨Record.currentVersion, unit, s⟩

/-- Publishes the record of a unit. -/
def saveFile (t : FileTree) (root : Path) (unit : String) (s : State) :
    FileTree × Except StoreError Unit :=
  match t.publish root (recordPath root unit) (recordBytes unit s) with
  | (t', .ok ()) => (t', .ok ())
  | (t', .error f) => (t', .error (.io f))

/-- Removes the record of a unit; a record that is not there is as good as removed. -/
def forgetFile (t : FileTree) (root : Path) (unit : String) : FileTree × Except StoreError Unit :=
  let p := recordPath root unit
  match t.unlink p with
  | .ok t' => (t', .ok ())
  | .error .notFound => (t, .ok ())
  | .error e => (t, .error (.io ⟨p, e⟩))

end Store

namespace Workspace

/-- What the store has for a unit. -/
def load (w : Workspace) (unit : String) : Loaded :=
  match w.store with
  | .memory rs | .full rs =>
    match rs.find? unit with
    | some s => .state s
    | none => .missing
  | .directory root => Store.loadFile w.tree root unit

/-- Replaces the state of a unit. -/
def save (w : Workspace) (unit : String) (s : State) : Workspace × Except StoreError Unit :=
  match w.store with
  | .memory rs => ({ w with store := .memory (rs.put unit s) }, .ok ())
  | .full _ => (w, .error .full)
  | .directory root =>
    let (tree, result) := Store.saveFile w.tree root unit s
    ({ w with tree := tree }, result)

/-- Forgets the state of a unit. -/
def forget (w : Workspace) (unit : String) : Workspace × Except StoreError Unit :=
  match w.store with
  | .memory rs => ({ w with store := .memory (rs.remove unit) }, .ok ())
  | .full rs => ({ w with store := .full (rs.remove unit) }, .ok ())
  | .directory root =>
    let (tree, result) := Store.forgetFile w.tree root unit
    ({ w with tree := tree }, result)

end Workspace

end Recompile
