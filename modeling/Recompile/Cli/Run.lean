import Recompile.Cli.Options
import Recompile.Verdict
import Recompile.Workspace

/-!
# Running a command line

One invocation judges the sources of a unit and prints the verdict. The new state is
stored at once, unless the invocation is a trial or puts the state into a file, from
which a later invocation stores it.
-/

set_option autoImplicit false

namespace Recompile.Cli

/-- Why an invocation fails. -/
inductive Failure where
  | config (e : ConfigError)
  | io (f : IoFailure)
  | os (e : OsError)
  /-- The file of a pending state has no state. -/
  | undecodable
  deriving DecidableEq, Repr

/-- How an invocation ends. -/
inductive Outcome where
  | help
  | version
  | misuse
  | failed (f : Failure)
  /-- All went well, and this is printed. -/
  | printed (text : List Char)
  deriving DecidableEq, Repr

/-- The name of the command and its version. -/
def versionText : String :=
  "native-depend 0.1.0\n"

/-- A macro as it is defined on the command line: a name, and a value after the first
equals sign, which is `1` if there is none. -/
def macroOf (define : String) : String × String :=
  let cs := define.toList
  let name := String.ofList (Text.trim (cs.takeWhile (· ≠ '=')))
  match cs.dropWhile (· ≠ '=') with
  | [] => (name, "1")
  | _ :: value => (name, String.ofList value)

namespace Options

/-- The name of the unit. -/
def unitName (o : Options) : String :=
  o.unit.getD ""

/-- The directory of the store. -/
def storeRoot (o : Options) : Path :=
  o.stateDir.getD (.ofString ".native-state")

/-- The configuration that the options make. -/
def config (o : Options) : Config :=
  let base : Config :=
    { Config.ofUnit o.unitName with
      roots := o.roots
      sources := o.sources
      imports := o.imports
      mode := if o.clean then .clean else .incremental
      discoverInputs := !o.keepInputsExact
      maxParallel := o.jobs }
  o.defines.foldl (fun c define => c.addMacro (macroOf define).1 (macroOf define).2) base

/-- Whether the new state stays out of the store. -/
def isDeferred (o : Options) : Bool :=
  o.dryRun || o.pending.isSome

end Options

/-- A line for each path of a set, behind a heading. -/
def linesOf (heading : String) (s : PathSet) : List Char :=
  s.toList.flatMap fun p => heading.toList ++ p.chars ++ ['\n']

/-- The verdict as lines of text. -/
def verdictText (c : Compilation) : List Char :=
  linesOf "compile " c.toRecompile ++ linesOf "remove  " c.removed
    ++ linesOf "input   " c.discoveredInputs
    ++ (if c.usedMacroInclude then
      "note    macro include used; include search paths are inputs\n".toList else [])

/-- The verdict as a JSON object. -/
def verdictJson (c : Compilation) : Json :=
  .record [("discovered_inputs", PathSet.toJson c.discoveredInputs),
    ("removed", PathSet.toJson c.removed), ("to_recompile", PathSet.toJson c.toRecompile),
    ("used_macro_include", .bool c.usedMacroInclude)]

/-- What is printed for a verdict. -/
def printed (o : Options) (c : Compilation) : List Char :=
  if o.asJson then (verdictJson c).pretty ++ ['\n'] else verdictText c

/-- Stores the state that is in a file, and removes the file. -/
def commitPending (w : Workspace) (unit : String) (p : Path) :
    Workspace × Except Failure Unit :=
  match w.tree.read p with
  | .error e => (w, .error (.os e))
  | .ok bytes =>
    match State.decode? bytes with
    | none => (w, .error .undecodable)
    | some s =>
      let w := (w.commit unit s).1
      match w.tree.unlink p with
      | .ok tree => ({ w with tree := tree }, .ok ())
      | .error e => (w, .error (.os e))

/-- Puts the new state into a file, if that is asked for. -/
def writePending (w : Workspace) (o : Options) (c : Compilation) :
    Workspace × Except Failure Unit :=
  match o.pending with
  | none => (w, .ok ())
  | some p =>
    match w.tree.write p c.finalState.encode with
    | .ok tree => ({ w with tree := tree }, .ok ())
    | .error e => (w, .error (.os e))

/-- Publishes the header list, if that is asked for. -/
def writeHeaderList (w : Workspace) (o : Options) (c : Compilation) :
    Workspace × Except Failure Unit :=
  match o.headerList with
  | none => (w, .ok ())
  | some p =>
    match o.config.normalized w.tree.workingPath with
    | .error e => (w, .error (.config e))
    | .ok n =>
      match writeHeaders w.tree (headersOf w.tree c n.roots) p with
      | (tree, .ok ()) => ({ w with tree := tree }, .ok ())
      | (tree, .error f) => ({ w with tree := tree }, .error (.io f))

/-- Judges the sources, and commits the new state unless that is deferred. -/
def judge (w : Workspace) (o : Options) : Workspace × Except Failure Compilation :=
  if o.isDeferred then
    match w.process o.config with
    | .error e => (w, .error (.config e))
    | .ok c => (w, .ok c)
  else
    match w.execute o.config with
    | (w, .error e) => (w, .error (.config e))
    | (w, .ok (c, _)) => (w, .ok c)

/-- Runs an invocation with the given options. -/
def runOptions (w : Workspace) (o : Options) : Workspace × Outcome :=
  match o.commitPending with
  | some p =>
    match commitPending w o.unitName p with
    | (w, .error f) => (w, .failed f)
    | (w, .ok ()) => (w, .printed [])
  | none =>
    match judge w o with
    | (w, .error f) => (w, .failed f)
    | (w, .ok c) =>
      match writePending w o c with
      | (w, .error f) => (w, .failed f)
      | (w, .ok ()) =>
        match writeHeaderList w o c with
        | (w, .error f) => (w, .failed f)
        | (w, .ok ()) => (w, .printed (printed o c))

/-- Runs a command line on a file tree. -/
def run (t : FileTree) (arguments : List String) : FileTree × Outcome :=
  match Request.ofArguments arguments with
  | .help => (t, .help)
  | .version => (t, .version)
  | .misuse => (t, .misuse)
  | .run o =>
    let (w, outcome) := runOptions ⟨t, .directory o.storeRoot⟩ o
    (w.tree, outcome)

namespace Outcome

/-- The exit code. -/
def exitCode : Outcome → Nat
  | .misuse => 2
  | .failed _ => 1
  | _ => 0

end Outcome

end Recompile.Cli
