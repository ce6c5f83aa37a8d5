import Recompile.Config.Basic
import Recompile.Text.Basic

/-!
# The options of the command line

Arguments are read from left to right. An option with a value takes it from the rest of
its argument, after an equals sign if there is one, or from the next argument, which then
must not look like an option itself. Options that are no lists must not be repeated, and
values that are paths must not be empty. After `--` all arguments are sources. Asking for
help or for the version ends the reading at once.
-/

set_option autoImplicit false

namespace Recompile.Cli

/-- What the command line says. -/
structure Options where
  unit : Option String
  roots : List Path
  defines : List String
  imports : Bool
  stateDir : Option Path
  clean : Bool
  keepInputsExact : Bool
  jobs : Option Nat
  headerList : Option Path
  dryRun : Bool
  /-- Where the new state is put instead of into the store. -/
  pending : Option Path
  /-- A file with a state that is to be stored. -/
  commitPending : Option Path
  asJson : Bool
  sources : List Path
  deriving DecidableEq, Repr

/-- The options of an empty command line. -/
def Options.none : Options :=
  ⟨.none, [], [], false, .none, false, false, .none, .none, false, .none, .none, false, []⟩

/-- An option with a value. -/
inductive Setting where
  | unit
  | root
  | define
  | stateDir
  | jobs
  | headerList
  | pending
  | commitPending
  deriving DecidableEq, Repr

/-- An option without a value. -/
inductive Flag where
  | imports
  | clean
  | keepInputsExact
  | dryRun
  | asJson
  deriving DecidableEq, Repr

/-- What a name of an option stands for. -/
inductive OptionKind where
  | setting (s : Setting)
  | flag (f : Flag)
  | help
  | version
  deriving DecidableEq, Repr

/-- The option with a long name. -/
def longOption? (name : String) : Option OptionKind :=
  [("unit", .setting .unit), ("include", .setting .root), ("define", .setting .define),
    ("imports-are-includes", .flag .imports), ("state-dir", .setting .stateDir),
    ("clean", .flag .clean), ("no-discover-inputs", .flag .keepInputsExact),
    ("jobs", .setting .jobs), ("header-deps", .setting .headerList),
    ("dry-run", .flag .dryRun), ("pending", .setting .pending),
    ("commit-pending", .setting .commitPending), ("json", .flag .asJson),
    ("help", .help), ("version", .version)].lookup name

/-- The option with a short name. -/
def shortOption? (name : Char) : Option OptionKind :=
  [('u', .setting .unit), ('I', .setting .root), ('D', .setting .define),
    ('j', .setting .jobs), ('h', .help), ('V', .version)].lookup name

/-- A number of workers: digits, after a plus sign if there is one, below 2⁶⁴. -/
def workers? (value : List Char) : Option Nat :=
  let digits := match value with
    | '+' :: rest => rest
    | _ => value
  if digits ≠ [] ∧ digits.all Char.isDigit then
    let n := Text.ofDecimalDigits digits
    if n < UInt64.size then some n else .none
  else .none

/-- A path, which must not be empty. -/
def path? (value : List Char) : Option Path :=
  if value = [] then .none else some ⟨value⟩

/-- Gives a value to what has none. -/
def setOnce {α : Type} (old : Option α) (new : Option α) : Option (Option α) :=
  match old, new with
  | .none, some a => some (some a)
  | _, _ => .none

/-- Raises a flag that is not raised. -/
def raise (old : Bool) : Option Bool :=
  if old then .none else some true

namespace Options

/-- The options with one more value, if it may be given there. -/
def set (o : Options) (value : List Char) : Setting → Option Options
  | .unit => (setOnce o.unit (some (String.ofList value))).map ({ o with unit := · })
  | .root => (path? value).map fun p => { o with roots := o.roots ++ [p] }
  | .define => some { o with defines := o.defines ++ [String.ofList value] }
  | .stateDir => (setOnce o.stateDir (path? value)).map ({ o with stateDir := · })
  | .jobs => (setOnce o.jobs (workers? value)).map ({ o with jobs := · })
  | .headerList => (setOnce o.headerList (path? value)).map ({ o with headerList := · })
  | .pending => (setOnce o.pending (path? value)).map ({ o with pending := · })
  | .commitPending =>
    (setOnce o.commitPending (path? value)).map ({ o with commitPending := · })

/-- The options with one more flag, if it may be raised. -/
def raiseFlag (o : Options) : Flag → Option Options
  | .imports => (raise o.imports).map ({ o with imports := · })
  | .clean => (raise o.clean).map ({ o with clean := · })
  | .keepInputsExact => (raise o.keepInputsExact).map ({ o with keepInputsExact := · })
  | .dryRun => (raise o.dryRun).map ({ o with dryRun := · })
  | .asJson => (raise o.asJson).map ({ o with asJson := · })

/-- The options with one more source. -/
def addSource (o : Options) (value : List Char) : Option Options :=
  (path? value).map fun p => { o with sources := o.sources ++ [p] }

/-- Whether the options make sense together. -/
def isComplete (o : Options) : Bool :=
  o.unit.isSome
    && (o.commitPending.isSome || !o.sources.isEmpty)
    && !(o.pending.isSome && o.dryRun)
    && !(o.commitPending.isSome && (o.pending.isSome || o.dryRun))

end Options

/-- What a command line asks for. -/
inductive Request where
  | help
  | version
  /-- The arguments make no sense. -/
  | misuse
  | run (o : Options)
  deriving DecidableEq, Repr

/-- An argument, by what it looks like. -/
inductive Argument where
  /-- `--` -/
  | sourcesOnly
  /-- `--name` or `--name=value` -/
  | long (name : String) (value : Option (List Char))
  /-- `-n`, `-nvalue` or `-n=value` -/
  | short (name : Char) (value : Option (List Char))
  | plain (value : List Char)
  deriving DecidableEq, Repr

/-- What an argument looks like. A hyphen alone is no option. -/
def Argument.ofChars : List Char → Argument
  | ['-', '-'] => .sourcesOnly
  | '-' :: '-' :: rest =>
    let name := String.ofList (rest.takeWhile (· ≠ '='))
    match rest.dropWhile (· ≠ '=') with
    | [] => .long name none
    | _ :: value => .long name (some value)
  | '-' :: name :: [] => .short name none
  | '-' :: name :: '=' :: value => .short name (some value)
  | '-' :: name :: value => .short name (some value)
  | value => .plain value

/-- The request once all arguments are read. -/
def finish (o : Options) : Request :=
  if o.isComplete then .run o else .misuse

/-- Reads arguments of which all are sources. -/
def readSources (o : Options) : List (List Char) → Request
  | [] => finish o
  | a :: rest =>
    match o.addSource a with
    | some o => readSources o rest
    | none => .misuse

/-- What one argument does. -/
inductive Effect where
  /-- It changes the options. -/
  | options (o : Options)
  /-- It starts a setting whose value is the next argument. -/
  | awaits (s : Setting)
  /-- All arguments after it are sources. -/
  | sourcesOnly
  /-- It ends the reading. -/
  | ends (r : Request)
  deriving DecidableEq, Repr

/-- The effect of options that may have become impossible. -/
def Effect.ofOptions? : Option Options → Effect
  | some o => .options o
  | none => .ends .misuse

/-- The effect of an option. Asking for help by a short name needs no value and minds
none. -/
def effectOfOption (o : Options) (isShort : Bool) :
    Option OptionKind → Option (List Char) → Effect
  | some (.setting s), some value => .ofOptions? (o.set value s)
  | some (.setting s), none => .awaits s
  | some (.flag f), none => .ofOptions? (o.raiseFlag f)
  | some .help, value => if isShort || value.isNone then .ends .help else .ends .misuse
  | some .version, value => if isShort || value.isNone then .ends .version else .ends .misuse
  | _, _ => .ends .misuse

/-- The effect of an argument that is no value of the one before it. -/
def effectOf (o : Options) (a : List Char) : Effect :=
  match Argument.ofChars a with
  | .sourcesOnly => .sourcesOnly
  | .long name value => effectOfOption o false (longOption? name) value
  | .short name value => effectOfOption o true (shortOption? name) value
  | .plain value => .ofOptions? (o.addSource value)

/-- The options with the value of a setting, given as an argument of its own. -/
def setAwaited (o : Options) (s : Setting) (a : List Char) : Option Options :=
  match Argument.ofChars a with
  | .plain value => o.set value s
  | _ => none

/-- Reads arguments, after those that gave the options so far and perhaps started a
setting. -/
def readArguments (o : Options) : Option Setting → List (List Char) → Request
  | none, [] => finish o
  | some _, [] => .misuse
  | some s, a :: rest =>
    match setAwaited o s a with
    | some o => readArguments o none rest
    | none => .misuse
  | none, a :: rest =>
    match effectOf o a with
    | .options o => readArguments o none rest
    | .awaits s => readArguments o (some s) rest
    | .sourcesOnly => readSources o rest
    | .ends r => r

/-- The request of a command line. -/
def Request.ofArguments (arguments : List String) : Request :=
  readArguments .none none (arguments.map String.toList)

end Recompile.Cli
