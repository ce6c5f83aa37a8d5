import Mathlib.Data.Set.Function
import Mathlib.Logic.Relation
import Recompile.Proofs.History.Run
import Recompile.Proofs.Verdict.Exactness

/-!
# The outputs of a unit over a history

A build that follows the verdicts deletes the outputs of the sources that a run removes and
makes those of the sources that it compiles again. Here the outputs of several units with
one store go through any history of runs and edits. After each run the unit has an output
for each declared source and no other (`Ledger.exists_execute`): none is left behind and
none is missing.

The invariant (`Ledger.Balanced`) is that the outputs of a unit are those of the sources
that the store remembers. A run takes away what it does not declare, and what it declares
and leaves alone was remembered.
-/

set_option autoImplicit false

namespace Recompile

/-- The sources that have outputs after a run, where those before it are given. -/
def Compilation.outputs (result : Compilation) (before : PathSet) : PathSet :=
  PathSet.addAll (before.diff result.removed) result.toRecompile.toList

/-- A run leaves the outputs of the sources that it compiled, and those it did not remove. -/
theorem Compilation.mem_outputs {result : Compilation} {before : PathSet} {source : Path} :
    source ∈ result.outputs before ↔
      (source ∈ before ∧ source ∉ result.removed) ∨ source ∈ result.toRecompile := by
  unfold outputs
  rw [PathSet.mem_addAll, PathSet.mem_diff, PathSet.mem_iff_toList (s := result.toRecompile)]

/-- A state, if there is one, remembers a source. -/
def State.Remembers (state : Option State) (source : Path) : Prop :=
  ∃ s, state = some s ∧ source ∈ s.sources

namespace Config

variable {c : Config} {t : FileTree} {previous : Option State} {source : Path}

/-- A run removes what is remembered and not declared. -/
theorem mem_removed_iff : source ∈ (c.judge t previous).removed ↔
    State.Remembers previous source ∧ source ∉ c.declared := by
  have hremoved : (c.judge t previous).removed =
      ((previous.map State.sources).getD ∅).diff c.declared := rfl
  rw [hremoved, PathSet.mem_diff]
  cases previous with
  | none => simp [State.Remembers, PathMap.not_mem_empty]
  | some state => simp [State.Remembers]

/-- A declared source that is left alone is remembered. -/
theorem remembers_of_kept (declared : source ∈ c.declared)
    (kept : source ∉ (c.judge t previous).toRecompile) : State.Remembers previous source := by
  cases previous with
  | none => exact absurd (mem_toRecompile_none declared) kept
  | some state => exact ⟨state, rfl, ((kept_iff_current declared).mp kept).1⟩

/-- If there are outputs for what is remembered, there are after a run for what it
declares. -/
theorem mem_outputs_judge {before : PathSet}
    (balanced : ∀ p, p ∈ before ↔ State.Remembers previous p) :
    source ∈ (c.judge t previous).outputs before ↔ source ∈ c.declared := by
  rw [Compilation.mem_outputs, mem_removed_iff, balanced]
  constructor
  · rintro (⟨hremembered, hkept⟩ | hrecompile)
    · by_contra hdeclared
      exact hkept ⟨hremembered, hdeclared⟩
    · exact declared_of_mem_toRecompile hrecompile
  · intro hdeclared
    by_cases hrecompile : source ∈ (c.judge t previous).toRecompile
    · exact .inr hrecompile
    · left
      refine ⟨remembers_of_kept hdeclared hrecompile, ?_⟩
      rintro ⟨-, hnot⟩
      exact hnot hdeclared

/-- The state of a run remembers the declared sources. -/
theorem remembers_finalState :
    State.Remembers (some (c.judge t previous).finalState) source ↔ source ∈ c.declared := by
  simp [State.Remembers, judge, stateOf]

end Config

/-- A workspace, and for each unit the sources that have outputs. -/
structure Ledger where
  workspace : Workspace
  outputs : String → PathSet

namespace Workspace

variable {w : Workspace} {units : Set String} {unit other : String} {s : State}

/-- No two of some units share a record. In memory they never do; in a directory they do
if the names of the units have the same digest. -/
def TellsApart (w : Workspace) (units : Set String) : Prop :=
  match w.store with
  | .memory _ | .full _ => True
  | .directory _ => Set.InjOn Store.recordName units

/-- A commit changes the state of its own unit alone. -/
theorem Working.state?_commit_of_tellsApart (working : w.Working) (apart : w.TellsApart units)
    (hunit : unit ∈ units) (hother : other ∈ units) (hne : other ≠ unit) (s : State) :
    (w.commit unit s).1.state? other = w.state? other := by
  obtain ⟨t, store⟩ := w
  cases store with
  | memory rs =>
    rw [working.commit_eq, save, state?_memory, state?_memory, Records.find?_put_of_ne hne]
  | full rs => exact absurd working id
  | directory root =>
    have hinj : Set.InjOn Store.recordName units := apart
    apply working.state?_commit_of_ne s
    intro heq
    exact hne (hinj hother hunit heq)

/-- A commit leaves it as it is whether the store tells units apart. -/
theorem Working.tellsApart_commit (working : w.Working) (apart : w.TellsApart units) :
    (w.commit unit s).1.TellsApart units := by
  rw [working.commit_eq]
  obtain ⟨t, store⟩ := w
  cases store with
  | memory rs => trivial
  | full rs => exact absurd working id
  | directory root => exact apart

end Workspace

namespace Ledger

/-- The ledger after a run of a unit, the outputs following its outcome. -/
def enter (l : Ledger) (w : Workspace) (unit : String) (result : Compilation) : Ledger :=
  ⟨w, Function.update l.outputs unit (result.outputs (l.outputs unit))⟩

/-- Entering a run sets the outputs of its unit. -/
@[simp] theorem outputs_enter_self (l : Ledger) (w : Workspace) (unit : String)
    (result : Compilation) :
    (l.enter w unit result).outputs unit = result.outputs (l.outputs unit) :=
  Function.update_self ..

/-- Entering a run leaves the outputs of other units. -/
theorem outputs_enter_of_ne (l : Ledger) (w : Workspace) {unit other : String}
    (result : Compilation) (hne : other ≠ unit) :
    (l.enter w unit result).outputs other = l.outputs other :=
  Function.update_of_ne hne ..

/-- What may happen from one moment to the next, for the given units. -/
inductive Step (units : Set String) : Ledger → Ledger → Prop where
  /-- The tree becomes another one, but for the records. -/
  | edit {l : Ledger} (tree : FileTree)
      (records : ∀ unit ∈ units, Workspace.state? ⟨tree, l.workspace.store⟩ unit =
        l.workspace.state? unit) :
      Step units l ⟨⟨tree, l.workspace.store⟩, l.outputs⟩
  /-- A run of a unit with a store that takes its state. -/
  | execute {l : Ledger} {c : Config} {w : Workspace} {result : Compilation}
      {committed : Committed} (unit : c.unit ∈ units) (mode : c.mode = .incremental)
      (working : l.workspace.Working)
      (ran : l.workspace.execute c = (w, .ok (result, committed))) :
      Step units l (l.enter w c.unit result)
  /-- A run whose configuration is refused. -/
  | refuse {l : Ledger} {c : Config} {w : Workspace} {e : ConfigError}
      (ran : l.workspace.execute c = (w, .error e)) : Step units l ⟨w, l.outputs⟩

/-- No unit has a state or an output. -/
def Fresh (l : Ledger) : Prop :=
  ∀ unit, l.workspace.state? unit = none ∧ l.outputs unit = ∅

/-- The outputs of some units are those of the sources that the store remembers, and the
store tells the units apart. -/
structure Balanced (units : Set String) (l : Ledger) : Prop where
  apart : l.workspace.TellsApart units
  outputs : ∀ unit ∈ units, ∀ p,
    p ∈ l.outputs unit ↔ State.Remembers (l.workspace.state? unit) p

variable {units : Set String} {l l' : Ledger} {c n : Config}

/-- A fresh ledger is balanced: no outputs, and no state that remembers a source. -/
theorem Fresh.balanced (fresh : l.Fresh) (apart : l.workspace.TellsApart units) :
    l.Balanced units := by
  refine ⟨apart, fun unit _ p => ?_⟩
  obtain ⟨hstate, houtputs⟩ := fresh unit
  rw [hstate, houtputs]
  simp [State.Remembers, PathMap.not_mem_empty]

/-- A verdict that is committed and followed keeps a ledger balanced. -/
theorem Balanced.commit (balanced : l.Balanced units) {unit : String} (hunit : unit ∈ units)
    (working : l.workspace.Working) (n : Config) :
    let result := n.judge l.workspace.tree (l.workspace.state? unit)
    (l.enter (l.workspace.commit unit result.finalState).1 unit result).Balanced units := by
  intro result
  refine ⟨working.tellsApart_commit balanced.apart, fun other hother p => ?_⟩
  by_cases hne : other = unit
  · subst hne
    have hstate := working.state?_commit other result.finalState
    have houtputs : p ∈ result.outputs (l.outputs other) ↔ p ∈ n.declared :=
      Config.mem_outputs_judge (balanced.outputs other hother)
    rw [outputs_enter_self, houtputs]
    show _ ↔ State.Remembers ((l.workspace.commit other _).1.state? other) p
    rw [hstate, Config.remembers_finalState]
  · have hstate := working.state?_commit_of_tellsApart balanced.apart hunit hother hne
      result.finalState
    rw [outputs_enter_of_ne l _ result hne, balanced.outputs other hother p]
    show _ ↔ State.Remembers ((l.workspace.commit unit _).1.state? other) p
    rw [hstate]

/-- Every step keeps a ledger balanced. -/
theorem Balanced.step (balanced : l.Balanced units) (step : Step units l l') :
    l'.Balanced units := by
  cases step with
  | edit tree records =>
    refine ⟨balanced.apart, fun unit hunit p => ?_⟩
    rw [records unit hunit]
    exact balanced.outputs unit hunit p
  | @execute c w result committed unit mode working ran =>
    obtain ⟨n, hn, -, -⟩ := Workspace.execute_eq_ok ran
    have hran := working.execute_eq mode hn
    rw [ran] at hran
    cases hran
    exact balanced.commit unit working n
  | refuse ran =>
    rw [Workspace.execute_eq_error ran]
    exact ⟨balanced.apart, balanced.outputs⟩

/-- Every ledger that comes of a balanced one is balanced. -/
theorem Balanced.reached (balanced : l.Balanced units)
    (reached : Relation.ReflTransGen (Step units) l l') : l'.Balanced units := by
  induction reached with
  | refl => exact balanced
  | tail _ step ih => exact ih.step step

/-- Outputs never leak and are never lost. Whatever happened since nothing was remembered
and nothing was made, a run of a unit succeeds, it removes only what has an output, it
removes nothing that it compiles, and after it exactly the declared sources have outputs. -/
theorem exists_execute {start : Ledger} (fresh : start.Fresh)
    (apart : start.workspace.TellsApart units)
    (reached : Relation.ReflTransGen (Step units) start l) (unit : c.unit ∈ units)
    (mode : c.mode = .incremental) (working : l.workspace.Working)
    (normalized : c.normalized l.workspace.tree.workingPath = .ok n) :
    ∃ w result, l.workspace.execute c = (w, .ok (result, .stored)) ∧
      PathSet.Same ((l.enter w c.unit result).outputs c.unit) n.declared ∧
      (∀ p ∈ result.removed, p ∉ result.toRecompile) ∧
      ∀ p ∈ result.removed, p ∈ l.outputs c.unit := by
  have balanced := (fresh.balanced apart).reached reached
  have houtputs := balanced.outputs c.unit unit
  refine ⟨_, _, working.execute_eq mode normalized, ?_, ?_, ?_⟩
  · rw [PathSet.same_iff]
    intro p
    rw [outputs_enter_self]
    exact Config.mem_outputs_judge houtputs
  · intro p hremoved hrecompile
    exact (Config.mem_removed_iff.mp hremoved).2 (Config.declared_of_mem_toRecompile hrecompile)
  · intro p hremoved
    exact (houtputs p).mpr (Config.mem_removed_iff.mp hremoved).1

/-- One of two units gives a source up, after a run of each and an edit. -/
theorem exists_execute_dropped :
    let units : Set String := {"a", "b"}
    let x : Path := ⟨['/', 'x']⟩
    let y : Path := ⟨['/', 'y']⟩
    let t := ((FileTree.bare []).put [['x']] (.file (Utf8.encode "x".toList))).put [['y']]
      (.file (Utf8.encode "y".toList))
    let u := t.put [['y']] (.file (Utf8.encode "z".toList))
    let both := { Config.ofUnit "a" with sources := [x, y] }
    let other := { Config.ofUnit "b" with sources := [x] }
    let one := { Config.ofUnit "a" with sources := [x] }
    let first := both.judge t none
    let second := other.judge t none
    let start : Ledger := ⟨⟨t, .memory []⟩, fun _ => ∅⟩
    let w : Workspace := ⟨t, .memory [("a", first.finalState)]⟩
    let records := [("b", second.finalState), ("a", first.finalState)]
    let l' := (start.enter w "a" first).enter ⟨t, .memory records⟩ "b" second
    let l : Ledger := ⟨⟨u, .memory records⟩, l'.outputs⟩
    start.Fresh ∧ start.workspace.TellsApart units ∧
      Relation.ReflTransGen (Step units) start l ∧ one.unit ∈ units ∧
      one.mode = .incremental ∧ l.workspace.Working ∧
      one.normalized l.workspace.tree.workingPath = .ok one ∧
      ∃ w result, l.workspace.execute one = (w, .ok (result, .stored)) ∧
        PathSet.Same ((l.enter w "a" result).outputs "a") one.declared ∧
        (∀ p ∈ result.removed, p ∉ result.toRecompile) ∧
        ∀ p ∈ result.removed, p ∈ l.outputs "a" := by
  intro units x y t u both other one first second start w records l' l
  have fresh : start.Fresh := fun _ => ⟨rfl, rfl⟩
  have apart : start.workspace.TellsApart units := trivial
  have hboth : both.normalized t.workingPath = .ok both := by decide +kernel
  have hother : other.normalized t.workingPath = .ok other := by decide +kernel
  have hone : one.normalized u.workingPath = .ok one := by decide +kernel
  have working (tree : FileTree) (rs : Records) : Workspace.Working ⟨tree, .memory rs⟩ := trivial
  have ran : start.workspace.execute both = (w, .ok (first, .stored)) :=
    (working t []).execute_eq rfl hboth
  have ran' : (start.enter w "a" first).workspace.execute other =
      (⟨t, .memory records⟩, .ok (second, .stored)) :=
    (working t _).execute_eq rfl hother
  have hfirst : Step units start (start.enter w "a" first) :=
    .execute (.inl rfl) rfl (working t []) ran
  have hsecond : Step units (start.enter w "a" first) l' :=
    .execute (.inr rfl) rfl (working t _) ran'
  have hedit : Step units l' l := .edit u fun _ _ => rfl
  have reached : Relation.ReflTransGen (Step units) start l :=
    ((Relation.ReflTransGen.single hfirst).tail hsecond).tail hedit
  have hunit : one.unit ∈ units := .inl rfl
  exact ⟨fresh, apart, reached, hunit, rfl, working u records, hone,
    exists_execute fresh apart reached hunit rfl (working u records) hone⟩

end Ledger

end Recompile
