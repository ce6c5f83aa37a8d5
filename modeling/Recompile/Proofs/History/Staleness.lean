import Mathlib.Logic.Relation
import Recompile.Proofs.History.Run
import Recompile.Proofs.Verdict.ContentEdit

/-!
# No stale object over a history

An object that is not compiled again is as old as the last run that compiled its source.
Here a store goes through any history of runs, edits, and losses of records, and the runs
are listed beside it. Whenever a run leaves a source alone, the source reaches the files
that it reached in the run that last compiled it, and each of them has the fingerprint
and the includes that it had then (`Session.sameClosure_of_kept`).

The record of a unit is replaced as a whole by every run, also for sources that were not
compiled, so what it says of a source need not come from the run that compiled it. The
invariant (`Session.Faithful`) is that it agrees with that run all the same.
-/

set_option autoImplicit false

namespace Recompile

namespace Graph

/-- A source reaches the same files in two graphs; each of them could be read both times,
and it had the same fingerprint and included the same files. -/
structure SameClosure (g g' : Graph) (source : Path) : Prop where
  reaches_iff : ∀ p, g.Reaches source p ↔ g'.Reaches source p
  scans : ∀ p, g.Reaches source p → ∃ s s', g.scan? p = some s ∧ g'.scan? p = some s' ∧
    s.fingerprint = s'.fingerprint ∧ PathSet.Same s.resolved s'.resolved

/-- A source of which all files could be read has its closure in its own graph. -/
theorem SameClosure.refl {g : Graph} {source : Path}
    (h : ∀ p, g.Reaches source p → (g.scan? p).isSome) : g.SameClosure g source := by
  refine ⟨fun p => Iff.rfl, fun p hp => ?_⟩
  obtain ⟨s, hs⟩ := Option.isSome_iff_exists.mp (h p hp)
  exact ⟨s, s, hs, hs, rfl, rfl⟩

/-- Two graphs in which all that a source reaches is as one state remembers it have the
same closure of that source. -/
theorem SameClosure.of_current {g g' : Graph} {state : State} {source : Path}
    (h : ∀ p, g.Reaches source p → g.Current state p)
    (h' : ∀ p, g'.Reaches source p → g'.Current state p) : g.SameClosure g' source := by
  have hreach : ∀ p, g.Reaches source p ↔ g'.Reaches source p := fun p =>
    (reaches_iff_of_current h).trans (reaches_iff_of_current h').symm
  refine ⟨hreach, fun p hp => ?_⟩
  obtain ⟨s, f, hs, hf, hfingerprint, hresolved⟩ := h p hp
  obtain ⟨s', f', hs', hf', hfingerprint', hresolved'⟩ := h' p ((hreach p).mp hp)
  obtain rfl := Option.some.inj (hf.symm.trans hf')
  exact ⟨s, s', hs, hs', hfingerprint.trans hfingerprint'.symm, hresolved.trans hresolved'.symm⟩

end Graph

/-! ## Histories -/

/-- A workspace, and the runs that were made in it, each with its unit, the latest first. -/
structure Session where
  workspace : Workspace
  runs : List (String × Compilation)

namespace Session

/-- The last run of a unit that compiled a source. -/
def lastCompiled (h : Session) (unit : String) (source : Path) : Option Compilation :=
  (h.runs.find? fun r => r.1 = unit ∧ source ∈ r.2.toRecompile).map Prod.snd

/-- What may happen from one moment to the next. -/
inductive Step : Session → Session → Prop where
  /-- The tree becomes another one. Only the store writes records, so no unit comes by a
  state. -/
  | edit {h : Session} (tree : FileTree)
      (records : ∀ unit, KeptOrLost (h.workspace.state? unit)
        (Workspace.state? ⟨tree, h.workspace.store⟩ unit)) :
      Step h ⟨⟨tree, h.workspace.store⟩, h.runs⟩
  /-- A run with a valid configuration, its directory being usable if it needs one. -/
  | execute {h : Session} {c : Config} {w : Workspace} {result : Compilation}
      {committed : Committed} (usable : h.workspace.Usable)
      (ran : h.workspace.execute c = (w, .ok (result, committed))) :
      Step h ⟨w, (c.unit, result) :: h.runs⟩
  /-- A run whose configuration is refused. -/
  | refuse {h : Session} {c : Config} {w : Workspace} {e : ConfigError}
      (ran : h.workspace.execute c = (w, .error e)) : Step h ⟨w, h.runs⟩
  /-- A run whose outcome is not committed. -/
  | process {h : Session} {c : Config} {outcome : Except ConfigError Compilation}
      (ran : h.workspace.process c = outcome) : Step h h
  /-- The state of a unit is forgotten. -/
  | forget {h : Session} (unit : String) : Step h ⟨(h.workspace.forget unit).1, h.runs⟩
  /-- The record of a unit is overwritten with bytes that are no record. -/
  | corrupt {h : Session} {root : Path} {unit : String} {bytes : List UInt8} {tree : FileTree}
      (store : h.workspace.store = .directory root) (undecodable : Record.decode? bytes = none)
      (written : h.workspace.tree.write (Store.recordPath root unit) bytes = .ok tree) :
      Step h ⟨⟨tree, .directory root⟩, h.runs⟩
  /-- A store in memory takes no more states from now on. -/
  | fill {h : Session} {records : Records} (store : h.workspace.store = .memory records) :
      Step h ⟨⟨h.workspace.tree, .full records⟩, h.runs⟩
  /-- A full store takes states again. -/
  | drain {h : Session} {records : Records} (store : h.workspace.store = .full records) :
      Step h ⟨⟨h.workspace.tree, .memory records⟩, h.runs⟩

/-- A session in which no unit has a state with sources. -/
def Fresh (h : Session) : Prop :=
  ∀ unit state, h.workspace.state? unit = some state → ∀ source, source ∉ state.sources

/-- What the store remembers of a source agrees with the last run that compiled the source:
all that the source reached then is as it is remembered. Nothing is said of a source that
is remembered to reach a file of which nothing is remembered; such a source is compiled
again in any case. -/
def Faithful (h : Session) : Prop :=
  ∀ unit state, h.workspace.state? unit = some state → ∀ source ∈ state.sources,
    (∀ p, state.Reaches source p → (state.file? p).isSome) →
    ∃ last, h.lastCompiled unit source = some last ∧
      ∀ p, last.graph.Reaches source p → last.graph.Current state p

variable {h h' : Session} {unit : String} {source : Path}

/-- A run that compiled a source is its last compilation. -/
theorem lastCompiled_cons_of_mem {w : Workspace} {runs : List (String × Compilation)}
    {result : Compilation} (hmem : source ∈ result.toRecompile) :
    lastCompiled ⟨w, (unit, result) :: runs⟩ unit source = some result := by
  simp [lastCompiled, hmem]

/-- A run that did not compile a source leaves its last compilation. -/
theorem lastCompiled_cons_of_not_mem {w w' : Workspace} {runs : List (String × Compilation)}
    {result : Compilation} (hnot : source ∉ result.toRecompile) (ran : String) :
    lastCompiled ⟨w, (ran, result) :: runs⟩ unit source = lastCompiled ⟨w', runs⟩ unit source := by
  simp [lastCompiled, hnot]

/-- A run of another unit leaves the last compilation of a source. -/
theorem lastCompiled_cons_of_ne {w w' : Workspace} {runs : List (String × Compilation)}
    {result : Compilation} {ran : String} (hne : unit ≠ ran) :
    lastCompiled ⟨w, (ran, result) :: runs⟩ unit source = lastCompiled ⟨w', runs⟩ unit source := by
  simp [lastCompiled, hne.symm]

/-- A session without recorded sources is faithful: there is nothing that a record could be wrong
about. -/
theorem Fresh.faithful (fresh : h.Fresh) : h.Faithful := by
  intro unit state hstate source hsource
  exact absurd hsource (fresh unit state hstate source)

/-- A step without a run that only takes states away keeps a session faithful. -/
theorem Faithful.of_keptOrLost (faithful : h.Faithful) (hruns : h'.runs = h.runs)
    (hkept : ∀ unit, KeptOrLost (h.workspace.state? unit) (h'.workspace.state? unit)) :
    h'.Faithful := by
  intro unit state hstate source hsource hcomplete
  rcases hkept unit with hlost | hsame
  · rw [hlost] at hstate
    cases hstate
  · rw [hsame] at hstate
    have hlast : h'.lastCompiled unit source = h.lastCompiled unit source := by
      unfold lastCompiled
      rw [hruns]
    rw [hlast]
    exact faithful unit state hstate source hsource hcomplete

/-- A run that leaves a source alone finds the closure that the source had when it was last
compiled. -/
theorem Faithful.sameClosure (faithful : h.Faithful) {n : Config}
    (declared : source ∈ n.declared)
    (kept : source ∉ (n.judge h.workspace.tree (h.workspace.previous n)).toRecompile) :
    ∃ last, h.lastCompiled n.unit source = some last ∧
      (n.graph h.workspace.tree).SameClosure last.graph source := by
  cases hprevious : h.workspace.previous n with
  | none =>
    rw [hprevious] at kept
    exact absurd (Config.mem_toRecompile_none declared) kept
  | some state =>
    rw [hprevious] at kept
    obtain ⟨hsource, hcurrent⟩ := (Config.kept_iff_current declared).mp kept
    have hcomplete : ∀ p, state.Reaches source p → (state.file? p).isSome := by
      intro p hp
      obtain ⟨s, f, -, hf, -⟩ := hcurrent p ((Graph.reaches_iff_of_current hcurrent).mpr hp)
      rw [hf]
      rfl
    obtain ⟨last, hlast, hlastCurrent⟩ :=
      faithful n.unit state (Workspace.state?_of_previous hprevious) source hsource hcomplete
    exact ⟨last, hlast, .of_current hcurrent hlastCurrent⟩

/-- Each graph in which a source has the closure of a run is as the run remembers it. -/
theorem current_finalState {n : Config} {t : FileTree} {previous : Option State} {g : Graph}
    (hclosure : (n.graph t).SameClosure g source) {p : Path} (hp : g.Reaches source p) :
    g.Current (n.judge t previous).finalState p := by
  have hreaches := (hclosure.reaches_iff p).mpr hp
  obtain ⟨s, s', hs, hs', hfingerprint, hresolved⟩ := hclosure.scans p hreaches
  exact ⟨s', s.remembered, hs', Config.file?_finalState_eq_some.mpr ⟨s, hs, rfl⟩,
    hfingerprint.symm, hresolved.symm⟩

/-- A run keeps a session faithful: what it remembers of the sources that it compiled comes
from itself, and what it remembers of the others is what was remembered before. -/
theorem Faithful.execute (faithful : h.Faithful) {c : Config} {w : Workspace}
    {result : Compilation} {committed : Committed} (usable : h.workspace.Usable)
    (ran : h.workspace.execute c = (w, .ok (result, committed))) :
    Faithful ⟨w, (c.unit, result) :: h.runs⟩ := by
  obtain ⟨n, hn, rfl, rfl⟩ := Workspace.execute_eq_ok ran
  have hunit := Config.unit_of_normalized hn
  intro unit state hstate source hsource hcomplete
  by_cases hne : unit = c.unit
  · subst hne
    rcases Workspace.state?_commit h.workspace c.unit
      (n.judge h.workspace.tree (h.workspace.previous n)).finalState with hlost | hstored
    · rw [hlost] at hstate
      cases hstate
    · obtain rfl := Option.some.inj (hstored.symm.trans hstate)
      -- The record is new as a whole. Of a source that was left alone it says again what was
      -- said before, and that agrees with an earlier run.
      by_cases hmem : source ∈ (n.judge h.workspace.tree (h.workspace.previous n)).toRecompile
      · refine ⟨_, lastCompiled_cons_of_mem hmem, fun p hp => ?_⟩
        refine current_finalState (.refl fun q hq => ?_) hp
        have hfile := hcomplete q (Config.reaches_finalState.mpr hq)
        rwa [Config.file?_finalState, Option.isSome_map] at hfile
      · obtain ⟨last, hlast, hclosure⟩ := faithful.sameClosure hsource hmem
        rw [hunit] at hlast
        refine ⟨last, ?_, fun p hp => current_finalState hclosure hp⟩
        exact (lastCompiled_cons_of_not_mem hmem c.unit).trans hlast
  · rcases Workspace.keptOrLost_commit usable hne with hlost | hsame
    · rw [hlost] at hstate
      cases hstate
    · rw [hsame] at hstate
      obtain ⟨last, hlast, hcurrent⟩ := faithful unit state hstate source hsource hcomplete
      exact ⟨last, (lastCompiled_cons_of_ne hne).trans hlast, hcurrent⟩

/-- Every step keeps a session faithful. -/
theorem Faithful.step (faithful : h.Faithful) (step : Step h h') : h'.Faithful := by
  cases step with
  | edit tree records => exact faithful.of_keptOrLost rfl records
  | execute usable ran => exact faithful.execute usable ran
  | refuse ran =>
    refine faithful.of_keptOrLost rfl fun unit => ?_
    rw [Workspace.execute_eq_error ran]
    exact .refl _
  | process => exact faithful
  | forget unit =>
    exact faithful.of_keptOrLost rfl fun other => h.workspace.keptOrLost_forget unit other
  | @corrupt root unit bytes tree store undecodable written =>
    refine faithful.of_keptOrLost rfl fun other => ?_
    have hkept : KeptOrLost (Store.loadFile h.workspace.tree root other).state?
        (Store.loadFile tree root other).state? :=
      Store.keptOrLost_of_patched (FileTree.patched_of_write written)
        (Store.state?_openRecord_of_undecodable undecodable)
    unfold Workspace.state? Workspace.load
    rw [store]
    exact hkept
  | fill store | drain store =>
    refine faithful.of_keptOrLost rfl fun unit => .inr ?_
    unfold Workspace.state? Workspace.load
    rw [store]

/-- Every session that comes of a faithful one is faithful. -/
theorem Faithful.reached (faithful : h.Faithful) (reached : Relation.ReflTransGen Step h h') :
    h'.Faithful := by
  induction reached with
  | refl => exact faithful
  | tail _ step ih => exact ih.step step

/-- No run leaves a stale object. Whatever happened since a session without sources, if a
run leaves a declared source alone, then some run of the unit compiled the source, and now
the source reaches what it reached in the last such run, with all files readable, of the
same fingerprints, and with the same includes. -/
theorem sameClosure_of_kept {start h : Session} (fresh : start.Fresh)
    (reached : Relation.ReflTransGen Step start h) {c n : Config} {w : Workspace}
    {result : Compilation} {committed : Committed}
    (ran : h.workspace.execute c = (w, .ok (result, committed)))
    (normalized : c.normalized h.workspace.tree.workingPath = .ok n) {source : Path}
    (declared : source ∈ n.declared) (kept : source ∉ result.toRecompile) :
    ∃ last, h.lastCompiled c.unit source = some last ∧
      result.graph.SameClosure last.graph source := by
  obtain ⟨n', hn', rfl, -⟩ := Workspace.execute_eq_ok ran
  cases normalized.symm.trans hn'
  rw [← Config.unit_of_normalized normalized]
  exact (fresh.faithful.reached reached).sameClosure declared kept

/-- A source is left alone by the second of two runs with a store in memory. -/
theorem sameClosure_of_kept_twice :
    let t := (FileTree.bare []).put [['a']] (.file (Utf8.encode "x".toList))
    let c := { Config.ofUnit "unit" with sources := [⟨['/', 'a']⟩] }
    let first := c.judge t none
    let second := c.judge t (some first.finalState)
    let source : Path := ⟨['/', 'a']⟩
    let start : Session := ⟨⟨t, .memory []⟩, []⟩
    let w : Workspace := ⟨t, .memory [("unit", first.finalState)]⟩
    let h : Session := ⟨w, [("unit", first)]⟩
    start.Fresh ∧ Relation.ReflTransGen Step start h ∧
      w.execute c = (⟨t, .memory [("unit", second.finalState)]⟩, .ok (second, .stored)) ∧
      source ∈ c.declared ∧ source ∉ second.toRecompile ∧
      ∃ last, h.lastCompiled "unit" source = some last ∧
        second.graph.SameClosure last.graph source := by
  intro t c first second source start w h
  have fresh : start.Fresh := by
    intro unit state hstate
    cases hstate
  have normalized : c.normalized t.workingPath = .ok c := by decide +kernel
  have ran : start.workspace.execute c = (w, .ok (first, .stored)) :=
    Workspace.execute_of_normalized normalized
  have hprevious : w.previous c = some first.finalState := rfl
  have ran' : w.execute c =
      (⟨t, .memory [("unit", second.finalState)]⟩, .ok (second, .stored)) := by
    have hran := Workspace.execute_of_normalized (w := w) normalized
    rw [hprevious] at hran
    exact hran
  have reached : Relation.ReflTransGen Step start h :=
    .single (.execute (by trivial) ran)
  have declared : source ∈ c.declared := by decide
  have kept : source ∉ second.toRecompile := by decide +kernel
  exact ⟨fresh, reached, ran', declared, kept,
    sameClosure_of_kept fresh reached ran' normalized declared kept⟩

end Session

end Recompile
