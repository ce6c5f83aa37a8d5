import Mathlib.Data.List.Induction
import Recompile.Proofs.History.Run
import Recompile.Proofs.Verdict.Exactness

/-!
# How long a doubt lasts

A run that finds a directive in doubt says so, and so does what it leaves for the next run. A
later run that cannot read some file does not know whether the directive is still there, so it
repeats what was said before; a run that can read all its files starts afresh. Over a history
of any length this comes to: a run says that a directive is in doubt if and only if it or a run
before it found one, and each run since then came to a file that it could not read
(`Workspace.usedMacroInclude_execute`).

What the runs find is told by the trees that they read (`Run.InDoubt`, `Run.Incomplete`), and
what happens between the runs is free, as long as the record of the unit is kept
(`Workspace.History`).
-/

set_option autoImplicit false

namespace Recompile

/-- A normalised configuration and the tree on which it is run. -/
structure Run where
  config : Config
  tree : FileTree

namespace Run

/-- The files that a run comes to. -/
def files (r : Run) : List Path :=
  (r.config.graph r.tree).nodes.keys

/-- One of the files has a directive that names a macro, and it is not known what the macro
stands for. -/
def InDoubt (r : Run) : Prop :=
  ∃ file ∈ r.files, ∃ bytes, r.tree.read file = .ok bytes ∧
    ∃ i, (i, .undecided) ∈
      r.config.resolver.resolveAll r.tree (.ofBytes r.config.imports bytes) file

/-- One of the files cannot be read. -/
def Incomplete (r : Run) : Prop :=
  ∃ file ∈ r.files, ∃ e, r.tree.read file = .error e

/-- One of some runs was in doubt, and each later one was incomplete. -/
def DoubtLasts (runs : List Run) : Prop :=
  ∃ before r after, runs = before ++ r :: after ∧ r.InDoubt ∧ ∀ later ∈ after, later.Incomplete

variable {r : Run} {runs : List Run}

/-- Before any run there is no doubt. -/
theorem not_doubtLasts_nil : ¬ DoubtLasts [] := by
  rintro ⟨before, r, after, h, -⟩
  cases before <;> cases h

/-- With one run more a doubt starts or lasts. -/
theorem doubtLasts_concat : DoubtLasts (runs ++ [r]) ↔
    r.InDoubt ∨ DoubtLasts runs ∧ r.Incomplete := by
  constructor
  · rintro ⟨before, s, after, h, hs, hafter⟩
    cases after using List.reverseRecOn with
    | nil =>
      obtain ⟨-, rfl⟩ := List.append_singleton_inj.mp h
      exact .inl hs
    | append_singleton after last =>
      rw [← List.cons_append, ← List.append_assoc] at h
      obtain ⟨rfl, rfl⟩ := List.append_singleton_inj.mp h
      refine .inr ⟨⟨before, s, after, rfl, hs, fun later hlater => ?_⟩, hafter _ (by simp)⟩
      exact hafter later (List.mem_append_left _ hlater)
  · rintro (hr | ⟨⟨before, s, after, rfl, hs, hafter⟩, hr⟩)
    · exact ⟨runs, r, [], rfl, hr, by simp⟩
    · refine ⟨before, s, after ++ [r], by simp, hs, fun later hlater => ?_⟩
      rcases List.mem_append.mp hlater with hlater | hlater
      · exact hafter later hlater
      · rw [List.mem_singleton.mp hlater]
        exact hr

end Run

/-! ## What a graph says of a run -/

namespace Graph

variable {s : Scanner} {t : FileTree} {sources : List Path}

/-- The nodes of a graph are those of the files that the scan comes to. -/
theorem any_values_iff {p : Node → Bool} : (build s t sources).nodes.values.any p = true ↔
    ∃ file ∈ (build s t sources).nodes.keys, p (s.scanFile t file) = true := by
  rw [List.any_eq_true]
  constructor
  · rintro ⟨n, hn, hp⟩
    obtain ⟨e, he, rfl⟩ := List.mem_map.mp hn
    rw [node_eq_scanFile he] at hp
    exact ⟨e.1, List.mem_map_of_mem he, hp⟩
  · rintro ⟨file, hfile, hp⟩
    obtain ⟨e, he, rfl⟩ := List.mem_map.mp hfile
    rw [← node_eq_scanFile he] at hp
    exact ⟨e.2, List.mem_map_of_mem he, hp⟩

end Graph

namespace Scanner

variable {s : Scanner} {t : FileTree} {file : Path}

/-- A scan is undecided if the file can be read and some directive in it has no target. -/
theorem isUndecided_scanFile : (s.scanFile t file).isUndecided = true ↔
    ∃ bytes, t.read file = .ok bytes ∧
      ∃ i, (i, .undecided) ∈ s.resolver.resolveAll t (.ofBytes s.imports bytes) file := by
  unfold scanFile
  cases hread : t.read file with
  | error e => simp [Node.isUndecided]
  | ok bytes => simp [Node.isUndecided, scanBytes]

/-- A scan is unreadable if the file cannot be read. -/
theorem isUnreadable_scanFile :
    (s.scanFile t file).isUnreadable = true ↔ ∃ e, t.read file = .error e := by
  unfold scanFile
  cases hread : t.read file with
  | error e => simp [Node.isUnreadable]
  | ok bytes => simp [Node.isUnreadable]

end Scanner

namespace Run

variable {r : Run}

/-- A run is in doubt exactly when its graph has an undecided node. -/
theorem inDoubt_iff : r.InDoubt ↔ (r.config.graph r.tree).isUndecided = true :=
  ((exists_congr fun _ => and_congr_right fun _ => Scanner.isUndecided_scanFile.symm).trans
    Graph.any_values_iff.symm)

/-- A run is incomplete exactly when its graph has an unreadable node. -/
theorem incomplete_iff : r.Incomplete ↔ (r.config.graph r.tree).hasUnreadable = true :=
  ((exists_congr fun _ => and_congr_right fun _ => Scanner.isUnreadable_scanFile.symm).trans
    Graph.any_values_iff.symm)

/-- What a run says of its directives: it is in doubt, or the one before it was said to be and
it cannot tell. -/
theorem usedMacroInclude_judge_iff (previous : Option State) :
    (r.config.judge r.tree previous).usedMacroInclude = true ↔
      r.InDoubt ∨ previous.any State.usedMacroInclude = true ∧ r.Incomplete := by
  rw [Config.usedMacroInclude_judge, Config.usesMacroInclude, Bool.or_eq_true, Bool.and_eq_true,
    inDoubt_iff, incomplete_iff]

end Run

/-! ## Histories of a unit -/

namespace Workspace

variable {start w : Workspace} {unit : String} {runs : List Run} {c n : Config}

/-- The store takes every state of a unit and has it afterwards. -/
def Takes (w : Workspace) (unit : String) : Prop :=
  ∀ s, (w.save unit s).2 = .ok () ∧ (w.save unit s).1.state? unit = some s

/-- A store in order takes every state and has it afterwards. -/
theorem Working.takes (working : w.Working) (unit : String) : w.Takes unit := by
  intro s
  have hstate := working.state?_commit unit s
  rw [working.commit_eq] at hstate
  exact ⟨working.save_eq_ok unit s, hstate⟩

/-- What happens to a unit from a start on: it is run with a store that takes its states, and in
between anything may change but the state that it has. The runs are listed in their order. -/
inductive History (unit : String) (start : Workspace) : List Run → Workspace → Prop where
  | start : History unit start [] start
  | change {runs : List Run} {w : Workspace} (history : History unit start runs w)
      (w' : Workspace) (kept : w'.state? unit = w.state? unit) : History unit start runs w'
  | run {runs : List Run} {w w' : Workspace} {c n : Config}
      {outcome : Compilation × Committed} (history : History unit start runs w)
      (same : c.unit = unit) (mode : c.mode = .incremental) (takes : w.Takes unit)
      (normalized : c.normalized w.tree.workingPath = .ok n)
      (ran : w.execute c = (w', .ok outcome)) : History unit start (runs ++ [⟨n, w.tree⟩]) w'

/-- A run with a store that takes its state stores the outcome of its verdict. -/
theorem Takes.execute_eq (takes : w.Takes c.unit) (mode : c.mode = .incremental)
    (normalized : c.normalized w.tree.workingPath = .ok n) :
    ∃ w', w.execute c = (w', .ok (n.judge w.tree (w.state? c.unit), .stored)) ∧
      w'.state? c.unit = some (n.judge w.tree (w.state? c.unit)).finalState := by
  have hmode : n.mode = .incremental := (Config.mode_of_normalized normalized).trans mode
  obtain ⟨hsave, hstate⟩ := takes (n.judge w.tree (w.state? c.unit)).finalState
  refine ⟨_, ?_, hstate⟩
  rw [execute_of_normalized normalized, previous_of_incremental hmode,
    Config.unit_of_normalized normalized]
  dsimp only
  rw [commit_of_save hsave]

/-- After any history the state of the unit has the flag as long as the doubt lasts. -/
theorem History.usedMacroInclude_iff (history : History unit start runs w)
    (fresh : start.state? unit = none) :
    (w.state? unit).any State.usedMacroInclude = true ↔ Run.DoubtLasts runs := by
  induction history with
  | start =>
    rw [fresh]
    exact iff_of_false Bool.false_ne_true Run.not_doubtLasts_nil
  | change history w' kept ih =>
    rw [kept]
    exact ih
  | @run runs w w' c n outcome history same mode takes normalized ran ih =>
    subst same
    obtain ⟨w'', hran, hstate⟩ := takes.execute_eq mode normalized
    obtain ⟨rfl, -⟩ := Prod.mk.inj (hran.symm.trans ran)
    rw [hstate, Run.doubtLasts_concat, ← ih]
    exact Run.usedMacroInclude_judge_iff (r := ⟨n, w.tree⟩) (w.state? c.unit)

/-- A run says that a directive is in doubt, and so does the state that it stores, if and only
if it or an earlier run of the unit found a directive in doubt and each run since then came to
a file that it could not read. The unit starts without a state, its runs succeed as long as
the store takes its states, and whatever does not touch its state may happen in between. -/
theorem usedMacroInclude_execute (fresh : start.state? unit = none)
    (history : History unit start runs w) (same : c.unit = unit) (mode : c.mode = .incremental)
    (takes : w.Takes unit) (normalized : c.normalized w.tree.workingPath = .ok n) :
    ∃ w' result, w.execute c = (w', .ok (result, .stored)) ∧
      w'.state? unit = some result.finalState ∧
      result.finalState.usedMacroInclude = result.usedMacroInclude ∧
      (result.usedMacroInclude = true ↔ ∃ before r after,
        runs ++ [⟨n, w.tree⟩] = before ++ r :: after ∧ r.InDoubt ∧
          ∀ later ∈ after, later.Incomplete) := by
  subst same
  obtain ⟨w', hran, hstate⟩ := takes.execute_eq mode normalized
  refine ⟨w', _, hran, hstate, by simp only [Config.judge, Config.stateOf], ?_⟩
  rw [Run.usedMacroInclude_judge_iff (r := ⟨n, w.tree⟩), history.usedMacroInclude_iff fresh]
  exact Run.doubtLasts_concat.symm

/-- The second run finds no doubt, but there is a source that it cannot read. -/
theorem usedMacroInclude_execute_unread :
    let a : Path := ⟨['/', 'a']⟩
    let b : Path := ⟨['/', 'b']⟩
    let t := (FileTree.bare []).put [['a']] (.file (Utf8.encode "#include M".toList))
    let u := (FileTree.bare []).put [['a']] (.file [])
    let first := { Config.ofUnit "unit" with sources := [a] }
    let second := { Config.ofUnit "unit" with sources := [a, b] }
    let start : Workspace := ⟨t, .memory []⟩
    let w : Workspace := ⟨u, .memory [("unit", (first.judge t none).finalState)]⟩
    let runs : List Run := [⟨first, t⟩]
    start.state? "unit" = none ∧ History "unit" start runs w ∧ second.unit = "unit" ∧
      second.mode = .incremental ∧ w.Takes "unit" ∧
      second.normalized w.tree.workingPath = .ok second ∧
      ∃ w' result, w.execute second = (w', .ok (result, .stored)) ∧
        w'.state? "unit" = some result.finalState ∧
        result.finalState.usedMacroInclude = result.usedMacroInclude ∧
        (result.usedMacroInclude = true ↔ ∃ before r after,
          runs ++ [⟨second, w.tree⟩] = before ++ r :: after ∧ r.InDoubt ∧
            ∀ later ∈ after, later.Incomplete) := by
  intro a b t u first second start w runs
  have fresh : start.state? "unit" = none := rfl
  have hfirst : first.normalized t.workingPath = .ok first := by decide +kernel
  have hsecond : second.normalized u.workingPath = .ok second := by decide +kernel
  have takes (tree : FileTree) (rs : Records) : Takes ⟨tree, .memory rs⟩ "unit" :=
    Working.takes (w := ⟨tree, .memory rs⟩) trivial "unit"
  have ran : start.execute first =
      (⟨t, .memory [("unit", (first.judge t none).finalState)]⟩,
        .ok (first.judge t none, .stored)) :=
    execute_of_normalized hfirst
  have history : History "unit" start runs w :=
    .change (.run .start rfl rfl (takes t []) hfirst ran) w rfl
  exact ⟨fresh, history, rfl, rfl, takes u _, hsecond,
    usedMacroInclude_execute fresh history rfl rfl (takes u _) hsecond⟩

end Workspace

end Recompile
