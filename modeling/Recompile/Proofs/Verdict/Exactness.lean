import Recompile.Proofs.Graph.Reachable
import Recompile.Verdict

/-!
# When a source is not compiled again

A source is left alone exactly if what it reaches is what was remembered of it
(`Config.not_mem_toRecompile_iff`). A verdict only looks at the files that the source
reaches now: it never follows what is remembered. That the remembered files are the same
ones is a consequence: as long as a file includes what it did, each step along what is
remembered is a step of the graph and the other way round (`Graph.reaches_iff_of_current`).
-/

set_option autoImplicit false

namespace Recompile

/-! ## What a verdict has -/

namespace Config

variable {c : Config} {t : FileTree} {before : Option State}

/-- The state of a run has the declared sources. -/
theorem sources_finalState : (c.judge t before).finalState.sources = c.declared := by
  simp only [judge, stateOf]

/-- The flag of a verdict is decided by the graph and by the state before. -/
theorem usedMacroInclude_judge :
    (c.judge t before).usedMacroInclude = usesMacroInclude (c.graph t) before := by
  simp only [judge]

/-- The state of a run is made of the declared sources, the graph and the flag. -/
theorem finalState_judge : (c.judge t before).finalState =
    stateOf c.declared (c.graph t) (c.judge t before).usedMacroInclude := by
  simp only [judge]

/-- What is remembered of a graph is what its scan found. -/
theorem file?_stateOf {sources : PathSet} {g : Graph} {used : Bool} {p : Path} :
    (stateOf sources g used).file? p = (g.scan? p).map Scan.remembered := by
  have hget : (stateOf sources g used).file? p =
      (g.nodes.filterMap fun _ n => n.scan?.map Scan.remembered).get? p := rfl
  rw [hget, PathMap.get?_filterMap, Graph.scan?, Graph.node?, Option.map_bind]
  rfl

/-- A state remembers the files that could be read. -/
theorem mem_files_stateOf {sources : PathSet} {g : Graph} {used : Bool} {p : Path} :
    p ∈ (stateOf sources g used).files ↔ (g.scan? p).isSome := by
  rw [← PathMap.isSome_get?, ← Option.isSome_map (f := Scan.remembered),
    ← file?_stateOf (g := g)]
  rfl

/-- The inputs of a verdict are what the sources reach, and the fallback inputs. -/
theorem discoveredInputs_judge : (c.judge t before).discoveredInputs = PathSet.addAll ∅
    (c.reached (c.graph t) ++ c.fallbackInputs t (c.judge t before).usedMacroInclude) := by
  simp only [judge]

/-- The verdict lists for each declared source what its scan includes. -/
theorem sourceIncludes_judge : (c.judge t before).sourceIncludes =
    c.declared.map fun source _ => (((c.graph t).scan? source).map Scan.includes).getD [] := by
  simp only [judge]

end Config

/-! ## What is remembered -/

/-- The files that a root reaches by what is remembered: itself, and all that a file
which it reaches is remembered to include. -/
inductive State.Reaches (s : State) (root : Path) : Path → Prop where
  | self {p : Path} (h : p.Same root) : Reaches s root p
  | step {p q : Path} {f : FileState} (h : Reaches s root p) (recorded : s.file? p = some f)
      (included : q ∈ f.resolved) : Reaches s root q

namespace Graph

variable {g : Graph} {previous : State} {p q root source : Path}

/-- A file could be read and is as it is remembered. -/
def Current (g : Graph) (previous : State) (p : Path) : Prop :=
  ∃ s f, g.scan? p = some s ∧ previous.file? p = some f ∧ s.Agrees f

/-- Whether a file is as it is remembered does not depend on its spelling. -/
theorem Current.congr (h : g.Current previous p) (hpq : p.Same q) : g.Current previous q := by
  obtain ⟨s, f, hs, hf, hagree⟩ := h
  exact ⟨s, f, scan?_congr hpq ▸ hs, (PathMap.get?_congr hpq).symm.trans hf, hagree⟩

/-- A file of the graph is dirty unless it is as it is remembered. -/
theorem isDirty_eq_false_iff (h : p ∈ g.nodes) :
    g.isDirty previous p = false ↔ g.Current previous p := by
  obtain ⟨n, hn⟩ := PathMap.mem_iff_get?.mp h
  have hnode : g.node? p = some n := hn
  unfold isDirty Current
  rw [hnode]
  cases n with
  | unreadable e =>
    have hscan : g.scan? p = none := by rw [scan?, hnode]; rfl
    simp [hscan]
  | scanned s =>
    have hscan : g.scan? p = some s := scan?_eq_some_iff.mpr hnode
    cases hf : previous.file? p with
    | none => simp
    | some f => simp [hscan]

/-- No reason is given for a source of which all files are as they are remembered, and
which was a source before. -/
theorem reason?_eq_none_iff (hnodes : ∀ p, g.Reaches source p → p ∈ g.nodes) :
    g.reason? (some previous) source = none ↔
      source ∈ previous.sources ∧ ∀ p, g.Reaches source p → g.Current previous p := by
  have hself := Reaches.self g source
  have hreached : ((g.reachable source).toList.find? (g.isDirty previous)) = none ↔
      ∀ p ∈ g.reachable source, g.Current previous p := by
    rw [List.find?_eq_none]
    constructor
    · intro h p hp
      obtain ⟨q, hq, hpq⟩ := PathSet.mem_iff_toList.mp hp
      have hmem := hnodes q (.inr (PathSet.mem_of_mem_toList hq))
      exact ((isDirty_eq_false_iff hmem).mp (Bool.not_eq_true _ ▸ h q hq)).congr hpq.symm
    · intro h q hq
      have hmem := PathSet.mem_of_mem_toList hq
      rw [Bool.not_eq_true, isDirty_eq_false_iff (hnodes q (.inr hmem))]
      exact h q hmem
  have hsource : previous.isSource source = true ↔ source ∈ previous.sources :=
    PathMap.contains_iff
  -- The reasons in turn: the source cannot be read, is new or has changed, or a file that it
  -- reaches has.
  unfold reason?
  constructor
  · intro h
    simp only at h
    split at h
    · exact absurd h (by simp)
    · split at h
      · exact absurd h (by simp)
      · rename_i hdeclared
        split at h
        · exact absurd h (by simp)
        · rename_i hclean
          rw [Option.map_eq_none_iff, hreached] at h
          refine ⟨hsource.mp (by simpa using hdeclared), fun p hp => ?_⟩
          rcases hp with hp | hp
          · have hcurrent := (isDirty_eq_false_iff (hnodes source hself)).mp (by simpa using hclean)
            exact hcurrent.congr hp.symm
          · exact h p hp
  · rintro ⟨hdeclared, hcurrent⟩
    obtain ⟨s, f, hs, -, -⟩ := hcurrent source hself
    have hclean := (isDirty_eq_false_iff (hnodes source hself)).mpr (hcurrent source hself)
    have hrest := hreached.mpr fun p hp => hcurrent p (.inr hp)
    simp [hs, hsource.mpr hdeclared, hclean, hrest]

/-- If all that a root reaches is as it is remembered, it reaches what it is remembered to
reach. -/
theorem reaches_iff_of_current (h : ∀ p, g.Reaches root p → g.Current previous p) :
    g.Reaches root p ↔ previous.Reaches root p := by
  constructor
  · intro hp
    refine hp.induct (fun q hq => .self hq) ?_
    rintro q r hq hrem ⟨s, hs, hr⟩
    obtain ⟨s', f, hs', hf, -, hsame⟩ := h q hq
    obtain rfl : s = s' := Option.some.inj (hs.symm.trans hs')
    exact hrem.step hf (hsame.mem_iff.mp hr)
  · intro hp
    induction hp with
    | self hself => exact .inl hself
    | step _ hrecorded hincluded ih =>
      obtain ⟨s, f, hs, hf, -, hsame⟩ := h _ ih
      obtain rfl := Option.some.inj (hrecorded.symm.trans hf)
      exact ih.step ⟨s, hs, hsame.mem_iff.mpr hincluded⟩

end Graph

namespace Config

variable {c : Config} {t : FileTree} {previous : Option State} {source p : Path}

/-- All that a declared source reaches has a node. -/
theorem mem_nodes_of_reaches (hsource : source ∈ c.declared)
    (h : (c.graph t).Reaches source p) : p ∈ (c.graph t).nodes :=
  Graph.node?_of_reaches (Graph.source_mem_build hsource) h

/-- A source is compiled again if there is a reason for its declared spelling. -/
theorem mem_toRecompile_iff : source ∈ (c.judge t previous).toRecompile ↔
    ∃ q ∈ c.declared.toList, source.Same q ∧ ((c.graph t).reason? previous q).isSome := by
  unfold Compilation.toRecompile judge
  rw [PathMap.mem_map, PathMap.mem_filterMap]
  constructor
  · rintro ⟨e, he, hsame, hreason⟩
    exact ⟨e.1, PathSet.mem_toList.mpr he, hsame, hreason⟩
  · rintro ⟨q, hq, hsame, hreason⟩
    exact ⟨(q, ()), PathSet.mem_toList.mp hq, hsame, hreason⟩

/-- What is to be recompiled is declared. -/
theorem declared_of_mem_toRecompile (h : source ∈ (c.judge t previous).toRecompile) :
    source ∈ c.declared := by
  obtain ⟨q, hq, hsame, -⟩ := mem_toRecompile_iff.mp h
  exact PathSet.mem_iff_toList.mpr ⟨q, hq, hsame⟩

/-- If nothing is remembered, all declared sources are compiled again. -/
theorem mem_toRecompile_none (hsource : source ∈ c.declared) :
    source ∈ (c.judge t none).toRecompile := by
  obtain ⟨q, hq, hsame⟩ := PathSet.mem_iff_toList.mp hsource
  exact mem_toRecompile_iff.mpr ⟨q, hq, hsame, rfl⟩

/-- A declared source is left alone if and only if it was a source before and all that it
reaches is as it is remembered. -/
theorem kept_iff_current {state : State} (hsource : source ∈ c.declared) :
    source ∉ (c.judge t (some state)).toRecompile ↔
      source ∈ state.sources ∧
        ∀ p, (c.graph t).Reaches source p → (c.graph t).Current state p := by
  obtain ⟨q, hq, hsame⟩ := PathSet.mem_iff_toList.mp hsource
  have hqmem := PathSet.mem_of_mem_toList hq
  -- A source is declared under one spelling, so the reason for that one decides.
  have hnone : source ∉ (c.judge t (some state)).toRecompile ↔
      (c.graph t).reason? (some state) q = none := by
    rw [mem_toRecompile_iff, ← Option.not_isSome_iff_eq_none]
    constructor
    · exact fun h hreason => h ⟨q, hq, hsame, hreason⟩
    · rintro h ⟨r, hr, hsr, hreason⟩
      have hentry := PathMap.entry_unique (PathSet.mem_toList.mp hq) (PathSet.mem_toList.mp hr)
        (hsame.symm.trans hsr)
      exact h ((Prod.mk.inj hentry).1 ▸ hreason)
  rw [hnone, Graph.reason?_eq_none_iff fun p hp => mem_nodes_of_reaches hqmem hp]
  refine and_congr (PathMap.mem_congr hsame.symm) (forall_congr' fun p => ?_)
  exact ⟨fun h hp => h (hp.congr_root hsame), fun h hp => h (hp.congr_root hsame.symm)⟩

/-- A declared source is left alone if and only if it was a source before, it reaches now
the files that it is remembered to reach, and each of them can be read and has the
fingerprint and the includes that are remembered of it. -/
theorem not_mem_toRecompile_iff (c : Config) (t : FileTree) (state : State) {source : Path}
    (declared : source ∈ c.declared) :
    source ∉ (c.judge t (some state)).toRecompile ↔
      source ∈ state.sources ∧
      (∀ p, (c.graph t).Reaches source p ↔ state.Reaches source p) ∧
      ∀ p, (c.graph t).Reaches source p → ∃ s f, (c.graph t).scan? p = some s ∧
        state.file? p = some f ∧ s.fingerprint = f.fingerprint ∧
        PathSet.Same s.resolved f.resolved := by
  rw [kept_iff_current declared]
  constructor
  · rintro ⟨hsource, hcurrent⟩
    exact ⟨hsource, fun p => Graph.reaches_iff_of_current hcurrent, hcurrent⟩
  · rintro ⟨hsource, -, hcurrent⟩
    exact ⟨hsource, hcurrent⟩

/-- Two sources: `/a`, which includes `h`, and `/b` with some text. -/
def twoSources (text : String) : FileTree :=
  (((FileTree.bare []).put [['a']] (.file (Utf8.encode "#include \"h\"".toList))).put [['h']]
    (.file [])).put [['b']] (.file (Utf8.encode text.toList))

/-- After an edit of `/b` alone, `/a` is kept, which was declared under another spelling, and
`/b` is compiled again. -/
theorem not_mem_toRecompile_iff_edited :
    let a : Path := ⟨['/', 'a']⟩
    let b : Path := ⟨['/', 'b']⟩
    let c := { Config.ofUnit "unit" with sources := [⟨['/', '/', 'a']⟩, b] }
    let t := twoSources "int y;"
    let state := (c.judge (twoSources "int x;") none).finalState
    let unchanged (source : Path) : Prop := source ∈ state.sources ∧
      (∀ p, (c.graph t).Reaches source p ↔ state.Reaches source p) ∧
      ∀ p, (c.graph t).Reaches source p → ∃ s f, (c.graph t).scan? p = some s ∧
        state.file? p = some f ∧ s.fingerprint = f.fingerprint ∧
        PathSet.Same s.resolved f.resolved
    (a ∈ c.declared ∧ a ∉ (c.judge t (some state)).toRecompile ∧ unchanged a) ∧
      b ∈ c.declared ∧ b ∈ (c.judge t (some state)).toRecompile ∧ ¬ unchanged b := by
  intro a b c t state unchanged
  have ha : a ∈ c.declared := by decide
  have hb : b ∈ c.declared := by decide
  have hkept : a ∉ (c.judge t (some state)).toRecompile := by decide +kernel
  have hchanged : b ∈ (c.judge t (some state)).toRecompile := by decide +kernel
  refine ⟨⟨ha, hkept, (not_mem_toRecompile_iff c t state ha).mp hkept⟩, hb, hchanged, ?_⟩
  exact fun hunchanged => (not_mem_toRecompile_iff c t state hb).mpr hunchanged hchanged

end Config

end Recompile
