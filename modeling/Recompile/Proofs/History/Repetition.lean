import Recompile.Proofs.Graph.Closure
import Recompile.Proofs.Graph.Footprint
import Recompile.Proofs.History.Run
import Recompile.Proofs.Store.Places
import Recompile.Proofs.Verdict.ContentEdit

/-!
# A run that is repeated

A run that follows another one with no change in between finds the same graph and the same
files below the search roots, as long as the runs look at nothing that a commit changes
(`Workspace.Apart`). What it remembers, the files to watch and the flag are then those of the
first run, nothing is removed, and a source is compiled again only if it reaches a file that
cannot be read (`Compilation.Repeats`, `Workspace.exists_execute_twice`). The flag settles at
once because the first run has carried it over already, and on the same graph.

A commit changes more than the directory of the store: where a directory above it is missing,
that is made too, and an include that goes through it is found from then on. And a source that
can be read is compiled again if it includes a header that may not be opened
(`Workspace.not_forall_execute_twice`).
-/

set_option autoImplicit false

namespace Recompile

namespace Config

variable {c : Config} {t t' : FileTree} {before : Option State} {p source : Path}

/-! ## Two verdicts on one graph -/

/-- On the graph that is remembered a file is as it is remembered if it has a scan. -/
theorem current_finalState_iff (hgraph : c.graph t' = c.graph t) :
    (c.graph t').Current (c.judge t before).finalState p ↔ ((c.graph t').scan? p).isSome := by
  unfold Graph.Current
  rw [Option.isSome_iff_exists]
  constructor
  · rintro ⟨s, f, hs, -, -⟩
    exact ⟨s, hs⟩
  · rintro ⟨s, hs⟩
    have hremembered : (c.graph t).scan? p = some s := by
      rw [← hgraph]
      exact hs
    exact ⟨s, s.remembered, hs, file?_finalState_eq_some.mpr ⟨s, hremembered, rfl⟩, rfl, rfl⟩

/-- On the graph that is remembered the sources are compiled again that reach a file that
cannot be read. -/
theorem mem_toRecompile_again (hgraph : c.graph t' = c.graph t) :
    source ∈ (c.judge t' (some (c.judge t before).finalState)).toRecompile ↔
      source ∈ c.declared ∧ ∃ q ∈ (c.graph t').nodes.keys, (c.graph t').Reaches source q ∧
        ∃ e, t'.read q = .error e := by
  have hkept (declared : source ∈ c.declared) :
      source ∈ (c.judge t' (some (c.judge t before).finalState)).toRecompile ↔
        ∃ q, (c.graph t').Reaches source q ∧ (c.graph t').scan? q = none := by
    rw [← not_iff_not, kept_iff_current declared, sources_finalState]
    simp [declared, current_finalState_iff hgraph, Option.isSome_iff_ne_none]
  constructor
  · intro hrecompile
    have declared := declared_of_mem_toRecompile hrecompile
    obtain ⟨q, hreach, hscan⟩ := (hkept declared).mp hrecompile
    obtain ⟨e, he, hqe⟩ := mem_nodes_of_reaches declared hreach
    have hkey : e.1 ∈ (c.graph t').nodes.keys := PathMap.mem_keys.mpr ⟨e.2, he⟩
    refine ⟨declared, e.1, hkey, hreach.congr hqe, ?_⟩
    rw [Graph.scan?_congr hqe] at hscan
    exact (Graph.scan?_eq_none_iff hkey).mp hscan
  · rintro ⟨declared, q, hkey, hreach, hread⟩
    exact (hkept declared).mpr ⟨q, hreach, (Graph.scan?_eq_none_iff hkey).mpr hread⟩

/-- The flag that was carried over once is carried over again, and no other one. -/
theorem usedMacroInclude_again (hgraph : c.graph t' = c.graph t) :
    (c.judge t' (some (c.judge t before).finalState)).usedMacroInclude =
      (c.judge t before).usedMacroInclude := by
  have hflag : (c.judge t before).finalState.usedMacroInclude =
      usesMacroInclude (c.graph t) before := by
    simp only [judge, stateOf]
  rw [usedMacroInclude_judge, usedMacroInclude_judge, hgraph]
  unfold usesMacroInclude at hflag ⊢
  rw [Option.any_some, hflag]
  cases (c.graph t).isUndecided with
  | true => simp
  | false => simp

/-- If every declared source can be read and no included file is one that may not be opened,
the graph that is remembered has nothing to compile. -/
theorem toRecompile_again_eq_empty (hgraph : c.graph t' = c.graph t)
    (readable : ∀ p ∈ c.declared.toList, ∃ bytes, t'.read p = .ok bytes)
    (permitted : ∀ q ∈ (c.graph t').nodes.keys, t'.read q ≠ .error .permissionDenied) :
    (c.judge t' (some (c.judge t before).finalState)).toRecompile = ∅ := by
  apply PathMap.eq_empty_of_forall_not_mem
  intro source hrecompile
  obtain ⟨-, q, hkey, -, e, herror⟩ := (mem_toRecompile_again hgraph).mp hrecompile
  have hread : ∃ bytes, t'.read q = .ok bytes := by
    rcases Graph.source_or_isFile_of_mem_keys hkey with hsource | hfile
    · exact readable q hsource
    · exact (FileTree.read_of_isFile hfile).resolve_right (permitted q hkey)
  obtain ⟨bytes, hok⟩ := hread
  rw [hok] at herror
  cases herror

end Config

/-- A run finds nothing new after another one. It removes nothing, and it compiles exactly
the declared sources again that cannot be read or reach a file that cannot be read: none, if
every declared source can be read and every included file may be opened. All else is as it was
found before. -/
structure Compilation.Repeats (first second : Compilation) (c : Config) (t : FileTree) : Prop where
  removed : second.removed = ∅
  toRecompile : ∀ p, p ∈ second.toRecompile ↔ p ∈ c.declared ∧
    ∃ q ∈ second.graph.nodes.keys, second.graph.Reaches p q ∧ ∃ e, t.read q = .error e
  readable : (∀ p ∈ c.declared.toList, ∃ bytes, t.read p = .ok bytes) →
    (∀ q ∈ second.graph.nodes.keys, t.read q ≠ .error .permissionDenied) → second.toRecompile = ∅
  finalState : second.finalState = first.finalState
  discoveredInputs : second.discoveredInputs = first.discoveredInputs
  sourceIncludes : second.sourceIncludes = first.sourceIncludes
  usedMacroInclude : second.usedMacroInclude = first.usedMacroInclude

namespace Config

variable {c : Config} {t t' : FileTree}

/-- A verdict on the graph that is remembered finds nothing new. -/
theorem repeats_of_graph_eq (before : Option State) (hgraph : c.graph t' = c.graph t)
    (hfiles : t'.filesUnder c.resolver.roots = t.filesUnder c.resolver.roots) :
    let first := c.judge t before
    first.Repeats (c.judge t' (some first.finalState)) c t' := by
  intro first
  have hused : (c.judge t' (some first.finalState)).usedMacroInclude = first.usedMacroInclude :=
    usedMacroInclude_again hgraph
  constructor
  case removed =>
    apply PathMap.eq_empty_of_forall_not_mem
    intro p hp
    obtain ⟨hmem, hnot⟩ := PathSet.mem_diff.mp hp
    exact hnot hmem
  case toRecompile => exact fun p => mem_toRecompile_again hgraph
  case readable => exact toRecompile_again_eq_empty hgraph
  case finalState =>
    calc (c.judge t' (some first.finalState)).finalState
      _ = stateOf c.declared (c.graph t') _ := finalState_judge
      _ = stateOf c.declared (c.graph t) first.usedMacroInclude := by rw [hused, hgraph]
      _ = first.finalState := finalState_judge.symm
  case discoveredInputs =>
    have hfallback : c.fallbackInputs t' (c.judge t' (some first.finalState)).usedMacroInclude =
        c.fallbackInputs t first.usedMacroInclude := by
      unfold fallbackInputs
      rw [hused, hfiles]
    rw [discoveredInputs_judge, hfallback, hgraph, ← discoveredInputs_judge]
  case sourceIncludes => rw [sourceIncludes_judge, hgraph, ← sourceIncludes_judge]
  case usedMacroInclude => exact hused

/-! ## What a run looks at -/

/-- The paths that a run looks up: those of the files that it scans, the candidates for the
targets of their directives, and those of the walk below the search roots. -/
def LooksUp (c : Config) (t : FileTree) (p : Path) : Prop :=
  (∃ file ∈ (c.graph t).nodes.keys, p ∈ c.scanner.lookedUp t file) ∨
    t.LookedUpBelow c.resolver.roots p

end Config

namespace Workspace

variable {w : Workspace} {c n : Config}

/-- The store is apart from all that a run looks at: it is out of the way of the files, the
candidates for their targets and the search roots, and no directory below a search root has
a place of the store. -/
structure Apart (w : Workspace) (c : Config) : Prop where
  lookups : ∀ p, c.LooksUp w.tree p → w.Beside p
  listings : ∀ p dir, w.tree.Below c.resolver.roots p dir → ∀ m, ¬ w.Owns (m :: dir)

/-- A commit does not change the graph of a configuration from which the store is apart. -/
theorem Apart.graph_commit (apart : w.Apart n) (working : w.Working) (unit : String)
    (s : State) : n.graph (w.commit unit s).1.tree = n.graph w.tree := by
  apply Graph.build_congr
  intro file hfile p hp
  exact working.find_commit unit s (apart.lookups p (.inl ⟨file, hfile, hp⟩))

/-- A commit does not change the files under the search roots of such a configuration. -/
theorem Apart.filesUnder_commit (apart : w.Apart n) (working : w.Working)
    (unit : String) (s : State) :
    (w.commit unit s).1.tree.filesUnder n.resolver.roots =
      w.tree.filesUnder n.resolver.roots := by
  apply FileTree.filesUnder_congr
  · intro loc hloc
    exact working.held_commit unit s hloc
  · intro p dir hbelow
    exact working.children_commit unit s (apart.listings p dir hbelow)
  · intro p hp
    exact working.find_commit unit s (apart.lookups p (.inr hp))

/-- A run that is repeated with no change in between finds nothing new, whatever the store
had for the unit before. -/
theorem exists_execute_twice (working : w.Working) (mode : c.mode = .incremental)
    (normalized : c.normalized w.tree.workingPath = .ok n)
    (apart : w.Apart n) :
    ∃ w' w'' first second, w.execute c = (w', .ok (first, .stored)) ∧
      w'.execute c = (w'', .ok (second, .stored)) ∧ first.Repeats second n w'.tree := by
  obtain ⟨first, hfirst⟩ : ∃ first, first = n.judge w.tree (w.state? c.unit) := ⟨_, rfl⟩
  have ran := working.execute_eq mode normalized
  rw [← hfirst] at ran
  have hgraph := apart.graph_commit working c.unit first.finalState
  have hfiles := apart.filesUnder_commit working c.unit first.finalState
  have hdir := working.workingDir_commit c.unit first.finalState
  have working' := working.commit c.unit first.finalState
  have hstate := working.state?_commit c.unit first.finalState
  -- What the second run needs of the first one's tree is known by now.
  obtain ⟨w', hw'⟩ : ∃ w', w' = (w.commit c.unit first.finalState).1 := ⟨_, rfl⟩
  dsimp only at ran
  rw [← hw'] at ran hgraph hfiles hdir working' hstate
  have normalized' : c.normalized w'.tree.workingPath = .ok n := by
    unfold FileTree.workingPath
    rw [hdir]
    exact normalized
  have ran' := working'.execute_eq mode normalized'
  rw [hstate] at ran'
  subst hfirst
  exact ⟨w', _, _, _, ran, ran', Config.repeats_of_graph_eq _ hgraph hfiles⟩

/-! ## A store whose directory is missing -/

/-- A source `/a` with some text, a header `/b`, and a directory `/i` with a header. -/
def sourceAndHeaders (text : List UInt8) : FileTree :=
  ((((FileTree.bare []).put [['i']] .directory).put [['h'], ['i']]
    (.file (Utf8.encode "y".toList))).put [['b']] (.file (Utf8.encode "x".toList))).put [['a']]
      (.file text)

/-- A directory for records that is missing, like the one above it. -/
def missingDirectory : Path :=
  ⟨['/', 's', '/', 't']⟩

variable {text : List UInt8} {loc : Location}

/-- The tree has these three files and the two directories. -/
theorem entry?_sourceAndHeaders (loc : Location) :
    FileTree.entry? (sourceAndHeaders text) loc =
      if loc = [['a']] then some (.file text)
      else if loc = [['b']] then some (.file (Utf8.encode "x".toList))
      else if loc = [['h'], ['i']] then some (.file (Utf8.encode "y".toList))
      else if loc = [['i']] then some .directory
      else if loc = [] then some .directory else none := by
  have hroom {t : FileTree} {l : Location} (hmissing : t.entry? l = none)
      (hdir : t.entry? l.tail = some .directory) : t.HasRoom l :=
    FileTree.hasRoom_of_missing hmissing hdir
  unfold sourceAndHeaders
  rw [FileTree.entry?_put (hroom rfl rfl), FileTree.entry?_put (hroom rfl rfl),
    FileTree.entry?_put (hroom rfl rfl), FileTree.entry?_put (hroom rfl rfl)]
  cases loc with
  | nil => rfl
  | cons => rfl

/-- Making the missing directory of the example puts it and the one above into the tree. -/
theorem makeDirectories_missingDirectory :
    (sourceAndHeaders text).makeDirectories missingDirectory =
      (((sourceAndHeaders text).put [['s']] .directory).put [['t'], ['s']] .directory, .ok ()) :=
  rfl

/-- The directory is found once it has been made. -/
theorem find_missingDirectory :
    ((sourceAndHeaders text).makeDirectories missingDirectory).1.find missingDirectory =
      .ok ([['t'], ['s']], .directory) :=
  rfl

/-- The store of the example is in order. -/
theorem inOrder_missingDirectory :
    Store.InOrder (sourceAndHeaders text) missingDirectory [['t'], ['s']] := by
  apply Store.InOrder.of_empty
  case fits => exact Store.refusal?_recordPath (by decide) (by decide)
  case scratch => rfl
  case made => rfl
  case found => exact find_missingDirectory
  case empty =>
    intro unit
    rw [makeDirectories_missingDirectory]
    dsimp only
    rw [FileTree.entry?_put_of_ne (by simp), FileTree.entry?_put_of_ne (by simp)]
    have habove : FileTree.entry? (sourceAndHeaders text) [['t'], ['s']] = none := rfl
    exact FileTree.entry?_below habove _

/-- The store of the example takes states. -/
theorem working_missingDirectory :
    Workspace.Working ⟨sourceAndHeaders text, .directory missingDirectory⟩ :=
  ⟨_, inOrder_missingDirectory⟩

/-- The places in the store of the example are those below its directory. -/
theorem inside_missingDirectory :
    Workspace.Inside ⟨sourceAndHeaders text, .directory missingDirectory⟩ loc ↔
      [['t'], ['s']] <:+ loc := by
  constructor
  · rintro ⟨dir, hfound, hsuffix⟩
    cases hfound.symm.trans find_missingDirectory
    exact hsuffix
  · intro hsuffix
    exact ⟨_, find_missingDirectory, hsuffix⟩

/-- The places that the store of the example takes up are all below one new directory. -/
theorem owns_missingDirectory
    (h : Workspace.Owns ⟨sourceAndHeaders text, .directory missingDirectory⟩ loc) :
    [['s']] <:+ loc := by
  rcases h with hinside | hmade
  · exact (List.suffix_cons _ _).trans (inside_missingDirectory.mp hinside)
  · by_contra hnot
    apply hmade
    have hs : loc ≠ [['s']] := by
      rintro rfl
      exact hnot (List.suffix_refl _)
    have ht : loc ≠ [['t'], ['s']] := by
      rintro rfl
      exact hnot (List.suffix_cons _ _)
    show FileTree.entry? ((sourceAndHeaders text).makeDirectories missingDirectory).1 loc = _
    rw [makeDirectories_missingDirectory]
    dsimp only
    rw [FileTree.entry?_put_of_ne ht, FileTree.entry?_put_of_ne hs]

/-- A walk from `/i` comes to no other directory and looks up no link. -/
theorem below_sourceAndHeaders {p : Path} {dir : Location}
    (h : (sourceAndHeaders text).Below [⟨['/', 'i']⟩] p dir) : dir = [['i']] := by
  induction h with
  | root h found =>
    cases List.mem_singleton.mp h
    cases found
    rfl
  | child h entry _ ih =>
    subst ih
    rw [entry?_sourceAndHeaders] at entry
    split_ifs at entry <;> simp_all
  | link h entry found ih =>
    rw [entry?_sourceAndHeaders] at entry
    split_ifs at entry <;> cases entry

/-- It is not enough that all look-ups stay outside the directory of the store, and that no
search root has a place of the store below it. Where the directory above is missing, the
first commit makes it, and then an include of `s/../b` leads to a header. -/
theorem not_forall_of_outside :
    ¬ ∀ (w : Workspace) (c n : Config), w.Working → c.mode = .incremental →
      c.normalized w.tree.workingPath = .ok n →
      (∀ p, n.LooksUp w.tree p → w.Outside p) →
      (∀ p dir, w.tree.Below n.resolver.roots p dir → ∀ m, ¬ w.Owns (m :: dir)) →
      ∃ w' w'' first second, w.execute c = (w', .ok (first, .stored)) ∧
        w'.execute c = (w'', .ok (second, .stored)) ∧ first.Repeats second n w'.tree := by
  intro h
  let text : List UInt8 := Utf8.encode "#include \"s/../b\"".toList
  let w : Workspace := ⟨sourceAndHeaders text, .directory missingDirectory⟩
  let c := { Config.ofUnit "u" with sources := [⟨['/', 'a']⟩] }
  have normalized : c.normalized w.tree.workingPath = .ok c := by decide +kernel
  have hasked : ∀ file ∈ (c.graph w.tree).nodes.keys, ∀ p ∈ c.scanner.lookedUp w.tree file,
      ∀ loc ∈ w.prepared.asked true p, ¬ [['t'], ['s']] <:+ loc := by
    decide +kernel
  have hbelow (p : Path) (dir : Location) : ¬ w.tree.Below c.resolver.roots p dir := by
    intro hbelow
    induction hbelow with
    | root h => cases h
    | child _ _ _ ih => exact ih
    | link _ _ _ ih => exact ih
  have houtside (p : Path) (hp : c.LooksUp w.tree p) : w.Outside p := by
    intro loc hloc hinside
    rcases hp with ⟨file, hfile, hp⟩ | hp
    · exact hasked file hfile p hp loc hloc (inside_missingDirectory.mp hinside)
    · cases hp with
      | root h => cases h
      | link h => exact hbelow _ _ h
  obtain ⟨w', w'', first, second, ran, ran', repeats⟩ := h w c c working_missingDirectory rfl
    normalized houtside fun p dir hp => absurd hp (hbelow p dir)
  have hfirst : (w.execute c).2.toOption.map (fun r => r.1.discoveredInputs.isEmpty) =
      some true := by
    decide +kernel
  have hsecond : ((w.execute c).1.execute c).2.toOption.map
      (fun r => r.1.discoveredInputs.isEmpty) = some false := by
    decide +kernel
  rw [ran] at hfirst hsecond
  dsimp only at hsecond
  rw [ran'] at hsecond
  have hempty : first.discoveredInputs.isEmpty = true := Option.some.inj hfirst
  have hheader : second.discoveredInputs.isEmpty = false := Option.some.inj hsecond
  rw [repeats.discoveredInputs, hempty] at hheader
  cases hheader

/-- A store in memory is out of the way of every run. -/
theorem apart_memory (t : FileTree) (rs : Records) (c : Config) : Apart ⟨t, .memory rs⟩ c where
  lookups _ _ := ⟨fun _ _ hinside => hinside, rfl⟩
  listings _ _ _ _ howns := howns.elim id fun hchanged => hchanged rfl

/-- A source `/a` that includes a header `/b`, which may not be opened. -/
def sourceAndLockedHeader : FileTree :=
  ((FileTree.bare []).put [['b']] .locked).put [['a']]
    (.file (Utf8.encode "#include \"b\"".toList))

/-- It is not enough for an empty verdict that every declared source can be read. A header
that is found but may not be opened is no source, and what includes it is compiled again. -/
theorem not_forall_of_readable :
    ¬ ∀ (w : Workspace) (c n : Config), w.Working → c.mode = .incremental →
      c.normalized w.tree.workingPath = .ok n → w.Apart n →
      (∀ p ∈ n.declared.toList, ∃ bytes, w.tree.read p = .ok bytes) →
      ∀ w' w'' first second, w.execute c = (w', .ok (first, .stored)) →
        w'.execute c = (w'', .ok (second, .stored)) → second.toRecompile = ∅ := by
  intro h
  let w : Workspace := ⟨sourceAndLockedHeader, .memory []⟩
  let c := { Config.ofUnit "u" with sources := [⟨['/', 'a']⟩] }
  have working : w.Working := trivial
  have normalized : c.normalized w.tree.workingPath = .ok c := by decide +kernel
  have readable : ∀ p ∈ c.declared.toList, ∃ bytes, w.tree.read p = .ok bytes := by
    intro p hp
    have hdeclared : c.declared.toList = [⟨['/', 'a']⟩] := by decide +kernel
    rw [hdeclared] at hp
    rw [List.mem_singleton.mp hp]
    exact ⟨_, rfl⟩
  have apart : w.Apart c := apart_memory ..
  obtain ⟨w', w'', first, second, ran, ran', -⟩ :=
    exists_execute_twice working rfl normalized apart
  have hagain : ((w.execute c).1.execute c).2.toOption.map (fun r => r.1.toRecompile.isEmpty) =
      some false := by
    decide +kernel
  rw [ran] at hagain
  dsimp only at hagain
  rw [ran'] at hagain
  have hempty := h w c c working rfl normalized apart readable w' w'' first second ran ran'
  have hnot : second.toRecompile.isEmpty = false := Option.some.inj hagain
  rw [hempty] at hnot
  cases hnot

/-- A store whose directory is out of the way may still change where an include leads, and a
run in which all declared sources can be read may still compile one of them again. -/
theorem not_forall_execute_twice :
    (¬ ∀ (w : Workspace) (c n : Config), w.Working → c.mode = .incremental →
      c.normalized w.tree.workingPath = .ok n →
      (∀ p, n.LooksUp w.tree p → w.Outside p) →
      (∀ p dir, w.tree.Below n.resolver.roots p dir → ∀ m, ¬ w.Owns (m :: dir)) →
      ∃ w' w'' first second, w.execute c = (w', .ok (first, .stored)) ∧
        w'.execute c = (w'', .ok (second, .stored)) ∧ first.Repeats second n w'.tree) ∧
    ¬ ∀ (w : Workspace) (c n : Config), w.Working → c.mode = .incremental →
      c.normalized w.tree.workingPath = .ok n → w.Apart n →
      (∀ p ∈ n.declared.toList, ∃ bytes, w.tree.read p = .ok bytes) →
      ∀ w' w'' first second, w.execute c = (w', .ok (first, .stored)) →
        w'.execute c = (w'', .ok (second, .stored)) → second.toRecompile = ∅ :=
  ⟨not_forall_of_outside, not_forall_of_readable⟩

/-- The first run makes the directory of the store, and it has a source `/a` that names a
header by a macro without a value and a source `/x` that is missing. -/
theorem exists_execute_twice_missing :
    let text : List UInt8 := Utf8.encode "#include M".toList
    let w : Workspace := ⟨sourceAndHeaders text, .directory missingDirectory⟩
    let c := { Config.ofUnit "u" with
      sources := [⟨['/', 'a']⟩, ⟨['/', 'x']⟩], roots := [⟨['/', 'i']⟩] }
    w.Working ∧ c.mode = .incremental ∧ c.normalized w.tree.workingPath = .ok c ∧ w.Apart c ∧
      ∃ w' w'' first second, w.execute c = (w', .ok (first, .stored)) ∧
        w'.execute c = (w'', .ok (second, .stored)) ∧ first.Repeats second c w'.tree := by
  intro text w c
  have normalized : c.normalized w.tree.workingPath = .ok c := by decide +kernel
  have hlookups : ∀ file ∈ (c.graph w.tree).nodes.keys, ∀ p ∈ c.scanner.lookedUp w.tree file,
      (∀ loc ∈ w.prepared.asked true p, ¬ [['t'], ['s']] <:+ loc) ∧
        w.prepared.find p = w.tree.find p := by
    decide +kernel
  have hroot : (∀ loc ∈ w.prepared.asked true ⟨['/', 'i']⟩, ¬ [['t'], ['s']] <:+ loc) ∧
      w.prepared.find ⟨['/', 'i']⟩ = w.tree.find ⟨['/', 'i']⟩ := by
    decide +kernel
  have apart : w.Apart c := by
    constructor
    case lookups =>
      intro p hp
      have hbeside : (∀ loc ∈ w.prepared.asked true p, ¬ [['t'], ['s']] <:+ loc) ∧
          w.prepared.find p = w.tree.find p := by
        rcases hp with ⟨file, hfile, hp⟩ | hp
        · exact hlookups file hfile p hp
        · cases hp with
          | root h =>
            cases List.mem_singleton.mp h
            exact hroot
          | link h entry =>
            rw [below_sourceAndHeaders h, entry?_sourceAndHeaders] at entry
            split_ifs at entry <;> cases entry
      obtain ⟨hasked, hfind⟩ := hbeside
      exact ⟨fun loc hloc hinside => hasked loc hloc (inside_missingDirectory.mp hinside), hfind⟩
    case listings =>
      intro p dir hbelow m howns
      have hsuffix := owns_missingDirectory howns
      rw [below_sourceAndHeaders hbelow] at hsuffix
      simp [List.suffix_cons_iff] at hsuffix
  exact ⟨working_missingDirectory, rfl, normalized, apart,
    exists_execute_twice working_missingDirectory rfl normalized apart⟩

end Workspace

end Recompile
