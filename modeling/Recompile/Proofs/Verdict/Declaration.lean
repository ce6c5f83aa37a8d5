import Recompile.Proofs.Verdict.ContentEdit
import Recompile.Proofs.Verdict.Locality
import Recompile.Workspace

/-!
# The order of sources

The outcome of a run depends on which sources are declared, not on their order or on how
often each is repeated (`Workspace.process_of_same_sources`). Of several spellings of one
source the first is kept, so the outcomes may show other spellings; they agree as paths
(`Compilation.Alike`). What is kept must then show what any other spelling shows. A slash at
the end is the exception: a path with one leads to directories alone, so if a source is
declared with it and without it, the one that comes first decides whether it can be read
(`Workspace.not_forall_process_of_same_sources`).
-/

set_option autoImplicit false

namespace Recompile

/-- Two outcomes tell the same, however their paths are spelled. -/
structure Compilation.Alike (r r' : Compilation) : Prop where
  toRecompile : PathSet.Same r.toRecompile r'.toRecompile
  removed : PathSet.Same r.removed r'.removed
  discoveredInputs : PathSet.Same r.discoveredInputs r'.discoveredInputs
  sourceIncludes : ∀ p, r.sourceIncludes.get? p = r'.sourceIncludes.get? p
  usedMacroInclude : r.usedMacroInclude = r'.usedMacroInclude
  sources : PathSet.Same r.finalState.sources r'.finalState.sources
  files : ∀ p, r.finalState.file? p = r'.finalState.file? p
  stateUsedMacroInclude : r.finalState.usedMacroInclude = r'.finalState.usedMacroInclude

namespace Config

variable {c c' n n' : Config} {t : FileTree} {previous : Option State} {p q source : Path}

/-- Two spellings of one source both have a slash at the end of their absolute forms, or
neither has. -/
def SlashesAgree (c : Config) (workingDir : Path) : Prop :=
  ∀ s ∈ c.sources, ∀ s' ∈ c.sources, ∀ p p', s.absolute? workingDir = some p →
    s'.absolute? workingDir = some p' → p.Same p' → p.endsWithSlash = p'.endsWithSlash

/-- Then the two spellings show the same. -/
theorem ShortLookups.scanFile_same {s : Scanner} (short : c.ShortLookups s t)
    (slashes : c.SlashesAgree t.workingPath)
    {source' p' : Path} (hsource : source ∈ c.sources) (hsource' : source' ∈ c.sources)
    (hp : source.absolute? t.workingPath = some p)
    (hp' : source'.absolute? t.workingPath = some p') (hsame : p.Same p') :
    s.scanFile t p = s.scanFile t p' := by
  have htidy : p.tidy = p'.tidy :=
    Path.tidy_congr hsame (slashes source hsource source' hsource' p p' hp hp' hsame)
  obtain ⟨habs, hspelled⟩ := Path.absolute?_eq_tidy rfl t.workingPath_clean hp
  obtain ⟨habs', hspelled'⟩ := Path.absolute?_eq_tidy rfl t.workingPath_clean hp'
  rw [short.scanFile_eq hsource hp habs hspelled, short.scanFile_eq hsource' hp' habs' hspelled',
    htidy]

/-- Judging by agreeing graphs for the same sources comes to outcomes that are alike. -/
theorem alike_of_agrees (hn : n' = { n with sources := n'.sources })
    (h : (n.graph t).Agrees (n'.graph t)) (hsame : ∀ p, p ∈ n.declared ↔ p ∈ n'.declared) :
    (n.judge t previous).Alike (n'.judge t previous) := by
  have hnode (p : Path) : (n.graph t).node? p = (n'.graph t).node? p := h.node?_eq hsame p
  have hscan (p : Path) : (n.graph t).scan? p = (n'.graph t).scan? p := by
    rw [Graph.scan?, Graph.scan?, hnode]
  -- The flag comes first: the discovered inputs and the state depend on it.
  have hused : (n.judge t previous).usedMacroInclude = (n'.judge t previous).usedMacroInclude := by
    rw [Bool.eq_iff_iff]
    exact ⟨usedMacroInclude_of_agrees h fun p => (hsame p).mp,
      usedMacroInclude_of_agrees h.symm fun p => (hsame p).mpr⟩
  have hfallback (used : Bool) : n.fallbackInputs t used = n'.fallbackInputs t used := by
    rw [hn]
    rfl
  have hreachable (p source : Path) (hsource : source ∈ n.declared) :
      p ∈ (n.graph t).reachable source ↔ p ∈ (n'.graph t).reachable source :=
    h.mem_reachable_iff (Graph.source_mem_build hsource)
      (Graph.source_mem_build ((hsame source).mp hsource))
  constructor
  case toRecompile =>
    rw [PathSet.same_iff]
    intro p
    by_cases hp : p ∈ n.declared
    · exact mem_toRecompile_iff_of_agrees h hp ((hsame p).mp hp)
    · exact iff_of_false (fun hmem => hp (declared_of_mem_toRecompile hmem))
        fun hmem => hp ((hsame p).mpr (declared_of_mem_toRecompile hmem))
  case removed =>
    rw [PathSet.same_iff]
    intro p
    show p ∈ PathSet.diff _ _ ↔ p ∈ PathSet.diff _ _
    rw [PathSet.mem_diff, PathSet.mem_diff, hsame]
  case discoveredInputs =>
    rw [PathSet.same_iff]
    intro p
    rw [mem_discoveredInputs_iff, mem_discoveredInputs_iff, hused, hfallback]
    refine or_congr_left (exists_congr fun source => ?_)
    rw [← hsame]
    exact and_congr_right fun hsource => hreachable p source hsource
  case sourceIncludes =>
    intro p
    by_cases hp : p ∈ n.declared
    · exact get?_sourceIncludes_of_agrees h hp ((hsame p).mp hp)
    · have hp' : p ∉ n'.declared := fun hmem => hp ((hsame p).mpr hmem)
      rw [sourceIncludes_judge, sourceIncludes_judge, PathMap.get?_eq_none, PathMap.get?_eq_none]
      · rwa [PathMap.mem_map]
      · rwa [PathMap.mem_map]
  case usedMacroInclude => exact hused
  case sources =>
    rw [sources_finalState, sources_finalState, PathSet.same_iff]
    exact hsame
  case files =>
    intro p
    rw [file?_finalState, file?_finalState, hscan]
  case stateUsedMacroInclude =>
    have hstate (c : Config) : (c.judge t previous).finalState.usedMacroInclude =
        (c.judge t previous).usedMacroInclude := by
      simp only [judge, stateOf]
    rw [hstate, hstate, hused]

end Config

namespace Workspace

variable {w : Workspace} {c n : Config} {sources : List Path}

/-- Declaring the same sources in another order, some of them repeatedly, leads to an outcome
that is alike. -/
theorem process_of_same_sources (hnormal : c.normalized w.tree.workingPath = .ok n)
    (hsources : ∀ p, p ∈ sources ↔ p ∈ c.sources)
    (slashes : c.SlashesAgree w.tree.workingPath) (short : c.ShortLookups n.scanner w.tree) :
    ∃ r r', w.process c = .ok r ∧ w.process { c with sources := sources } = .ok r' ∧
      r.Alike r' := by
  have hform : ∀ p ∈ sources, ∃ q, p.absolute? w.tree.workingPath = some q := fun p hp =>
    Config.exists_absolute?_of_normalized hnormal ((hsources p).mp hp)
  obtain ⟨absolutes, -, hnormal'⟩ := Config.normalized_with_sources hnormal hform
  have hsame (p : Path) : p ∈ n.declared ↔
      p ∈ ({ n with sources := (PathSet.addAll ∅ absolutes).toList } : Config).declared := by
    rw [Config.mem_declared_iff, Config.mem_declared_iff, Config.mem_sources_of_normalized hnormal,
      Config.mem_sources_of_normalized hnormal']
    simp only [hsources]
  refine ⟨_, _, by rw [process, hnormal], by rw [process, hnormal'], ?_⟩
  refine Config.alike_of_agrees rfl (Graph.agrees_of_same hsame ?_) hsame
  intro p hp q hq hpq
  obtain ⟨s, hs, hsp⟩ := Config.exists_source_of_normalized hnormal hp
  obtain ⟨s', hs', hsq⟩ := Config.exists_source_of_normalized hnormal' hq
  exact short.scanFile_same slashes hs ((hsources s').mp hs') hsp hsq hpq

/-- The sources `/a`, spelled in two ways, and `/h`, in another order and repeated. -/
theorem process_of_same_sources_respelled :
    let t := ((FileTree.bare []).put [['a']] (.file (Utf8.encode "#include \"h\"".toList))).put
      [['h']] (.file [])
    let w : Workspace := ⟨t, .memory []⟩
    let a : Path := ⟨['/', 'a']⟩
    let c := { Config.ofUnit "unit" with sources := [a.doubled, ⟨['h']⟩, a] }
    let n := { Config.ofUnit "unit" with sources := [a.doubled, ⟨['/', 'h']⟩] }
    let sources : List Path := [a, ⟨['h']⟩, a.doubled, ⟨['h']⟩]
    c.normalized w.tree.workingPath = .ok n ∧
      (∀ p, p ∈ sources ↔ p ∈ c.sources) ∧ c.SlashesAgree w.tree.workingPath ∧
      c.ShortLookups n.scanner w.tree ∧
      ∃ r r', w.process c = .ok r ∧ w.process { c with sources := sources } = .ok r' ∧
        r.Alike r' := by
  intro t w a c n sources
  have hnormal : c.normalized w.tree.workingPath = .ok n := by decide +kernel
  have hsub : ∀ p ∈ sources, p ∈ c.sources := by decide
  have hsub' : ∀ p ∈ c.sources, p ∈ sources := by decide
  have hslash : ∀ s ∈ c.sources, ∀ p ∈ s.absolute? w.tree.workingPath,
      p.endsWithSlash = false := by
    decide
  have slashes : c.SlashesAgree w.tree.workingPath := by
    intro s hs s' hs' p p' hp hp' _
    rw [hslash s hs p hp, hslash s' hs' p' hp']
  have short : c.ShortLookups n.scanner w.tree := by
    have hlookups : ∀ s ∈ c.sources, ∀ q ∈ s.absolute? w.tree.workingPath,
        ∀ p ∈ n.scanner.lookedUp w.tree q, Path.byteSize p.chars < Path.byteLimit := by
      decide +kernel
    intro s hs q hq _
    exact hlookups s hs q hq
  have hsources (p : Path) : p ∈ sources ↔ p ∈ c.sources := ⟨hsub p, hsub' p⟩
  exact ⟨hnormal, hsources, slashes, short,
    process_of_same_sources hnormal hsources slashes short⟩

/-- With `/a/` before `/a` the file cannot be read, with `/a` before `/a/` it can. -/
theorem not_forall_process_of_same_sources :
    ¬ ∀ (w : Workspace) (c n : Config) (sources : List Path),
      c.normalized w.tree.workingPath = .ok n → sources.Perm c.sources →
      c.ShortLookups n.scanner w.tree →
      ∃ r r', w.process c = .ok r ∧ w.process { c with sources := sources } = .ok r' ∧
        r.Alike r' := by
  intro h
  let t := (FileTree.bare []).put [['a']] (.file [])
  let a : Path := ⟨['/', 'a']⟩
  let slashed : Path := ⟨['/', 'a', '/']⟩
  let c := { Config.ofUnit "unit" with sources := [a, slashed] }
  let n := { Config.ofUnit "unit" with sources := [a] }
  let n' := { Config.ofUnit "unit" with sources := [slashed] }
  have hnormal : c.normalized t.workingPath = .ok n := by decide +kernel
  have hnormal' :
      ({ c with sources := [slashed, a] } : Config).normalized t.workingPath = .ok n' := by
    decide +kernel
  have short : c.ShortLookups n.scanner t := by
    have hlookups : ∀ s ∈ c.sources, ∀ q ∈ s.absolute? t.workingPath,
        ∀ p ∈ n.scanner.lookedUp t q, Path.byteSize p.chars < Path.byteLimit := by
      decide +kernel
    intro s hs q hq _
    exact hlookups s hs q hq
  obtain ⟨r, r', hr, hr', halike⟩ := h ⟨t, .memory []⟩ c n [slashed, a] hnormal
    (List.Perm.swap _ _ _) short
  rw [process, hnormal] at hr
  rw [process, hnormal'] at hr'
  cases hr
  cases hr'
  have hread : ((n.judge t none).finalState.file? a).isSome = true := by decide +kernel
  have hunread : ((n'.judge t none).finalState.file? a).isSome = false := by decide +kernel
  rw [show (n.judge t none).finalState.file? a = (n'.judge t none).finalState.file? a from
    halike.files a, hunread] at hread
  cases hread

end Workspace

end Recompile
