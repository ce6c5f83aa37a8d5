import Recompile.Proofs.Config.Normal
import Recompile.Proofs.FileTree.WorkingPath
import Recompile.Proofs.Graph.Agreement
import Recompile.Proofs.Verdict.Exactness

/-!
# Verdicts are local

The sources of a run share one graph, but none of them affects the verdict on another: a
source is judged as if it were declared alone, and the inputs of all are the inputs of each
(`Config.judge_alone`). What a source reaches is the same in the graph for all sources and in
the one for it alone, because the two agree (`Graph.Agrees`): a file that is also declared has
its node under the declared spelling there and under the clean one here, and without a slash
at their ends these spellings show the same.

Only a second slash at the start may count: it stays in an absolute path, and it can be the one
byte that makes the path too long (`Config.ShortLookups`, `Config.not_forall_judge_alone`).
-/

set_option autoImplicit false

namespace Recompile

namespace Config

variable {c c' n : Config} {t : FileTree} {previous : Option State} {p q source : Path}

/-! ## Judging by graphs that agree -/

/-- The declared set has the spellings of the sources. -/
theorem mem_declared_iff : p ∈ c.declared ↔ ∃ q ∈ c.sources, p.Same q :=
  PathSet.mem_ofList

/-- A source is judged in the same way by graphs that agree. -/
theorem mem_toRecompile_iff_of_agrees (h : (c.graph t).Agrees (c'.graph t)) (hp : p ∈ c.declared)
    (hp' : p ∈ c'.declared) :
    p ∈ (c.judge t previous).toRecompile ↔ p ∈ (c'.judge t previous).toRecompile := by
  cases previous with
  | none => exact iff_of_true (mem_toRecompile_none hp) (mem_toRecompile_none hp')
  | some state =>
    rw [← not_iff_not, kept_iff_current hp, kept_iff_current hp']
    have hroot : p ∈ (c.graph t).nodes := Graph.source_mem_build hp
    have hroot' : p ∈ (c'.graph t).nodes := Graph.source_mem_build hp'
    refine and_congr_right fun _ => forall_congr' fun r => ?_
    have hreach : (c.graph t).Reaches p r ↔ (c'.graph t).Reaches p r := h.reaches_iff hroot hroot'
    rw [← hreach]
    refine forall_congr' fun hr => ?_
    have hscan : (c.graph t).scan? r = (c'.graph t).scan? r :=
      h.scan?_eq (mem_nodes_of_reaches hp hr) (mem_nodes_of_reaches hp' (hreach.mp hr))
    unfold Graph.Current
    rw [hscan]

/-- The verdict lists for a declared source what its scan includes. -/
theorem get?_sourceIncludes (hp : p ∈ c.declared) :
    (c.judge t previous).sourceIncludes.get? p =
      some ((((c.graph t).scan? p).map Scan.includes).getD []) := by
  rw [sourceIncludes_judge]
  refine PathMap.get?_map_of_mem (f := fun q => (((c.graph t).scan? q).map Scan.includes).getD [])
    (fun q r hqr => ?_) hp
  rw [Graph.scan?_congr hqr]

/-- A source has the same include directives in graphs that agree. -/
theorem get?_sourceIncludes_of_agrees (h : (c.graph t).Agrees (c'.graph t)) (hp : p ∈ c.declared)
    (hp' : p ∈ c'.declared) :
    (c.judge t previous).sourceIncludes.get? p = (c'.judge t previous).sourceIncludes.get? p := by
  rw [get?_sourceIncludes hp, get?_sourceIncludes hp',
    h.scan?_eq (Graph.source_mem_build hp) (Graph.source_mem_build hp')]

/-- The inputs are what the sources reach, and what is below the search roots if that counts. -/
theorem mem_discoveredInputs_iff : p ∈ (c.judge t previous).discoveredInputs ↔
    (∃ source ∈ c.declared, p ∈ (c.graph t).reachable source) ∨
      ∃ q ∈ c.fallbackInputs t (c.judge t previous).usedMacroInclude, p.Same q := by
  have hreached : (∃ r ∈ c.reached (c.graph t), p.Same r) ↔
      ∃ source ∈ c.declared, p ∈ (c.graph t).reachable source := by
    constructor
    · rintro ⟨r, hr, hpr⟩
      obtain ⟨source, hsource, hr⟩ := List.mem_flatMap.mp hr
      exact ⟨source, PathSet.mem_of_mem_toList hsource, PathSet.mem_iff_toList.mpr ⟨r, hr, hpr⟩⟩
    · rintro ⟨source, hsource, hp⟩
      obtain ⟨q, hq, hsame⟩ := PathSet.mem_iff_toList.mp hsource
      obtain ⟨r, hr, hpr⟩ := PathSet.mem_iff_toList.mp ((Graph.mem_reachable_congr hsame).mp hp)
      exact ⟨r, List.mem_flatMap.mpr ⟨q, hq, hr⟩, hpr⟩
  rw [discoveredInputs_judge, PathSet.mem_addAll, or_iff_right (PathMap.not_mem_empty p),
    ← hreached]
  simp only [List.mem_append, or_and_right, exists_or]

/-- Without a target in doubt the inputs are what the sources reach. -/
theorem mem_discoveredInputs_iff_of_off
    (hoff : c.discoverInputs = false ∨ (c.judge t previous).usedMacroInclude = false) :
    p ∈ (c.judge t previous).discoveredInputs ↔
      ∃ source ∈ c.declared, p ∈ (c.graph t).reachable source := by
  have hfallback : c.fallbackInputs t (c.judge t previous).usedMacroInclude = [] := by
    rw [fallbackInputs, if_neg]
    rcases hoff with hoff | hoff <;> simp [hoff]
  rw [mem_discoveredInputs_iff, hfallback]
  simp

/-- With more sources more targets are in doubt. -/
theorem usedMacroInclude_of_agrees (h : (c.graph t).Agrees (c'.graph t))
    (hsub : ∀ p, p ∈ c.declared → p ∈ c'.declared)
    (hused : (c.judge t previous).usedMacroInclude = true) :
    (c'.judge t previous).usedMacroInclude = true := by
  rw [usedMacroInclude_judge, usesMacroInclude, Bool.or_eq_true, Bool.and_eq_true] at hused ⊢
  refine hused.imp (fun hundecided => ?_) (And.imp_right fun hunreadable => ?_)
  · exact h.any_values hsub hundecided
  · exact h.any_values hsub hunreadable

/-! ## A source alone -/

/-- No path that is looked up for a source is too long because of a second slash at the start
of its absolute form. -/
def ShortLookups (c : Config) (s : Scanner) (t : FileTree) : Prop :=
  ∀ source ∈ c.sources, ∀ q, source.absolute? t.workingPath = some q → ['/', '/'] <+: q.chars →
    ∀ p ∈ s.lookedUp t q, Path.byteSize p.chars < Path.byteLimit

/-- Then the absolute form shows what it shows without that slash. -/
theorem ShortLookups.scanFile_eq {s : Scanner} (short : c.ShortLookups s t)
    (hsource : source ∈ c.sources) (hq : source.absolute? t.workingPath = some q)
    (hp : p.isAbsolute = true) (hspelled : q = p ∨ q = p.doubled) :
    s.scanFile t q = s.scanFile t p := by
  rcases hspelled with rfl | rfl
  · rfl
  · apply Scanner.scanFile_doubled hp
    apply short source hsource _ hq
    obtain ⟨xs, hxs⟩ := Path.isAbsolute_iff.mp hp
    exact ⟨xs, by rw [Path.chars_doubled, hxs]; rfl⟩

/-- A source without a slash at its end shows what its clean spelling shows. -/
theorem ShortLookups.scanFile_clean {s : Scanner} (short : c.ShortLookups s t)
    (hsource : source ∈ c.sources) (hslash : source.endsWithSlash = false)
    (hq : source.absolute? t.workingPath = some q) :
    s.scanFile t q = s.scanFile t q.clean := by
  have habs : q.clean.isAbsolute = true :=
    (Path.isAbsolute_clean q).trans (Path.isAbsolute_of_absolute? rfl hq)
  exact short.scanFile_eq hsource hq habs
    (Path.absolute?_eq_clean rfl t.workingPath_clean hq hslash)

/-- The configuration that declares one source alone. -/
def alone (c : Config) (source : Path) : Config :=
  { c with sources := [source] }

/-- One of the sources is as valid alone, and the graph for it alone agrees with the graph for
all sources. -/
theorem exists_alone (hnormal : c.normalized t.workingPath = .ok n)
    (hslash : ∀ source ∈ c.sources, source.endsWithSlash = false)
    (short : c.ShortLookups n.scanner t) (hsource : source ∈ c.sources) :
    ∃ q, source.absolute? t.workingPath = some q ∧
      (c.alone source).normalized t.workingPath = .ok (n.alone q) ∧
      q ∈ n.declared ∧ (n.graph t).Agrees ((n.alone q).graph t) := by
  obtain ⟨q, hq⟩ := exists_absolute?_of_normalized hnormal hsource
  have hform : ∀ p ∈ [source], ∃ q, p.absolute? t.workingPath = some q := by
    intro p hp
    rw [List.mem_singleton.mp hp]
    exact ⟨q, hq⟩
  obtain ⟨sources, hsources, hnormal'⟩ := normalized_with_sources hnormal hform
  rw [absolutes_cons, hq] at hsources
  cases hsources
  refine ⟨q, hq, hnormal', ?_, ?_⟩
  · exact mem_declared_iff.mpr
      ((mem_sources_of_normalized hnormal).mpr ⟨source, hsource, q, hq, .refl q⟩)
  · apply Graph.agrees_of_clean
    · intro p hp
      obtain ⟨source', hsource', hp⟩ := exists_source_of_normalized hnormal hp
      exact short.scanFile_clean hsource' (hslash source' hsource') hp
    · intro p hp
      rw [List.mem_singleton.mp hp]
      exact short.scanFile_clean hsource (hslash source hsource) hq

/-- Without a target in doubt the inputs of a source alone are what it reaches among all. -/
theorem mem_discoveredInputs_alone (hq : q ∈ n.declared)
    (h : (n.graph t).Agrees ((n.alone q).graph t))
    (hoff : n.discoverInputs = false ∨ (n.judge t previous).usedMacroInclude = false) :
    p ∈ ((n.alone q).judge t previous).discoveredInputs ↔
      p ∈ (n.graph t).reachable q := by
  have hdeclared (r : Path) : r ∈ (n.alone q).declared ↔ r.Same q := by
    rw [mem_declared_iff]
    simp [alone]
  have hself := (hdeclared q).mpr (.refl q)
  have hsub : ∀ r, r ∈ (n.alone q).declared → r ∈ n.declared :=
    fun r hr => (PathMap.mem_congr ((hdeclared r).mp hr)).mpr hq
  have hreach : p ∈ (n.graph t).reachable q ↔
      p ∈ ((n.alone q).graph t).reachable q :=
    h.mem_reachable_iff (Graph.source_mem_build hq) (Graph.source_mem_build hself)
  have hoff' : (n.alone q).discoverInputs = false ∨
      ((n.alone q).judge t previous).usedMacroInclude = false := by
    refine hoff.imp_right fun hused => Bool.eq_false_of_not_eq_true fun hused' => ?_
    rw [usedMacroInclude_of_agrees h.symm hsub hused'] at hused
    cases hused
  rw [mem_discoveredInputs_iff_of_off hoff', hreach]
  constructor
  · rintro ⟨r, hr, hp⟩
    exact (Graph.mem_reachable_congr ((hdeclared r).mp hr)).mp hp
  · intro hp
    exact ⟨q, hself, hp⟩

/-- Each source is judged as if it were declared alone, and without a target in doubt the
inputs are those of each source. -/
theorem judge_alone (hnormal : c.normalized t.workingPath = .ok n)
    (hslash : ∀ source ∈ c.sources, source.endsWithSlash = false)
    (short : c.ShortLookups n.scanner t) (previous : Option State) :
    (∀ source ∈ c.sources, ∃ q n', source.absolute? t.workingPath = some q ∧
      (c.alone source).normalized t.workingPath = .ok n' ∧
      (q ∈ (n.judge t previous).toRecompile ↔ q ∈ (n'.judge t previous).toRecompile) ∧
      (n.judge t previous).sourceIncludes.get? q = (n'.judge t previous).sourceIncludes.get? q) ∧
    (c.discoverInputs = false ∨ (n.judge t previous).usedMacroInclude = false →
      ∀ p, p ∈ (n.judge t previous).discoveredInputs ↔ ∃ source ∈ c.sources, ∃ n',
        (c.alone source).normalized t.workingPath = .ok n' ∧
          p ∈ (n'.judge t previous).discoveredInputs) := by
  refine ⟨fun source hsource => ?_, fun hoff p => ?_⟩
  · obtain ⟨q, hq, hnormal', hdeclared, hagrees⟩ :=
      exists_alone hnormal hslash short hsource
    have hself : q ∈ (n.alone q).declared :=
      mem_declared_iff.mpr ⟨q, List.mem_cons_self, .refl q⟩
    exact ⟨q, _, hq, hnormal', mem_toRecompile_iff_of_agrees hagrees hdeclared hself,
      get?_sourceIncludes_of_agrees hagrees hdeclared hself⟩
  · -- Without the fallback inputs those of all sources are the union of what each source reaches.
    have hdiscover : n.discoverInputs = c.discoverInputs := by rw [eq_of_normalized hnormal]
    rw [← hdiscover] at hoff
    rw [mem_discoveredInputs_iff_of_off hoff]
    constructor
    · rintro ⟨r, hr, hp⟩
      obtain ⟨source, hsource, q, hq, hrq⟩ :=
        (mem_sources_of_normalized hnormal).mp (mem_declared_iff.mp hr)
      obtain ⟨q', hq', hnormal', hdeclared, hagrees⟩ :=
        exists_alone hnormal hslash short hsource
      obtain rfl : q = q' := Option.some.inj (hq.symm.trans hq')
      refine ⟨source, hsource, _, hnormal', ?_⟩
      exact (mem_discoveredInputs_alone hdeclared hagrees hoff).mpr
        ((Graph.mem_reachable_congr hrq).mp hp)
    · rintro ⟨source, hsource, n', hn', hp⟩
      obtain ⟨q, hq, hnormal', hdeclared, hagrees⟩ :=
        exists_alone hnormal hslash short hsource
      obtain rfl : n' = n.alone q := Except.ok.inj (hn'.symm.trans hnormal')
      exact ⟨q, hdeclared, (mem_discoveredInputs_alone hdeclared hagrees hoff).mp hp⟩

/-- The sources `/a`, spelled with two slashes, and `h`, which `/a` includes. -/
theorem judge_alone_included :
    let t := ((FileTree.bare []).put [['a']] (.file (Utf8.encode "#include \"h\"".toList))).put
      [['h']] (.file [])
    let c := { Config.ofUnit "unit" with sources := [⟨['/', '/', 'a']⟩, ⟨['h']⟩] }
    let n := { Config.ofUnit "unit" with sources := [⟨['/', '/', 'a']⟩, ⟨['/', 'h']⟩] }
    c.normalized t.workingPath = .ok n ∧ (∀ source ∈ c.sources, source.endsWithSlash = false) ∧
      c.ShortLookups n.scanner t ∧
      (∀ source ∈ c.sources, ∃ q n', source.absolute? t.workingPath = some q ∧
        (c.alone source).normalized t.workingPath = .ok n' ∧
        (q ∈ (n.judge t none).toRecompile ↔ q ∈ (n'.judge t none).toRecompile) ∧
        (n.judge t none).sourceIncludes.get? q = (n'.judge t none).sourceIncludes.get? q) ∧
      ∀ p, p ∈ (n.judge t none).discoveredInputs ↔ ∃ source ∈ c.sources, ∃ n',
        (c.alone source).normalized t.workingPath = .ok n' ∧
          p ∈ (n'.judge t none).discoveredInputs := by
  intro t c n
  have hnormal : c.normalized t.workingPath = .ok n := by decide +kernel
  have hslash : ∀ source ∈ c.sources, source.endsWithSlash = false := by decide
  have hlookups : ∀ p ∈ n.scanner.lookedUp t ⟨['/', '/', 'a']⟩,
      Path.byteSize p.chars < Path.byteLimit := by
    decide +kernel
  have short : c.ShortLookups n.scanner t := by
    intro source hsource q hq hdouble
    rcases List.mem_cons.mp hsource with rfl | hsource
    · obtain rfl : (⟨['/', '/', 'a']⟩ : Path) = q := Option.some.inj hq
      exact hlookups
    · obtain rfl := List.mem_singleton.mp hsource
      obtain rfl : (⟨['/', 'h']⟩ : Path) = q := Option.some.inj hq
      exact absurd hdouble (by decide)
  have hused : (n.judge t none).usedMacroInclude = false := by decide +kernel
  obtain ⟨hsources, hinputs⟩ := judge_alone hnormal hslash short none
  exact ⟨hnormal, hslash, short, hsources, hinputs (.inr hused)⟩

/-! ## A path of the greatest length -/

/-- The absolute path of a file `a` in the working directory. -/
def pathOfFile (t : FileTree) : Path :=
  t.workingPath.join ⟨['a']⟩

/-- The file `a`, declared by its absolute path with a second slash at the start. -/
def slashedFile (t : FileTree) : Config :=
  { Config.ofUnit "unit" with sources := [(pathOfFile t).doubled] }

/-- The same file, declared by its name as well, after that spelling. -/
def respelledFile (t : FileTree) : Config :=
  { Config.ofUnit "unit" with sources := [(pathOfFile t).doubled, ⟨['a']⟩] }

/-- The name of the example's file is a plain component. -/
theorem plain_file : (Path.Component.name ['a']).Plain :=
  ⟨rfl, by decide⟩

/-- The name of the file becomes its absolute path. -/
theorem absolute?_file (t : FileTree) :
    (⟨['a']⟩ : Path).absolute? t.workingPath = some (pathOfFile t) :=
  rfl

/-- The path of the example's file is absolute. -/
theorem isAbsolute_pathOfFile (t : FileTree) : (pathOfFile t).isAbsolute = true :=
  Path.isAbsolute_of_absolute? t.isAbsolute_workingPath (absolute?_file t)

/-- The second slash stays when the spelling is made absolute. -/
theorem absolute?_doubled_pathOfFile (t : FileTree) :
    (pathOfFile t).doubled.absolute? t.workingPath = some (pathOfFile t).doubled := by
  have hplain : ∀ c ∈ [Path.Component.name ['a']], c.Plain := by
    intro c hc
    rw [List.mem_singleton.mp hc]
    exact plain_file
  have hspelled : pathOfFile t = t.workingPath.extend [.name ['a']] := rfl
  have hclean : (pathOfFile t).clean = pathOfFile t := by
    rw [hspelled, Path.clean_extend hplain t.workingPath_clean]
  have hsettled : (pathOfFile t).doubled.Settled :=
    Path.settled_doubled (isAbsolute_pathOfFile t) (Path.tidy_of_clean hclean)
  exact hsettled.absolute? t.workingPath

/-- No source of the respelled configuration ends with a slash. -/
theorem not_endsWithSlash_respelledFile {t : FileTree} {source : Path}
    (h : source ∈ (respelledFile t).sources) : source.endsWithSlash = false := by
  have hpath : (pathOfFile t).endsWithSlash = false :=
    Path.not_endsWithSlash_join plain_file
      (Path.chars_ne_nil_of_isAbsolute t.isAbsolute_workingPath)
  rcases List.mem_cons.mp h with rfl | hname
  · rwa [Path.endsWithSlash_doubled (isAbsolute_pathOfFile t)]
  · rw [List.mem_singleton.mp hname]
    rfl

/-- Of the two spellings the first is kept. -/
theorem normalized_respelledFile (t : FileTree) :
    (respelledFile t).normalized t.workingPath = .ok (slashedFile t) := by
  have hmem : pathOfFile t ∈ PathSet.add ∅ (pathOfFile t).doubled :=
    PathSet.mem_add.mpr (.inl (Path.same_doubled (isAbsolute_pathOfFile t)))
  have hkept : PathSet.addAll ∅ [(pathOfFile t).doubled, pathOfFile t] =
      PathSet.add ∅ (pathOfFile t).doubled :=
    PathSet.add_of_mem hmem
  have hunit : Text.trim "unit".toList ≠ [] := by decide
  refine normalized_eq_ok_iff.mpr
    ⟨hunit, nofun, [], [(pathOfFile t).doubled, pathOfFile t], rfl, ?_, ?_⟩
  · rw [absolutes_eq_ok_iff]
    simp only [respelledFile, List.map_cons, List.map_nil, absolute?_doubled_pathOfFile,
      absolute?_file]
  · rw [hkept]
    rfl

/-- The normal form of the respelled configuration with the file alone is that of the other one.
-/
theorem normalized_alone_respelledFile (t : FileTree) :
    ((respelledFile t).alone ⟨['a']⟩).normalized t.workingPath =
      .ok ((slashedFile t).alone (pathOfFile t)) := by
  have hunit : Text.trim "unit".toList ≠ [] := by decide
  exact normalized_eq_ok_iff.mpr ⟨hunit, nofun, [], [pathOfFile t], rfl, rfl, rfl⟩

/-- A file `a` in a working directory with a path of 4093 bytes, so that its own absolute path
has 4095 bytes, which is as long as a path may be. -/
def deepFile : FileTree :=
  let dir := List.replicate 252 'd' :: List.replicate 15 (List.replicate 255 'd')
  (FileTree.bare dir).put (['a'] :: dir) (.file [])

/-- What is remembered of the file once it was judged alone. -/
def deepState : State :=
  (((slashedFile deepFile).alone (pathOfFile deepFile)).judge deepFile none).finalState

/-- Declared under both spellings, the file is to be recompiled. -/
theorem mem_toRecompile_slashedFile :
    pathOfFile deepFile ∈ ((slashedFile deepFile).judge deepFile deepState).toRecompile := by
  decide +kernel

/-- Declared alone, the file is not to be recompiled. -/
theorem not_mem_toRecompile_alone :
    pathOfFile deepFile ∉ (judge ((slashedFile deepFile).alone (pathOfFile deepFile)) deepFile
      deepState).toRecompile := by
  decide +kernel

/-- A source is judged otherwise alone if it is declared before under a spelling that is too
long for a second slash at its start: the file cannot be opened under that one, so it is compiled
again though nothing of it changed. -/
theorem not_forall_judge_alone :
    ¬ ∀ (c n n' : Config) (t : FileTree) (source q : Path) (previous : Option State),
      c.normalized t.workingPath = .ok n →
      (∀ source ∈ c.sources, source.endsWithSlash = false) → source ∈ c.sources →
      source.absolute? t.workingPath = some q → (c.alone source).normalized t.workingPath = .ok n' →
      (q ∈ (n.judge t previous).toRecompile ↔ q ∈ (n'.judge t previous).toRecompile) := by
  intro h
  have hiff := h (respelledFile deepFile) (slashedFile deepFile)
    ((slashedFile deepFile).alone (pathOfFile deepFile)) deepFile ⟨['a']⟩ (pathOfFile deepFile)
    (some deepState) (normalized_respelledFile deepFile)
    (fun _ hsource => not_endsWithSlash_respelledFile hsource)
    (List.mem_cons_of_mem _ List.mem_cons_self) (absolute?_file deepFile)
    (normalized_alone_respelledFile deepFile)
  exact not_mem_toRecompile_alone (hiff.mp mem_toRecompile_slashedFile)

end Config

end Recompile
