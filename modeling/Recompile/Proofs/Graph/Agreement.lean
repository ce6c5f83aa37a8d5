import Recompile.Proofs.Graph.Footprint
import Recompile.Proofs.Graph.Reachable
import Recompile.Proofs.Path.Doubled

/-!
# Graphs that agree

Two scans for different sources come to different files, and may come to one file under two
spellings. The graphs agree if each file that both came to has one node in both
(`Graph.Agrees`); then a root that both came to reaches the same in both
(`Graph.Agrees.reaches_iff`), since what a file includes is part of its node. That another
spelling shows the same is known for a second slash at the start (`Scanner.scanFile_doubled`).
-/

set_option autoImplicit false

namespace Recompile

variable {t : FileTree}

/-! ## A file under two spellings -/

namespace Resolver

variable {r : Resolver} {ds : Directives} {file dir : Path}

/-- The directory of a doubled spelling is the same, or it is doubled too. -/
theorem directoryOf_doubled (h : file.isAbsolute = true) :
    directoryOf file.doubled = directoryOf file ∨
      (directoryOf file).isAbsolute = true ∧
        directoryOf file.doubled = (directoryOf file).doubled := by
  unfold directoryOf
  rcases Path.parent?_doubled h with hparent | ⟨dir, hparent, hdir, hdoubled⟩
  · exact .inl (by rw [hparent])
  · right
    rw [hparent, hdoubled]
    exact ⟨hdir, rfl⟩

/-- A search that begins in a doubled directory finds what it finds without the doubling, if the
longer spellings are short enough. -/
theorem search_doubled {dirs : List Path} {target : Path} (hdir : dir.isAbsolute = true)
    (hshort : ∀ p ∈ candidates (dir.doubled :: dirs) target,
      Path.byteSize p.chars < Path.byteLimit) :
    search t (dir.doubled :: dirs) target = search t (dir :: dirs) target := by
  unfold search candidates at *
  by_cases habs : target.isAbsolute = true
  · rw [if_pos habs, if_pos habs]
  · have hrelative := Bool.eq_false_of_not_eq_true habs
    have hjoin : (dir.join target).isAbsolute = true := by
      rw [Path.isAbsolute_join_of_ne_nil (Path.chars_ne_nil_of_isAbsolute hdir) hrelative, hdir]
    rw [if_neg habs] at hshort ⊢
    have hfirst : Path.byteSize (dir.join target).doubled.chars < Path.byteLimit := by
      rw [← Path.join_doubled hdir hrelative]
      exact hshort _ List.mem_cons_self
    have hfile : t.isFile (dir.join target).doubled = t.isFile (dir.join target) := by
      unfold FileTree.isFile
      rw [FileTree.find_doubled hjoin hfirst]
    rw [if_neg habs, List.map_cons, List.map_cons, Path.join_doubled hdir hrelative,
      List.find?_cons, List.find?_cons, hfile]
    split
    · rw [Option.map_some, Option.map_some, Path.clean_doubled hjoin]
    · rfl

/-- A target is located alike from a directory and from its doubled spelling. -/
theorem locate_doubled {found : Option (IncludeForm × String)} (hdir : dir.isAbsolute = true)
    (hshort : ∀ form target, found = some (form, target) →
      ∀ p ∈ candidates (r.searchDirs dir.doubled form) (.ofString target),
        Path.byteSize p.chars < Path.byteLimit) :
    r.locate t dir.doubled found = r.locate t dir found := by
  unfold locate
  cases hfound : found with
  | none => rfl
  | some named =>
    obtain ⟨form, target⟩ := named
    have hsearch : search t (r.searchDirs dir.doubled form) (.ofString target) =
        search t (r.searchDirs dir form) (.ofString target) := by
      cases form with
      | quoted => exact search_doubled hdir (hshort _ _ hfound)
      | system | macroName => rfl
    dsimp only
    rw [hsearch]

/-- Directives are resolved in the same way for a file with a second slash at the start of its
path, as long as no candidate is too long. -/
theorem resolveAll_doubled (h : file.isAbsolute = true)
    (hshort : ∀ p ∈ r.consulted ds file.doubled, Path.byteSize p.chars < Path.byteLimit) :
    r.resolveAll t ds file.doubled = r.resolveAll t ds file := by
  unfold resolveAll
  rcases directoryOf_doubled h with hdir | ⟨habs, hdir⟩
  · rw [hdir]
  · apply List.map_congr_left
    intro found hmem
    rw [hdir, locate_doubled habs]
    intro form target hfound p hp
    apply hshort
    refine List.mem_flatMap.mpr ⟨found, hmem, ?_⟩
    rw [hfound, hdir]
    exact hp

end Resolver

namespace Scanner

variable {s : Scanner} {file : Path}

/-- A file is scanned in the same way with a second slash at the start of its path, as long as
nothing that is looked up is too long. -/
theorem scanFile_doubled (h : file.isAbsolute = true)
    (hshort : ∀ p ∈ s.lookedUp t file.doubled, Path.byteSize p.chars < Path.byteLimit) :
    s.scanFile t file.doubled = s.scanFile t file := by
  have hfind := FileTree.find_doubled (t := t) h (hshort _ List.mem_cons_self)
  have hread : t.read file.doubled = t.read file := by
    unfold FileTree.read
    rw [hfind]
  unfold scanFile
  rw [hread]
  cases hbytes : t.read file with
  | error e => rfl
  | ok bytes =>
    have hresolve : s.resolver.resolveAll t (.ofBytes s.imports bytes) file.doubled =
        s.resolver.resolveAll t (.ofBytes s.imports bytes) file := by
      apply Resolver.resolveAll_doubled h
      intro p hp
      apply hshort
      unfold lookedUp
      rw [hread, hbytes]
      exact List.mem_cons_of_mem _ hp
    unfold scanBytes
    dsimp only
    rw [hresolve]

end Scanner

namespace Graph

/-! ## Graphs that agree -/

variable {g g' : Graph} {p q : Path}

/-- Each file of both graphs has one node in both. -/
def Agrees (g g' : Graph) : Prop :=
  ∀ p, p ∈ g.nodes → p ∈ g'.nodes → g.node? p = g'.node? p

/-- Agreement of graphs is symmetric. -/
theorem Agrees.symm (h : g.Agrees g') : g'.Agrees g :=
  fun p hp hp' => (h p hp' hp).symm

/-- Graphs that agree have the same scan of a file of both. -/
theorem Agrees.scan?_eq (h : g.Agrees g') (hp : p ∈ g.nodes) (hp' : p ∈ g'.nodes) :
    g.scan? p = g'.scan? p := by
  rw [scan?, scan?, h p hp hp']

variable {s s' : Scanner} {t' : FileTree} {sources sources' : List Path} {root : Path}

/-- The graphs of two scans agree if each source shows what its clean spelling shows. -/
theorem agrees_of_clean (hclean : ∀ p ∈ sources, s.scanFile t p = s.scanFile t p.clean)
    (hclean' : ∀ p ∈ sources', s.scanFile t p = s.scanFile t p.clean) :
    (build s t sources).Agrees (build s t sources') := by
  have hnode (sources : List Path) (h : ∀ p ∈ sources, s.scanFile t p = s.scanFile t p.clean)
      (p : Path) (hp : p ∈ (build s t sources).nodes) :
      (build s t sources).node? p = some (s.scanFile t p.clean) := by
    obtain ⟨e, he, hpe⟩ := hp
    rw [node?_congr hpe, node?_of_mem_entries he, node_eq_scanFile he, Path.clean_congr hpe]
    rcases node_path he with hsource | ⟨q, -, hq⟩
    · rw [h e.1 (PathSet.mem_toList_ofList hsource)]
    · rw [hq, Path.clean_clean]
  intro p hp hp'
  rw [hnode sources hclean p hp, hnode sources' hclean' p hp']

/-- The graphs of two scans agree if they are for the same sources, and the two spellings of a
source show the same. -/
theorem agrees_of_same (hsame : ∀ p, p ∈ PathSet.ofList sources ↔ p ∈ PathSet.ofList sources')
    (hscan : ∀ p ∈ sources, ∀ q ∈ sources', p.Same q → s.scanFile t p = s.scanFile t q) :
    (build s t sources).Agrees (build s t sources') := by
  rintro p ⟨e, he, hpe⟩ ⟨e', he', hpe'⟩
  have hee : e.1.Same e'.1 := hpe.symm.trans hpe'
  rw [node?_congr hpe, node?_of_mem_entries he, node?_congr hpe', node?_of_mem_entries he',
    node_eq_scanFile he, node_eq_scanFile he']
  by_cases hsource : e.1 ∈ PathSet.ofList sources
  · -- A file that is a source of both scans has its node under the spelling of the source.
    obtain ⟨q, hq, heq⟩ := PathSet.mem_iff_toList.mp hsource
    obtain ⟨q', hq', heq'⟩ := PathSet.mem_iff_toList.mp ((hsame e.1).mp hsource)
    obtain rfl := node_path_of_source hq he heq.symm
    obtain rfl := node_path_of_source hq' he' (heq'.symm.trans hee)
    rw [hscan _ (PathSet.mem_toList_ofList hq) _ (PathSet.mem_toList_ofList hq') hee]
  · have hsource' : e'.1 ∉ PathSet.ofList sources' := fun h =>
      hsource ((PathMap.mem_congr hee).mpr ((hsame e'.1).mpr h))
    rcases node_path he with hpath | ⟨q, -, hq⟩
    · exact absurd (PathSet.mem_of_mem_toList hpath) hsource
    rcases node_path he' with hpath' | ⟨q', -, hq'⟩
    · exact absurd (PathSet.mem_of_mem_toList hpath') hsource'
    rw [hq, hq'] at hee ⊢
    rw [Path.clean_eq_of_same hee]

/-- What a root reaches in one of two graphs that agree it reaches in the other. -/
theorem Agrees.reaches (h : (build s t sources).Agrees (build s' t' sources'))
    (hroot : root ∈ (build s t sources).nodes) (hroot' : root ∈ (build s' t' sources').nodes)
    (hp : (build s t sources).Reaches root p) : (build s' t' sources').Reaches root p := by
  refine hp.induct (fun q hq => .inl hq) ?_
  rintro q r hq hq' ⟨found, hfound, hr⟩
  have hscan := h.scan?_eq (node?_of_reaches hroot hq) (node?_of_reaches hroot' hq')
  exact hq'.step ⟨found, hscan ▸ hfound, hr⟩

/-- Graphs that agree reach the same from a root of both, since what a node includes is in its
graph. -/
theorem Agrees.reaches_iff (h : (build s t sources).Agrees (build s' t' sources'))
    (hroot : root ∈ (build s t sources).nodes) (hroot' : root ∈ (build s' t' sources').nodes) :
    (build s t sources).Reaches root p ↔ (build s' t' sources').Reaches root p :=
  ⟨h.reaches hroot hroot', h.symm.reaches hroot' hroot⟩

/-- Graphs that agree have the same reachable files from a root of both. -/
theorem Agrees.mem_reachable_iff (h : (build s t sources).Agrees (build s' t' sources'))
    (hroot : root ∈ (build s t sources).nodes) (hroot' : root ∈ (build s' t' sources').nodes) :
    p ∈ (build s t sources).reachable root ↔ p ∈ (build s' t' sources').reachable root := by
  rw [mem_reachable_iff_reaches, mem_reachable_iff_reaches, h.reaches_iff hroot hroot']

/-- With more sources a scan comes to more files. -/
theorem Agrees.mem_nodes (h : (build s t sources).Agrees (build s' t' sources'))
    (hsub : ∀ p, p ∈ PathSet.ofList sources → p ∈ PathSet.ofList sources')
    (hp : p ∈ (build s t sources).nodes) : p ∈ (build s' t' sources').nodes := by
  obtain ⟨source, hsource, hreach⟩ := exists_source_reaches hp
  have hroot := source_mem_build (s := s') (t := t') (hsub source hsource)
  exact node?_of_reaches hroot (h.reaches (source_mem_build hsource) hroot hreach)

/-- With the same sources, agreeing scans have the same nodes for the same files. -/
theorem Agrees.node?_eq (h : (build s t sources).Agrees (build s' t' sources'))
    (hsame : ∀ p, p ∈ PathSet.ofList sources ↔ p ∈ PathSet.ofList sources') (p : Path) :
    (build s t sources).node? p = (build s' t' sources').node? p := by
  by_cases hp : p ∈ (build s t sources).nodes
  · exact h p hp (h.mem_nodes (fun q => (hsame q).mp) hp)
  · have hp' : p ∉ (build s' t' sources').nodes :=
      fun hmem => hp (h.symm.mem_nodes (fun q => (hsame q).mpr) hmem)
    rw [node?, node?, PathMap.get?_eq_none hp, PathMap.get?_eq_none hp']

/-- What some node of a scan shows, some node shows with more sources. -/
theorem Agrees.any_values (h : (build s t sources).Agrees (build s' t' sources'))
    (hsub : ∀ p, p ∈ PathSet.ofList sources → p ∈ PathSet.ofList sources') {shows : Node → Bool}
    (hany : (build s t sources).nodes.values.any shows = true) :
    (build s' t' sources').nodes.values.any shows = true := by
  obtain ⟨n, hn, hshows⟩ := List.any_eq_true.mp hany
  obtain ⟨p, hp⟩ := PathMap.mem_values.mp hn
  have hmem : p ∈ (build s t sources).nodes := PathMap.mem_iff_get?.mpr ⟨n, hp⟩
  have hnode : (build s' t' sources').node? p = some n :=
    (h p hmem (h.mem_nodes hsub hmem)).symm.trans hp
  exact List.any_eq_true.mpr ⟨n, PathMap.mem_values.mpr ⟨p, hnode⟩, hshows⟩

end Graph

end Recompile
