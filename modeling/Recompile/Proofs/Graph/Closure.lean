import Recompile.Proofs.FileTree.Shape
import Recompile.Proofs.FileTree.Spelling
import Recompile.Proofs.Graph.Reachable

/-!
# The scan finds the include closure

A set of paths encloses the sources (`Graph.Encloses`) if it has them and all files that its
members include. The paths of the graph are the least such set (`Graph.mem_build_iff`), and
the waves of the scan take them apart: each path is in one wave (`Graph.existsUnique_wave`),
and after finitely many of them nothing is left (`Graph.exists_waves`).

Paths are compared by their components, but a file is opened under a spelling. A file that
is found by a directive is opened under its clean spelling, and a source as it is declared,
also where a directive finds it under another spelling (`Graph.openedAs`). This decides what
the node of the file is (`Graph.node?_eq_scanFile`): with a slash at its end the spelling of
a source leads to no file.
-/

set_option autoImplicit false

namespace Recompile.Graph

variable {s : Scanner} {t : FileTree} {sources : List Path} {p q : Path} {n : Nat}

/-! ## The spelling under which a file is opened -/

/-- The spelling under which the scan opens a file: that of the source which it is, the last
of several, or else the clean one. -/
def openedAs (sources : List Path) (p : Path) : Path :=
  ((PathSet.ofList sources).toList.find? fun q => p.Same q).getD p.clean

/-- A source is opened under its own spelling. -/
theorem openedAs_of_source (hq : q ∈ (PathSet.ofList sources).toList) (h : p.Same q) :
    openedAs sources p = q := by
  unfold openedAs
  cases hfind : (PathSet.ofList sources).toList.find? fun q => p.Same q with
  | none => exact absurd (decide_eq_true h) (List.find?_eq_none.mp hfind q hq)
  | some r =>
    have hr : p.Same r := by simpa using List.find?_some hfind
    exact PathSet.eq_of_same (List.mem_of_find?_eq_some hfind) hq (hr.symm.trans h)

/-- What is not a source is opened under its clean spelling. -/
theorem openedAs_of_not_mem (h : p ∉ PathSet.ofList sources) :
    openedAs sources p = p.clean := by
  unfold openedAs
  cases hfind : (PathSet.ofList sources).toList.find? fun q => p.Same q with
  | none => rfl
  | some r =>
    have hr : p.Same r := by simpa using List.find?_some hfind
    exact absurd (PathSet.mem_iff_toList.mpr ⟨r, List.mem_of_find?_eq_some hfind, hr⟩) h

/-- The nodes of the graph stand under the spellings under which their files are opened. -/
theorem openedAs_of_mem_keys (hq : q ∈ (build s t sources).nodes.keys) (h : p.Same q) :
    openedAs sources p = q := by
  obtain ⟨n, hn⟩ := PathMap.mem_keys.mp hq
  by_cases hsource : p ∈ PathSet.ofList sources
  · obtain ⟨r, hr, hpr⟩ := PathSet.mem_iff_toList.mp hsource
    rw [openedAs_of_source hr hpr]
    exact node_path_of_source hr hn (hpr.symm.trans h)
  · rw [openedAs_of_not_mem hsource]
    rcases node_path hn with hq | ⟨r, -, hclean⟩
    · exact absurd (PathSet.mem_iff_toList.mpr ⟨q, hq, h⟩) hsource
    · have hclean : q = r.clean := hclean
      rw [Path.clean_congr h, hclean, Path.clean_clean]

/-- A file that is no source has its node under the clean spelling. -/
theorem clean_of_mem_keys (hp : p ∈ (build s t sources).nodes.keys)
    (hnot : p ∉ PathSet.ofList sources) : p.clean = p := by
  rw [← openedAs_of_not_mem hnot, openedAs_of_mem_keys hp (.refl p)]

/-- The nodes are recorded under the spellings by which their files are opened. -/
theorem openedAs_mem_keys (h : p ∈ (build s t sources).nodes) :
    p.Same (openedAs sources p) ∧ openedAs sources p ∈ (build s t sources).nodes.keys := by
  obtain ⟨e, he, hpe⟩ := h
  have hkey : e.1 ∈ (build s t sources).nodes.keys := PathMap.mem_keys.mpr ⟨e.2, he⟩
  rw [openedAs_of_mem_keys hkey hpe]
  exact ⟨hpe, hkey⟩

/-- The node of a file is the scan of the spelling under which it is opened. -/
theorem node?_eq_scanFile (h : p ∈ (build s t sources).nodes) :
    (build s t sources).node? p = some (s.scanFile t (openedAs sources p)) := by
  obtain ⟨e, he, hpe⟩ := h
  have hkey : e.1 ∈ (build s t sources).nodes.keys := PathMap.mem_keys.mpr ⟨e.2, he⟩
  rw [node?_congr hpe, node?_of_mem_entries he, node_eq_scanFile he,
    openedAs_of_mem_keys hkey hpe]

/-! ## Files that cannot be read -/

/-- A file of the graph has no scan if it cannot be read. -/
theorem scan?_eq_none_iff (hq : q ∈ (build s t sources).nodes.keys) :
    (build s t sources).scan? q = none ↔ ∃ e, t.read q = .error e := by
  obtain ⟨n, hn⟩ := PathMap.mem_keys.mp hq
  have hscan : n = s.scanFile t q := node_eq_scanFile hn
  unfold scan?
  rw [node?_of_mem_entries hn, hscan]
  unfold Scanner.scanFile
  cases t.read q with
  | ok bytes => simp [Node.scan?]
  | error e => simp [Node.scan?]

/-- All spellings under which files have nodes are those of sources, or lead to files. -/
theorem source_or_isFile_of_mem_keys (hq : q ∈ (build s t sources).nodes.keys) :
    q ∈ (PathSet.ofList sources).toList ∨ t.isFile q = true := by
  obtain ⟨n, hn⟩ := PathMap.mem_keys.mp hq
  rcases node_path hn with hsource | ⟨r, hfile, hclean⟩
  · exact .inl hsource
  · have hq : q = r.clean := hclean
    rw [hq]
    exact .inr (FileTree.isFile_clean hfile)

/-- A file of the graph has a scan, or it cannot be read. Then it is a source or a file that
may not be opened. -/
theorem scan?_isSome_or_error (h : p ∈ (build s t sources).nodes) :
    ((build s t sources).scan? p).isSome ∨
      ∃ e, t.read (openedAs sources p) = .error e ∧
        (p ∈ PathSet.ofList sources ∨ e = .permissionDenied) := by
  obtain ⟨hsame, hkey⟩ := openedAs_mem_keys h
  rw [scan?_congr hsame]
  cases hscan : (build s t sources).scan? (openedAs sources p) with
  | some found => exact .inl rfl
  | none =>
    right
    obtain ⟨e, herror⟩ := (scan?_eq_none_iff hkey).mp hscan
    refine ⟨e, herror, ?_⟩
    rcases source_or_isFile_of_mem_keys hkey with hsource | hfile
    · exact .inl (PathSet.mem_iff_toList.mpr ⟨_, hsource, hsame⟩)
    · rcases FileTree.read_of_isFile hfile with ⟨bytes, hread⟩ | hdenied
      · rw [hread] at herror
        cases herror
      · exact .inr (Except.error.inj (herror.symm.trans hdenied))

/-! ## The least closed set -/

/-- A property of paths, whatever their spelling, that the sources have and all files that
are included by a file which has it. -/
structure Encloses (s : Scanner) (t : FileTree) (sources : List Path) (K : Path → Prop) :
    Prop where
  congr : ∀ p q, p.Same q → K p → K q
  source : ∀ p ∈ sources, K p
  included : ∀ p, K p → ∀ q ∈ (s.scanFile t (openedAs sources p)).resolved, K q

/-- The files with a node are closed under what the scan includes. -/
theorem encloses_build (s : Scanner) (t : FileTree) (sources : List Path) :
    Encloses s t sources (· ∈ (build s t sources).nodes) where
  congr _ _ hsame hp := (PathMap.mem_congr hsame).mp hp
  source p hp := source_mem_build (PathSet.mem_ofList.mpr ⟨p, hp, .refl p⟩)
  included p hp q hq := by
    obtain ⟨-, hkey⟩ := openedAs_mem_keys hp
    obtain ⟨n, hn⟩ := PathMap.mem_keys.mp hkey
    have hvalue : n = s.scanFile t (openedAs sources p) := node_eq_scanFile hn
    exact build_closed _ hn q (by rw [hvalue]; exact hq)

/-- Whatever has the sources and is closed has all files with a node: the graph is the least such.
-/
theorem Encloses.of_mem_build {K : Path → Prop} (h : Encloses s t sources K)
    (hp : p ∈ (build s t sources).nodes) : K p := by
  obtain ⟨e, he, hpe⟩ := hp
  apply h.congr e.1 p hpe.symm
  rw [nodes_build] at he
  apply explore_induct_of_keys (.start _) _ _ _ he
  · exact fun _ hf => absurd hf List.not_mem_nil
  · exact fun q hq => h.source q (PathSet.mem_toList_ofList hq)
  · intro q hkey hq r hr
    rw [← nodes_build] at hkey
    apply h.included q hq r
    rw [openedAs_of_mem_keys hkey (.refl q)]
    exact hr

/-- The graph has nodes for the paths of the least set that has the sources and what its
members include. -/
theorem mem_build_iff : p ∈ (build s t sources).nodes ↔ ∀ K, Encloses s t sources K → K p :=
  ⟨fun hp _ h => h.of_mem_build hp, fun h => h _ (encloses_build s t sources)⟩

/-! ## The waves of a scan -/

/-- The scan after a number of waves, whether or not there was anything left to scan. -/
def waves (s : Scanner) (t : FileTree) (sources : List Path) (n : Nat) : Progress Node :=
  .after (s.scanFile t) Node.resolved (.ofList sources) n

/-- A scan with nothing left is the graph. -/
theorem nodes_eq_seen (h : (waves s t sources n).wave.isEmpty = true) :
    (build s t sources).nodes = (waves s t sources n).seen := by
  rw [nodes_build]
  exact Progress.explore_eq_seen (fun _ q hq => ⟨q, mem_possibleIncludes hq, .refl q⟩)
    length_possibleIncludes_le h

/-- The scan ends: from some wave on nothing is left. -/
theorem exists_waves (s : Scanner) (t : FileTree) (sources : List Path) :
    ∃ n, ∀ m, n ≤ m → (waves s t sources m).wave.isEmpty = true ∧
      (build s t sources).nodes = (waves s t sources m).seen := by
  have hpaths : ∀ p, ∀ q ∈ (s.scanFile t p).resolved, ∃ u ∈ possibleIncludes, q.Same u :=
    fun _ q hq => ⟨q, mem_possibleIncludes hq, .refl q⟩
  obtain ⟨n, -, hempty⟩ := Progress.exists_isEmpty
    (Progress.exists_same_of_mem_wave hpaths (.ofList sources))
  refine ⟨n, fun m hle => ?_⟩
  have hrest : (waves s t sources m).wave.isEmpty = true := by
    unfold waves
    rw [Progress.after_of_isEmpty hempty hle]
    exact hempty
  exact ⟨hrest, nodes_eq_seen hrest⟩

/-- What a wave scans is a file of the graph, under the spelling under which it is opened. -/
theorem mem_keys_of_mem_wave (h : p ∈ (waves s t sources n).wave.toList) :
    p ∈ (build s t sources).nodes.keys := by
  obtain ⟨m, hm⟩ := exists_waves s t sources
  have hrest := hm (max m (n + 1)) (Nat.le_max_left _ _)
  rw [hrest.2]
  refine PathMap.mem_keys.mpr ⟨s.scanFile t p, ?_⟩
  exact Progress.mem_entries_seen_iff.mpr
    ⟨n, Nat.lt_of_lt_of_le (Nat.lt_succ_self n) (Nat.le_max_right _ _), h, rfl⟩

/-- Each file of the graph is scanned in one wave. -/
theorem existsUnique_wave : p ∈ (build s t sources).nodes ↔
    ∃! n, p ∈ (waves s t sources n).wave := by
  constructor
  · intro hp
    obtain ⟨m, hm⟩ := exists_waves s t sources
    rw [(hm m (Nat.le_refl m)).2] at hp
    obtain ⟨n, -, hn⟩ := Progress.mem_seen_iff.mp hp
    exact ⟨n, hn, fun k hk => Progress.wave_unique hk hn⟩
  · rintro ⟨n, hn, -⟩
    obtain ⟨q, hq, hpq⟩ := PathSet.mem_iff_toList.mp hn
    obtain ⟨node, hnode⟩ := PathMap.mem_keys.mp (mem_keys_of_mem_wave hq)
    exact ⟨_, hnode, hpq⟩

/-- A wave opens a file under the spelling that the file has among the nodes. -/
theorem openedAs_mem_wave (h : p ∈ (waves s t sources n).wave) :
    openedAs sources p ∈ (waves s t sources n).wave.toList := by
  obtain ⟨q, hq, hpq⟩ := PathSet.mem_iff_toList.mp h
  rw [openedAs_of_mem_keys (mem_keys_of_mem_wave hq) hpq]
  exact hq

end Recompile.Graph
