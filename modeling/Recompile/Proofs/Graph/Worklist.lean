import Recompile.Proofs.Graph.Closure
import Recompile.Proofs.Verdict.Exactness

/-!
# Scanning in any order

A worklist scans one file at a time, in any order. A file goes on the list where it is
included first, unless it has been scanned or is on the list already, under whatever
spelling. What holds between two scans (`Worklist.Consistent`) is much the same as for waves:
all that is scanned is as in the graph, and nothing that is included is lost. So the list is
empty after as many scans as the graph has nodes, and what was scanned then is the graph
(`Worklist.After.nodes_eq`).

With that `Graph.completes_build` has all that the scan is for: it ends, and its graph is the
least closed one, whatever the order, each file scanned once. What is remembered of it is
closed as well, apart from sources that cannot be read.
-/

set_option autoImplicit false

namespace Recompile

/-- Where a scan of one file after the other is. -/
structure Worklist where
  scanned : PathMap Node
  /-- The files that are still to be scanned. -/
  pending : PathSet

namespace Worklist

/-- Nothing is scanned yet. -/
def start (sources : List Path) : Worklist :=
  ⟨∅, .ofList sources⟩

/-- Scans a file. What it includes is to be scanned as well, unless it has been. -/
def scan (s : Scanner) (t : FileTree) (w : Worklist) (p : Path) : Worklist :=
  let node := s.scanFile t p
  let scanned := w.scanned.insert p node
  ⟨scanned, PathMap.filter (w.pending.addAll node.resolved) fun q _ => !scanned.contains q⟩

/-- What scanning some number of files can lead to, each taken from the list. -/
inductive After (s : Scanner) (t : FileTree) (sources : List Path) : Nat → Worklist → Prop where
  | start : After s t sources 0 (.start sources)
  | scan {n : Nat} {w : Worklist} {p : Path} (before : After s t sources n w)
      (taken : p ∈ w.pending.toList) : After s t sources (n + 1) (w.scan s t p)

variable {s : Scanner} {t : FileTree} {sources : List Path} {w : Worklist} {n : Nat} {p q : Path}

/-! ## One scan -/

/-- Scanning a file adds it to those that were scanned. -/
theorem mem_scanned_scan : q ∈ (w.scan s t p).scanned ↔ q.Same p ∨ q ∈ w.scanned :=
  PathMap.mem_insert

/-- After a scan those are pending that were or are included, and have not been scanned. -/
theorem mem_pending_scan : q ∈ (w.scan s t p).pending ↔
    (q ∈ w.pending ∨ ∃ r ∈ (s.scanFile t p).resolved, q.Same r) ∧
      q ∉ (w.scan s t p).scanned := by
  rw [← PathSet.mem_addAll]
  exact PathSet.mem_filter_not_mem

/-- What is to be scanned is spelled as it was, or as it is included. -/
theorem mem_toList_pending_scan (h : q ∈ (w.scan s t p).pending.toList) :
    q ∈ w.pending.toList ∨ q ∈ (s.scanFile t p).resolved ∧ q ∉ w.pending :=
  PathSet.mem_toList_addAll (PathSet.mem_toList_filter h)

/-- Nothing gets lost by a scan. -/
theorem mem_scan (h : (q ∈ w.scanned ∨ q ∈ w.pending) ∨
    ∃ r ∈ (s.scanFile t p).resolved, q.Same r) :
    q ∈ (w.scan s t p).scanned ∨ q ∈ (w.scan s t p).pending := by
  by_cases hq : q ∈ (w.scan s t p).scanned
  · exact .inl hq
  · right
    rw [mem_pending_scan]
    refine ⟨?_, hq⟩
    rcases h with (hscanned | hpending) | hincluded
    · exact absurd (mem_scanned_scan.mpr (.inr hscanned)) hq
    · exact .inl hpending
    · exact .inr hincluded

/-! ## Between two scans -/

/-- What holds of a worklist between two scans, if the list has taken a number of files. -/
structure Consistent (s : Scanner) (t : FileTree) (sources : List Path) (n : Nat)
    (w : Worklist) : Prop where
  count : w.scanned.size = n
  fresh : ∀ p ∈ w.pending.toList, p ∉ w.scanned
  /-- All that is scanned is as in the graph. -/
  scanned : ∀ e ∈ w.scanned.entries, e ∈ (Graph.build s t sources).nodes.entries
  /-- All that is to be scanned is in the graph, under that spelling. -/
  pending : ∀ p ∈ w.pending.toList, p ∈ (Graph.build s t sources).nodes.keys
  source : ∀ p ∈ PathSet.ofList sources, p ∈ w.scanned ∨ p ∈ w.pending
  /-- Nothing that is included is lost. -/
  covered : ∀ e ∈ w.scanned.entries, ∀ q ∈ e.2.resolved, q ∈ w.scanned ∨ q ∈ w.pending

namespace Consistent

/-- What holds between two scans holds before the first. -/
theorem start (s : Scanner) (t : FileTree) (sources : List Path) :
    Consistent s t sources 0 (.start sources) where
  count := rfl
  fresh p _ := PathMap.not_mem_empty p
  scanned _ he := absurd he List.not_mem_nil
  pending _ hp := Graph.source_mem_keys hp
  source _ hp := .inr hp
  covered _ he := absurd he List.not_mem_nil

/-- The scanned entries are the old ones and that of the file that was taken. -/
theorem mem_entries_scan (h : Consistent s t sources n w) (hp : p ∈ w.pending.toList)
    {e : Path × Node} : e ∈ (w.scan s t p).scanned.entries ↔
      e = (p, s.scanFile t p) ∨ e ∈ w.scanned.entries :=
  PathMap.mem_entries_insert (h.fresh p hp)

/-- One scan keeps what holds between two. -/
theorem scan (h : Consistent s t sources n w) (hp : p ∈ w.pending.toList) :
    Consistent s t sources (n + 1) (w.scan s t p) := by
  obtain ⟨node, hentry⟩ := PathMap.mem_keys.mp (h.pending p hp)
  have hnode : node = s.scanFile t p := Graph.node_eq_scanFile hentry
  rw [hnode] at hentry
  constructor
  case count =>
    rw [← h.count]
    exact PathMap.size_insert (h.fresh p hp)
  case fresh => exact fun q hq => (mem_pending_scan.mp (PathSet.mem_of_mem_toList hq)).2
  case scanned =>
    intro e he
    rcases (h.mem_entries_scan hp).mp he with rfl | he
    · exact hentry
    · exact h.scanned e he
  case pending =>
    intro q hq
    have hfresh := (mem_pending_scan.mp (PathSet.mem_of_mem_toList hq)).2
    rcases mem_toList_pending_scan hq with hold | ⟨hincluded, hnew⟩
    · exact h.pending q hold
    · -- A source would be on the list, so the file is opened under its clean spelling.
      have hsource : q ∉ PathSet.ofList sources := by
        intro hsource
        rcases h.source q hsource with hscanned | hpending
        · exact hfresh (mem_scanned_scan.mpr (.inr hscanned))
        · exact hnew hpending
      have hopened := (Graph.openedAs_mem_keys (Graph.build_closed _ hentry q hincluded)).2
      obtain ⟨r, -, rfl⟩ := Scanner.exists_of_mem_resolved hincluded
      rwa [Graph.openedAs_of_not_mem hsource, Path.clean_clean] at hopened
  case source => exact fun q hq => mem_scan (.inl (h.source q hq))
  case covered =>
    intro e he q hq
    apply mem_scan
    rcases (h.mem_entries_scan hp).mp he with rfl | he
    · exact .inr ⟨q, hq, .refl q⟩
    · exact .inl (h.covered e he q hq)

/-- While a file is to be scanned, fewer files have been scanned than the graph has. -/
theorem lt_size (h : Consistent s t sources n w) (hp : p ∈ w.pending.toList) :
    n < (Graph.build s t sources).nodes.size := by
  have hnodup : (p :: w.scanned.keys).Nodup := by
    refine List.nodup_cons.mpr ⟨fun hkey => ?_, w.scanned.nodup_keys⟩
    obtain ⟨node, hnode⟩ := PathMap.mem_keys.mp hkey
    exact h.fresh p hp (PathMap.mem_of_mem_entries hnode)
  have hsub : p :: w.scanned.keys ⊆ (Graph.build s t sources).nodes.keys := by
    intro q hq
    rcases List.mem_cons.mp hq with rfl | hq
    · exact h.pending q hp
    · obtain ⟨node, hnode⟩ := PathMap.mem_keys.mp hq
      exact PathMap.mem_keys.mpr ⟨node, h.scanned _ hnode⟩
  have hlength := (List.subperm_of_subset hnodup hsub).length_le
  rw [List.length_cons, PathMap.keys, PathMap.keys, List.length_map, List.length_map] at hlength
  rw [← h.count]
  exact hlength

/-- If nothing is left on the list, what was scanned encloses the sources. -/
theorem encloses (h : Consistent s t sources n w) (hdone : w.pending.isEmpty = true) :
    Graph.Encloses s t sources (· ∈ w.scanned) where
  congr _ _ hsame hp := (PathMap.mem_congr hsame).mp hp
  source p hp := (h.source p (PathSet.mem_ofList.mpr ⟨p, hp, .refl p⟩)).resolve_right
    (PathMap.isEmpty_iff.mp hdone p)
  included p hp q hq := by
    obtain ⟨e, he, hpe⟩ := hp
    have hentry := h.scanned e he
    have hkey : e.1 ∈ (Graph.build s t sources).nodes.keys := PathMap.mem_keys.mpr ⟨e.2, hentry⟩
    rw [Graph.openedAs_of_mem_keys hkey hpe, ← Graph.node_eq_scanFile hentry] at hq
    exact (h.covered e he q hq).resolve_right (PathMap.isEmpty_iff.mp hdone q)

/-- A worklist with nothing pending has the nodes of the graph. -/
theorem nodes_eq (h : Consistent s t sources n w) (hdone : w.pending.isEmpty = true) :
    w.scanned = (Graph.build s t sources).nodes := by
  apply PathMap.ext_of_mem_entries
  intro e
  constructor
  · exact h.scanned e
  · intro he
    obtain ⟨f, hf, hef⟩ := (h.encloses hdone).of_mem_build (PathMap.mem_of_mem_entries he)
    rw [PathMap.entry_unique he (h.scanned f hf) hef]
    exact hf

end Consistent

/-! ## All scans -/

/-- What holds between two scans holds after any number of them. -/
theorem After.consistent (h : After s t sources n w) : Consistent s t sources n w := by
  induction h with
  | start => exact .start s t sources
  | scan _ taken ih => exact ih.scan taken

end Worklist

namespace Graph

variable {s : Scanner} {t : FileTree} {sources : List Path} {p q : Path}

/-- What is remembered of the graph has all that it says to be included, apart from what could
not be read: a source, or a file that may not be opened. -/
theorem recorded_or_error {used : Bool} {f : FileState}
    (hf : (Config.stateOf (.ofList sources) (build s t sources) used).file? p = some f)
    (hq : q ∈ f.resolved) :
    q ∈ (Config.stateOf (.ofList sources) (build s t sources) used).files ∨
      ∃ e, t.read (openedAs sources q) = .error e ∧
        (q ∈ (Config.stateOf (.ofList sources) (build s t sources) used).sources ∨
          e = .permissionDenied) := by
  rw [Config.file?_stateOf, Option.map_eq_some_iff] at hf
  obtain ⟨found, hscan, rfl⟩ := hf
  obtain ⟨r, hr, -⟩ := PathMap.get?_eq_some_iff.mp (scan?_eq_some_iff.mp hscan)
  obtain ⟨u, hu, hqu⟩ := PathSet.mem_iff_toList.mp hq
  have hmem : q ∈ (build s t sources).nodes :=
    (PathMap.mem_congr hqu).mpr (build_closed _ hr u hu)
  exact (scan?_isSome_or_error hmem).imp_left Config.mem_files_stateOf.mpr

/-- A graph is what a scan of sources has to find, and finds in any order. -/
structure Completes (s : Scanner) (t : FileTree) (sources : List Path) (g : Graph) : Prop where
  /-- From some wave on nothing is left to scan, and the graph has what was scanned. -/
  ends : ∃ n, ∀ m, n ≤ m → (waves s t sources m).wave.isEmpty = true ∧
    g.nodes = (waves s t sources m).seen
  /-- The paths of the graph have the sources and all that they include. -/
  encloses : Encloses s t sources (· ∈ g.nodes)
  /-- All other sets of paths that do so are larger. -/
  least : ∀ K, Encloses s t sources K → ∀ p ∈ g.nodes, K p
  /-- Each path is scanned in one wave. -/
  once : ∀ p, p ∈ g.nodes ↔ ∃! n, p ∈ (waves s t sources n).wave
  /-- It is scanned there under the spelling under which it is opened. -/
  opened : ∀ n p, p ∈ (waves s t sources n).wave →
    openedAs sources p ∈ (waves s t sources n).wave.toList
  /-- Its node is that scan. -/
  node : ∀ p ∈ g.nodes, g.node? p = some (s.scanFile t (openedAs sources p))
  /-- A worklist has scanned fewer files than the graph has as long as there are any on the
  list, and then it has the graph, in whatever order it takes them. -/
  anyOrder : ∀ n w, Worklist.After s t sources n w →
    if w.pending.isEmpty then w.scanned = g.nodes else n < g.nodes.size
  /-- What is remembered of the graph is closed, apart from sources that cannot be read and
  files that may not be opened. -/
  recorded : ∀ used p f, (Config.stateOf (.ofList sources) g used).file? p = some f →
    ∀ q ∈ f.resolved, q ∈ (Config.stateOf (.ofList sources) g used).files ∨
      ∃ e, t.read (openedAs sources q) = .error e ∧
        (q ∈ (Config.stateOf (.ofList sources) g used).sources ∨ e = .permissionDenied)

/-- The scan ends, and its graph is the least include closure of the sources. -/
theorem completes_build (s : Scanner) (t : FileTree) (sources : List Path) :
    Completes s t sources (build s t sources) where
  ends := exists_waves s t sources
  encloses := encloses_build s t sources
  least _ h _ hp := h.of_mem_build hp
  once _ := existsUnique_wave
  opened _ _ := openedAs_mem_wave
  node _ := node?_eq_scanFile
  anyOrder n w h := by
    by_cases hdone : w.pending.isEmpty = true
    · rw [if_pos hdone]
      exact h.consistent.nodes_eq hdone
    · rw [if_neg hdone]
      obtain ⟨p, hp⟩ := PathSet.exists_mem_toList hdone
      exact h.consistent.lt_size hp
  recorded _ _ _ hf _ hq := recorded_or_error hf hq

end Graph

end Recompile
