import Mathlib.Combinatorics.Enumerative.DoubleCounting
import Recompile.Proofs.FileTree.Descent
import Recompile.Proofs.Graph.Closure

/-!
# How large a graph gets

A file has a node for each spelling under which it is included, and there may be many: with
`..` steps in targets, or with links, a file can be spelled in ever longer ways. Where there
are no links and no target leads up, every spelling goes down from one of few bases: the
directory of a source, a search root or the root directory (`Graph.source_or_based_of_mem_keys`). A
quoted target is looked up in the directory of an included file, but that goes down from the
same base as the file does. So besides the sources there is at most one node for each base and
each file (`Graph.length_included_le`), and the scan ends after as many waves, however the
files include each other.
-/

set_option autoImplicit false

namespace Recompile

/-- If each member of a list without repetition is related to one of another list, and no two
to the same, the other list is no shorter. -/
theorem length_le_of_related {α β : Type} [DecidableEq α] [DecidableEq β] {as : List α}
    {bs : List β} (R : α → β → Prop) (hnodup : as.Nodup) (hex : ∀ a ∈ as, ∃ b ∈ bs, R a b)
    (huniq : ∀ a ∈ as, ∀ a' ∈ as, ∀ b ∈ bs, R a b → R a' b → a = a') :
    as.length ≤ bs.length := by
  calc as.length
    _ = as.toFinset.card := (List.toFinset_card_of_nodup hnodup).symm
    _ ≤ bs.toFinset.card := by
      apply Finset.card_le_card_of_forall_subsingleton R
      · simpa using hex
      · rintro b hb a ⟨ha, hab⟩ a' ⟨ha', hab'⟩
        simp only [List.mem_toFinset] at hb ha ha'
        exact huniq a ha a' ha' b hb hab hab'
    _ ≤ bs.length := List.toFinset_card_le bs

/-- Dropping repeated paths leaves no more of them. -/
theorem Path.length_distinct_le (ps : List Path) : (distinct ps).length ≤ ps.length := by
  induction ps with
  | nil => exact Nat.le_refl _
  | cons p ps ih =>
    rw [distinct, List.length_cons, List.length_cons]
    exact Nat.succ_le_succ ((List.length_filter_le _ _).trans ih)

namespace Graph

variable {s : Scanner} {t : FileTree} {sources : List Path} {file p q : Path} {n : Nat}

/-! ## Bases -/

/-- No directive of a file has a target that leads up, after macros are expanded. -/
def NoTargetUp (s : Scanner) (t : FileTree) (file : Path) : Prop :=
  ∀ bytes, t.read file = .ok bytes → ∀ i form target,
    (i, some (form, target)) ∈ s.resolver.targets (.ofBytes s.imports bytes) →
      .up ∉ (Path.ofString target).components

/-- Where the spellings of included files begin: the root directory, the directories of the
sources and the search roots. -/
def bases (s : Scanner) (sources : List Path) : List Path :=
  ⟨['/']⟩ :: (sources.map Resolver.directoryOf ++ s.resolver.roots)

/-- There are as many bases as sources and search roots, and one more. -/
theorem length_bases : (bases s sources).length = sources.length + s.resolver.roots.length + 1 := by
  simp [bases]

/-- The spelling of a file goes down from a base. -/
def Based (s : Scanner) (sources : List Path) (p : Path) : Prop :=
  ∃ base ∈ bases s sources, ∃ names, names ≠ [] ∧ base.GoesDown names p

/-- The directory in which quoted targets of a file are looked up goes down from a base. -/
theorem directoryOf_goesDown
    (h : file ∈ (PathSet.ofList sources).toList ∨ Based s sources file) :
    ∃ base ∈ bases s sources, ∃ names, base.GoesDown names (Resolver.directoryOf file) := by
  rcases h with hsource | ⟨base, hbase, names, hne, hdown⟩
  · refine ⟨Resolver.directoryOf file, ?_, [], .refl _⟩
    apply List.mem_cons_of_mem
    apply List.mem_append_left
    exact List.mem_map_of_mem (PathSet.mem_toList_ofList hsource)
  · have hnamed : file.named ≠ [] := by
      intro hnil
      have hempty := hdown.named
      rw [hnil, List.map_nil] at hempty
      exact hne (List.append_eq_nil_iff.mp hempty.symm).2
    obtain ⟨above, habove⟩ := Path.exists_parent? hnamed
    obtain ⟨fewer, hfewer⟩ := hdown.parent? hne habove
    refine ⟨base, hbase, fewer, ?_⟩
    rw [Resolver.directoryOf, habove]
    exact hfewer

/-- All directories in which the targets of a file are looked up go down from bases. -/
theorem goesDown_of_mem_searchDirs {form : IncludeForm} {dir : Path}
    (h : file ∈ (PathSet.ofList sources).toList ∨ Based s sources file)
    (hdir : dir ∈ s.resolver.searchDirs (Resolver.directoryOf file) form) :
    ∃ base ∈ bases s sources, ∃ names, base.GoesDown names dir := by
  have hroot : dir ∈ s.resolver.roots →
      ∃ base ∈ bases s sources, ∃ names, base.GoesDown names dir := by
    intro hroot
    exact ⟨dir, List.mem_cons_of_mem _ (List.mem_append_right _ hroot), [], .refl dir⟩
  cases form with
  | quoted =>
    cases List.mem_cons.mp hdir with
    | inl hlocal => exact hlocal ▸ directoryOf_goesDown h
    | inr hdir => exact hroot hdir
  | system | macroName => exact hroot hdir

/-- What a file includes goes down from a base if the file does or is a source. -/
theorem based_of_mem_resolved (hup : NoTargetUp s t file)
    (hfile : file ∈ (PathSet.ofList sources).toList ∨ Based s sources file)
    (hq : q ∈ (s.scanFile t file).resolved) : Based s sources q := by
  obtain ⟨bytes, hread, i, form, target, htarget, c, hc, hisFile, rfl⟩ :=
    Scanner.exists_candidate_of_mem_resolved hq
  have hdown : .up ∉ (Path.ofString target).named := by
    intro hmem
    apply hup bytes hread i form target htarget
    rw [Path.components_eq]
    exact List.mem_append_right _ hmem
  generalize Path.ofString target = target at hc hdown
  unfold Resolver.candidates at hc
  by_cases habs : target.isAbsolute = true
  · rw [if_pos habs, List.mem_singleton] at hc
    subst hc
    refine ⟨⟨['/']⟩, List.mem_cons_self, _, ?_, (Path.GoesDown.of_isAbsolute habs hdown).clean⟩
    exact fun hnil => FileTree.named_ne_nil_of_isFile hisFile (List.map_eq_nil_iff.mp hnil)
  · rw [if_neg habs] at hc
    obtain ⟨dir, hdir, rfl⟩ := List.mem_map.mp hc
    have hrelative : target.isAbsolute = false := Bool.eq_false_of_not_eq_true habs
    obtain ⟨base, hbase, names, hnames⟩ := goesDown_of_mem_searchDirs hfile hdir
    refine ⟨base, hbase, _, ?_, (hnames.join hrelative hdown).clean⟩
    intro hnil
    apply FileTree.named_ne_nil_of_isFile_join hrelative hisFile
    exact List.map_eq_nil_iff.mp (List.append_eq_nil_iff.mp hnil).2

/-- The files of a graph are sources, or their spellings go down from bases. -/
theorem source_or_based_of_mem_keys
    (hup : ∀ p ∈ (build s t sources).nodes.keys, NoTargetUp s t p)
    (hp : p ∈ (build s t sources).nodes.keys) :
    p ∈ (PathSet.ofList sources).toList ∨ Based s sources p := by
  obtain ⟨node, hnode⟩ := PathMap.mem_keys.mp hp
  rw [nodes_build] at hnode hup
  apply explore_induct_of_keys (P := fun p =>
    p ∈ (PathSet.ofList sources).toList ∨ Based s sources p) (.start _) _ _ _ hnode
  · exact fun _ he => absurd he List.not_mem_nil
  · exact fun q hq => .inl hq
  · exact fun q hkey hq r hr => .inr (based_of_mem_resolved (hup q hkey) hq hr)

/-! ## Counting -/

/-- The spellings of a graph that are not those of sources. -/
def included (s : Scanner) (t : FileTree) (sources : List Path) : List Path :=
  (build s t sources).nodes.keys.filter fun p => p ∉ PathSet.ofList sources

/-- A spelling of the graph is included if it is not that of a source. -/
theorem mem_included : p ∈ included s t sources ↔
    p ∈ (build s t sources).nodes.keys ∧ p ∉ PathSet.ofList sources := by
  unfold included
  rw [List.mem_filter, decide_eq_true_iff]

/-- An included file is found under its spelling by going down from a base. -/
theorem exists_leadsTo_of_mem_included (hlinks : t.LinkFree)
    (hup : ∀ p ∈ (build s t sources).nodes.keys, NoTargetUp s t p)
    (hp : p ∈ included s t sources) :
    ∃ found ∈ bases s sources ×ˢ t.files, t.LeadsTo found.1 found.2 p := by
  obtain ⟨hkey, hsource⟩ := mem_included.mp hp
  have hlisted : p ∉ (PathSet.ofList sources).toList :=
    fun h => hsource (PathSet.mem_of_mem_toList h)
  obtain ⟨base, hbase, names, hne, hdown⟩ :=
    (source_or_based_of_mem_keys hup hkey).resolve_left hlisted
  have hfile := (source_or_isFile_of_mem_keys hkey).resolve_left hlisted
  obtain ⟨loc, hloc, hleads⟩ :=
    FileTree.exists_leadsTo hlinks hdown hne (clean_of_mem_keys hkey hsource) hfile
  exact ⟨(base, loc), List.mem_product.mpr ⟨hbase, hloc⟩, hleads⟩

/-- There is at most one included file for each base and each place of a file. -/
theorem length_included_le (hlinks : t.LinkFree)
    (hup : ∀ p ∈ (build s t sources).nodes.keys, NoTargetUp s t p) :
    (included s t sources).length ≤
      (sources.length + s.resolver.roots.length + 1) * t.files.length := by
  rw [← length_bases, ← List.length_product]
  apply length_le_of_related fun p found => t.LeadsTo found.1 found.2 p
  · exact (PathMap.nodup_keys _).filter _
  · exact fun p hp => exists_leadsTo_of_mem_included hlinks hup hp
  · intro p hp q hq found _ hleads hleads'
    obtain ⟨hkey, hsource⟩ := mem_included.mp hp
    obtain ⟨hkey', hsource'⟩ := mem_included.mp hq
    rw [← clean_of_mem_keys hkey hsource, hleads.clean_eq hleads', clean_of_mem_keys hkey' hsource']

/-- Every wave after the first scans files that are no sources. -/
theorem mem_included_of_mem_wave (h : p ∈ (waves s t sources (n + 1)).wave.toList) :
    p ∈ included s t sources := by
  refine mem_included.mpr ⟨mem_keys_of_mem_wave h, fun hsource => ?_⟩
  apply Progress.not_mem_seen (PathSet.mem_of_mem_toList h)
  exact Progress.mem_seen_iff.mpr ⟨0, Nat.succ_pos n, hsource⟩

/-- The scan ends after one wave for each included file, or before. -/
theorem exists_waves_le (s : Scanner) (t : FileTree) (sources : List Path) :
    ∃ n ≤ (included s t sources).length + 1, (waves s t sources n).wave.isEmpty = true ∧
      (build s t sources).nodes = (waves s t sources n).seen := by
  have hpaths : ∀ m, ∀ q ∈ (waves s t sources (m + 1)).wave.toList,
      ∃ u ∈ included s t sources, q.Same u :=
    fun _ q hq => ⟨q, mem_included_of_mem_wave hq, .refl q⟩
  obtain ⟨n, hn, hempty⟩ := Progress.exists_isEmpty hpaths
  exact ⟨n, hn, hempty, nodes_eq_seen hempty⟩

/-- In a tree without links and with no target that leads up, a scan ends and finds, besides
the sources, at most as many spellings as there are files for each source, for each search
root and for the root directory, however the files include each other. -/
theorem build_of_linkFree (imports : Bool) (roots : List Path) (macros : List (String × String))
    (t : FileTree) (sources : List Path) :
    let s : Scanner := ⟨imports, .ofRoots roots macros⟩
    t.LinkFree → (∀ p ∈ (build s t sources).nodes.keys, NoTargetUp s t p) →
      (included s t sources).length ≤ (sources.length + roots.length + 1) * t.files.length ∧
        ∃ n ≤ (sources.length + roots.length + 1) * t.files.length + 1,
          (waves s t sources n).wave.isEmpty = true ∧
            (build s t sources).nodes = (waves s t sources n).seen := by
  intro s hlinks hup
  have hroots : s.resolver.roots.length ≤ roots.length := Path.length_distinct_le roots
  have hbound : (included s t sources).length ≤
      (sources.length + roots.length + 1) * t.files.length :=
    (length_included_le hlinks hup).trans (Nat.mul_le_mul_right _ (by omega))
  obtain ⟨n, hn, hend⟩ := exists_waves_le s t sources
  exact ⟨hbound, n, hn.trans (Nat.add_le_add_right hbound 1), hend⟩

/-- A source `/m` and a header `/h` that include each other. -/
def sourceAndHeaderInCycle : FileTree :=
  ((FileTree.bare []).put [['m']] (.file (Utf8.encode "#include \"h\"".toList))).put [['h']]
    (.file (Utf8.encode "#include <m>".toList))

/-- The header is the one included file. -/
theorem build_of_linkFree_cycle :
    let s : Scanner := ⟨false, .ofRoots [⟨['/']⟩] []⟩
    let t := sourceAndHeaderInCycle
    let sources : List Path := [⟨['/', 'm']⟩]
    t.LinkFree ∧ (∀ p ∈ (build s t sources).nodes.keys, NoTargetUp s t p) ∧
      included s t sources = [⟨['/', 'h']⟩] ∧ t.files.length = 2 ∧
      (included s t sources).length ≤ (1 + 1 + 1) * t.files.length := by
  intro s t sources
  have hlinks : t.LinkFree := ((FileTree.linkFree_bare []).put (by simp)).put (by simp)
  have hkeys : (build s t sources).nodes.keys = [⟨['/', 'h']⟩, ⟨['/', 'm']⟩] := by
    decide +kernel
  have hdown : ∀ bytes ∈ [Utf8.encode "#include \"h\"".toList, Utf8.encode "#include <m>".toList],
      ∀ found ∈ s.resolver.targets (.ofBytes s.imports bytes), ∀ named ∈ found.2,
        .up ∉ (Path.ofString named.2).components := by
    decide +kernel
  have hup : ∀ p ∈ (build s t sources).nodes.keys, NoTargetUp s t p := by
    have hreads : ∀ p ∈ (build s t sources).nodes.keys,
        t.read p = .ok (Utf8.encode "#include \"h\"".toList) ∨
          t.read p = .ok (Utf8.encode "#include <m>".toList) := by
      rw [hkeys]
      decide +kernel
    intro p hp bytes hread i form target htarget
    apply hdown bytes _ _ htarget (form, target) rfl
    cases hreads p hp with
    | inl hfirst =>
      rw [hread] at hfirst
      cases hfirst
      exact List.mem_cons_self
    | inr hsecond =>
      rw [hread] at hsecond
      cases hsecond
      exact List.mem_cons_of_mem _ List.mem_cons_self
  exact ⟨hlinks, hup, by decide +kernel, by decide +kernel,
    (build_of_linkFree false [⟨['/']⟩] [] t sources hlinks hup).1⟩

end Graph

end Recompile
