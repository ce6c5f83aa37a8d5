import Recompile.Graph.Basic
import Recompile.Proofs.FileTree.Steps
import Recompile.Proofs.Graph.Exploration
import Recompile.Proofs.Path.Steps

/-!
# The scan ends with a closed graph

Every file that a directive leads to was found under a path of fewer than 4096 bytes, and
its spelling is the clean one of that path. So all included files lie in one finite list
of paths, which is shorter than `Graph.waveLimit`, and the scan never runs out of waves:
each node is the scan of its own path (`Graph.node_eq_scanFile`), and every file that a
node includes has a node (`Graph.build_closed`).
-/

set_option autoImplicit false

namespace Recompile

/-! ## Finitely many paths -/

/-- All characters. -/
def allChars : List Char :=
  (List.range 0x110000).map Char.ofNat

/-- The list of all characters has every one. -/
theorem mem_allChars (c : Char) : c ∈ allChars := by
  refine List.mem_map.mpr ⟨c.toNat, List.mem_range.mpr ?_, Char.ofNat_toNat c⟩
  rcases c.valid with h | ⟨-, h⟩
  · exact Nat.lt_trans h (by decide)
  · exact h

/-- All texts of fewer characters than a number. -/
def textsBelow : Nat → List (List Char)
  | 0 => []
  | n + 1 => [] :: (textsBelow n).flatMap fun cs => allChars.map (· :: cs)

/-- The list of the texts below a length has every one. -/
theorem mem_textsBelow {n : Nat} {cs : List Char} (h : cs.length < n) : cs ∈ textsBelow n := by
  induction cs generalizing n with
  | nil =>
    cases n with
    | zero => exact absurd h (Nat.not_lt_zero _)
    | succ n => exact List.mem_cons_self
  | cons c cs ih =>
    cases n with
    | zero => exact absurd h (Nat.not_lt_zero _)
    | succ n =>
      refine List.mem_cons_of_mem _ (List.mem_flatMap.mpr ⟨cs, ih (Nat.lt_of_succ_lt_succ h), ?_⟩)
      exact List.mem_map.mpr ⟨c, mem_allChars c, rfl⟩

/-- There are fewer such texts than numbers with that many digits, one for each
character. -/
theorem length_textsBelow_lt (n : Nat) : (textsBelow n).length < Nat.pow 0x110000 n := by
  induction n with
  | zero => exact Nat.zero_lt_one
  | succ n ih =>
    have hlen : (textsBelow (n + 1)).length = 0x110000 * (textsBelow n).length + 1 := by
      simp [textsBelow, allChars, List.length_flatMap, Nat.mul_comm]
    have hpow : Nat.pow 0x110000 (n + 1) = Nat.pow 0x110000 n * 0x110000 := rfl
    rw [hlen, hpow]
    omega

/-- A text has no more characters than bytes. -/
theorem length_le_byteSize (cs : List Char) : cs.length ≤ Path.byteSize cs := by
  induction cs with
  | nil => exact Nat.le_refl _
  | cons c cs ih =>
    have hpos := Char.utf8Size_pos c
    have hsize : Path.byteSize (c :: cs) = c.utf8Size + Path.byteSize cs := rfl
    rw [hsize, List.length_cons]
    omega

/-! ## Where directives lead -/

namespace FileTree

variable {t : FileTree} {p : Path}

/-- A path that leads somewhere is one that an access may begin with. -/
theorem refusal?_of_find_ok {found : Location × Entry} (h : t.find p = .ok found) :
    p.refusal? = none := by
  cases hp : p.refusal? with
  | none => rfl
  | some e => simp [find, walk, hp] at h

/-- What is a file is found as one. -/
theorem find_ok_of_isFile (h : t.isFile p = true) :
    ∃ loc entry, t.find p = .ok (loc, entry) ∧ entry.isFile = true := by
  obtain ⟨d, n, entry, hwalk, hentry, hkind⟩ := walk_of_isFile h
  exact ⟨n :: d, entry, find_of_walk hwalk hentry, hkind⟩

/-- The path of a file is short. -/
theorem length_lt_of_isFile (h : t.isFile p = true) : p.chars.length < Path.byteLimit := by
  obtain ⟨loc, entry, hfind, -⟩ := find_ok_of_isFile h
  obtain ⟨-, -, hshort⟩ := Path.refusal?_eq_none_iff.mp (refusal?_of_find_ok hfind)
  exact Nat.lt_of_le_of_lt (length_le_byteSize p.chars) hshort

end FileTree

/-- The file of a resolution is the one to which it resolved. -/
theorem Resolution.file?_eq_some_iff {r : Resolution} {p : Path} :
    r.file? = some p ↔ r = .file p := by
  cases r <;> simp [file?]

namespace Resolver

variable {r : Resolver} {t : FileTree} {p : Path}

/-- What a search finds is the clean spelling of a candidate that is a file. -/
theorem search_eq_some {dirs : List Path} {target : Path} (h : search t dirs target = some p) :
    ∃ q ∈ candidates dirs target, t.isFile q = true ∧ p = q.clean := by
  unfold search at h
  obtain ⟨q, hq, rfl⟩ := Option.map_eq_some_iff.mp h
  exact ⟨q, List.mem_of_find?_eq_some hq, List.find?_some hq, rfl⟩

/-- A directive leads to the clean spelling of a candidate for its target that is a file. -/
theorem locate_eq_file {dir : Path} {found : Option (IncludeForm × String)}
    (h : r.locate t dir found = .file p) : ∃ form target, found = some (form, target) ∧
      ∃ q ∈ candidates (r.searchDirs dir form) (.ofString target),
        t.isFile q = true ∧ p = q.clean := by
  cases found with
  | none => cases h
  | some named =>
    obtain ⟨form, target⟩ := named
    refine ⟨form, target, rfl, search_eq_some ?_⟩
    unfold locate at h
    dsimp only at h
    split at h
    · rename_i q hq
      rw [hq, Resolution.file.inj h]
    · cases h

end Resolver

namespace Scanner

variable {s : Scanner} {t : FileTree} {file p : Path} {bytes : List UInt8}

/-- The includes of a scan are the files to which directives of the text resolve. -/
theorem mem_resolved_scanBytes : p ∈ (s.scanBytes t file bytes).resolved ↔
    ∃ q, (∃ i, (i, .file q) ∈ s.resolver.resolveAll t (.ofBytes s.imports bytes) file) ∧
      p.Same q := by
  have hresolved : (s.scanBytes t file bytes).resolved = PathSet.ofList
      (((s.resolver.resolveAll t (.ofBytes s.imports bytes) file).map Prod.snd).filterMap
        Resolution.file?) := rfl
  rw [hresolved, PathSet.mem_ofList]
  simp [List.mem_filterMap, Resolution.file?_eq_some_iff]

/-- The files to which a scan says that directives lead are spelled as they are found. -/
theorem mem_toList_resolved_scanBytes (h : p ∈ (s.scanBytes t file bytes).resolved.toList) :
    ∃ i, (i, .file p) ∈ s.resolver.resolveAll t (.ofBytes s.imports bytes) file := by
  have hp := PathSet.mem_toList_ofList h
  obtain ⟨resolution, hresolution, hfile⟩ := List.mem_filterMap.mp hp
  obtain ⟨⟨i, _⟩, hfound, rfl⟩ := List.mem_map.mp hresolution
  exact ⟨i, Resolution.file?_eq_some_iff.mp hfile ▸ hfound⟩

/-- A file that a scan resolves to is a candidate for the target of a directive. -/
theorem exists_candidate_of_mem_resolved (h : p ∈ (s.scanFile t file).resolved) :
    ∃ bytes, t.read file = .ok bytes ∧ ∃ i form target,
      (i, some (form, target)) ∈ s.resolver.targets (.ofBytes s.imports bytes) ∧
        ∃ q ∈ Resolver.candidates (s.resolver.searchDirs (Resolver.directoryOf file) form)
          (.ofString target), t.isFile q = true ∧ p = q.clean := by
  unfold scanFile at h
  split at h
  · rename_i bytes hread
    obtain ⟨i, hfile⟩ := mem_toList_resolved_scanBytes h
    obtain ⟨⟨i, found⟩, hfound, heq⟩ := List.mem_map.mp hfile
    obtain ⟨form, target, rfl, hcandidate⟩ :=
      Resolver.locate_eq_file (congrArg Prod.snd heq)
    exact ⟨bytes, hread, i, form, target, hfound, hcandidate⟩
  · exact absurd h List.not_mem_nil

/-- A file that a scan resolves to is spelled cleanly, and its path is short. -/
theorem exists_of_mem_resolved (h : p ∈ (s.scanFile t file).resolved) :
    ∃ q, t.isFile q = true ∧ p = q.clean := by
  obtain ⟨_, -, _, _, _, -, q, -, hfile, hclean⟩ := exists_candidate_of_mem_resolved h
  exact ⟨q, hfile, hclean⟩

end Scanner

namespace Graph

/-- All paths to which a directive can lead. -/
def possibleIncludes : List Path :=
  (textsBelow Path.byteLimit).map fun cs => Path.clean ⟨cs⟩

/-- There are no more possible includes than waves. -/
theorem length_possibleIncludes_le : possibleIncludes.length ≤ waveLimit := by
  unfold possibleIncludes waveLimit
  rw [List.length_map]
  exact Nat.le_of_lt (length_textsBelow_lt Path.byteLimit)

/-- Whatever a scan resolves to is one of finitely many paths. -/
theorem mem_possibleIncludes {s : Scanner} {t : FileTree} {file p : Path}
    (h : p ∈ (s.scanFile t file).resolved) : p ∈ possibleIncludes := by
  obtain ⟨q, hfile, rfl⟩ := Scanner.exists_of_mem_resolved h
  exact List.mem_map.mpr ⟨q.chars, mem_textsBelow (FileTree.length_lt_of_isFile hfile), rfl⟩

/-! ## The graph of a scan -/

variable {s : Scanner} {t : FileTree} {sources : List Path}

/-- The nodes of a graph are what exploring from the sources has visited. -/
theorem nodes_build : (build s t sources).nodes =
    explore (s.scanFile t) Node.resolved waveLimit ∅ (.ofList sources) := by
  simp only [build]

/-- Each node is the scan of the file under the spelling of its key. -/
theorem node_eq_scanFile {e : Path × Node} (h : e ∈ (build s t sources).nodes.entries) :
    e.2 = s.scanFile t e.1 := by
  rw [nodes_build] at h
  exact explore_visited (.start _) h

/-- What a node of the graph includes has a node too. -/
theorem build_closed : ClosedUnder Node.resolved (build s t sources).nodes := by
  rw [nodes_build]
  exact explore_closed (fun _ q hq => ⟨q, mem_possibleIncludes hq, .refl q⟩)
    length_possibleIncludes_le _

/-- Each source has a node. -/
theorem source_mem_build {p : Path} (h : p ∈ PathSet.ofList sources) :
    p ∈ (build s t sources).nodes := by
  rw [nodes_build]
  exact mem_explore (.inr h)

/-- The paths of nodes are spelled as the sources or as what directives lead to. -/
theorem node_path {e : Path × Node} (h : e ∈ (build s t sources).nodes.entries) :
    e.1 ∈ (PathSet.ofList sources).toList ∨ ∃ q, t.isFile q = true ∧ e.1 = q.clean := by
  rw [nodes_build] at h
  refine explore_induct (P := fun p => p ∈ (PathSet.ofList sources).toList ∨
    ∃ q, t.isFile q = true ∧ p = q.clean) (.start _) ?_ (fun _ hp => .inl hp) ?_ h
  · exact fun _ he => absurd he List.not_mem_nil
  · exact fun _ _ q hq => .inr (Scanner.exists_of_mem_resolved hq)

/-- Each source has a node under its own spelling. -/
theorem source_mem_keys {p : Path} (h : p ∈ (PathSet.ofList sources).toList) :
    p ∈ (build s t sources).nodes.keys := by
  rw [nodes_build]
  exact wave_mem_keys_explore (.start _) h

/-- A node for another spelling of a source has the spelling of the source. -/
theorem node_path_of_source {p : Path} {e : Path × Node}
    (hp : p ∈ (PathSet.ofList sources).toList) (he : e ∈ (build s t sources).nodes.entries)
    (h : p.Same e.1) : p = e.1 := by
  obtain ⟨n, hn⟩ := PathMap.mem_keys.mp (source_mem_keys hp)
  rw [← PathMap.entry_unique hn he h]

/-- A file has its node under the same spelling in all graphs for the same sources. -/
theorem node_path_unique {s' : Scanner} {u : FileTree} {e f : Path × Node}
    (he : e ∈ (build s t sources).nodes.entries)
    (hf : f ∈ (build s' u sources).nodes.entries) (h : e.1.Same f.1) : e.1 = f.1 := by
  rcases node_path he with hsource | ⟨q, -, hq⟩
  · exact node_path_of_source hsource hf h
  · rcases node_path hf with hsource | ⟨r, -, hr⟩
    · exact (node_path_of_source hsource he h.symm).symm
    · rw [hq, hr] at h ⊢
      exact Path.clean_eq_of_same h

/-- What the graph says about a path is the scan of some spelling of it. -/
theorem node?_build {p : Path} {n : Node} (h : (build s t sources).node? p = some n) :
    ∃ q, p.Same q ∧ n = s.scanFile t q := by
  obtain ⟨q, hq, hpq⟩ := PathMap.get?_eq_some_iff.mp h
  exact ⟨q, hpq, node_eq_scanFile hq⟩

/-- A scan of the graph is that of the bytes that are read. -/
theorem scan?_build {p : Path} {found : Scan} (h : (build s t sources).scan? p = some found) :
    ∃ q bytes, p.Same q ∧ t.read q = .ok bytes ∧ found = s.scanBytes t q bytes := by
  obtain ⟨n, hn, hscan⟩ := Option.bind_eq_some_iff.mp h
  obtain ⟨q, hpq, rfl⟩ := node?_build hn
  unfold Scanner.scanFile at hscan
  split at hscan
  · rename_i bytes hread
    exact ⟨q, bytes, hpq, hread, (Option.some.inj hscan).symm⟩
  · exact absurd hscan (by simp [Node.scan?])

end Graph

end Recompile
