import Mathlib.Data.List.Find
import Recompile.Proofs.FileTree.Asked
import Recompile.Proofs.Graph.Build

/-!
# What a scan depends on

The scan of a file looks up the file and the candidates for the targets of its directives,
and nothing else (`Scanner.scanFile_congr`). An exploration visits the paths that it finds,
so it finds the same on another tree if each of these paths shows the same there
(`explore_congr`). Together: the graph is the same on every tree in which all that was
looked up for it leads to what it did (`Graph.build_congr`).
-/

set_option autoImplicit false

namespace Recompile

variable {t t' : FileTree} {p : Path}

namespace FileTree

/-- Reading depends only on where the path leads. -/
theorem read_congr (h : t'.find p = t.find p) : t'.read p = t.read p := by
  unfold read
  rw [h]

/-- Being a file depends only on where the path leads. -/
theorem isFile_congr (h : t'.find p = t.find p) : t'.isFile p = t.isFile p := by
  unfold isFile
  rw [h]

end FileTree

namespace Resolver

variable {r : Resolver} {ds : Directives} {file target : Path} {dirs : List Path}

/-- A search depends only on where its candidates lead. -/
theorem search_congr (h : ∀ p ∈ candidates dirs target, t'.find p = t.find p) :
    search t' dirs target = search t dirs target := by
  have hfind :
      (candidates dirs target).find? t'.isFile = (candidates dirs target).find? t.isFile := by
    apply List.find?_congr
    intro p hp
    exact FileTree.isFile_congr (h p hp)
  unfold search
  rw [hfind]

/-- Directives are resolved in the same way where all candidates lead to the same. -/
theorem resolveAll_congr (h : ∀ p ∈ r.consulted ds file, t'.find p = t.find p) :
    r.resolveAll t' ds file = r.resolveAll t ds file := by
  unfold resolveAll
  apply List.map_congr_left
  intro found hfound
  have hlocate :
      r.locate t' (directoryOf file) found.2 = r.locate t (directoryOf file) found.2 := by
    unfold locate
    cases htarget : found.2 with
    | none => rfl
    | some named =>
      obtain ⟨form, target⟩ := named
      have hsearch : search t' (r.searchDirs (directoryOf file) form) (.ofString target) =
          search t (r.searchDirs (directoryOf file) form) (.ofString target) := by
        apply search_congr
        intro p hp
        apply h
        refine List.mem_flatMap.mpr ⟨found, hfound, ?_⟩
        rw [htarget]
        exact hp
      dsimp only
      rw [hsearch]
  rw [hlocate]

end Resolver

namespace Scanner

variable {s : Scanner} {file : Path}

/-- The paths that are looked up to scan a file. -/
def lookedUp (s : Scanner) (t : FileTree) (file : Path) : List Path :=
  file ::
    match t.read file with
    | .ok bytes => s.resolver.consulted (.ofBytes s.imports bytes) file
    | .error _ => []

/-- A file is scanned in the same way where all that is looked up leads to the same. -/
theorem scanFile_congr (h : ∀ p ∈ s.lookedUp t file, t'.find p = t.find p) :
    s.scanFile t' file = s.scanFile t file := by
  have hread : t'.read file = t.read file := FileTree.read_congr (h file List.mem_cons_self)
  unfold scanFile
  rw [hread]
  cases hbytes : t.read file with
  | error e => rfl
  | ok bytes =>
    have hresolve : s.resolver.resolveAll t' (.ofBytes s.imports bytes) file =
        s.resolver.resolveAll t (.ofBytes s.imports bytes) file := by
      apply Resolver.resolveAll_congr
      intro p hp
      apply h
      unfold lookedUp
      rw [hbytes]
      exact List.mem_cons_of_mem _ hp
    unfold scanBytes
    dsimp only
    rw [hresolve]

end Scanner

/-! ## Explorations -/

section

variable {α : Type} {visit visit' : Path → α} {next : α → List Path} {seen : PathMap α}
  {wave : PathSet}

/-- Visiting a wave depends only on the visits of its paths. -/
theorem visitWave_congr (h : ∀ p ∈ wave.toList, visit' p = visit p) :
    visitWave visit' seen wave = visitWave visit seen wave := by
  have hwave :
      (wave.toList.map fun p => (p, visit' p)) = wave.toList.map fun p => (p, visit p) := by
    apply List.map_congr_left
    intro p hp
    rw [h p hp]
  unfold visitWave
  rw [hwave]

/-- The next wave depends only on the visits of the paths of this one. -/
theorem nextWave_congr (h : ∀ p ∈ wave.toList, visit' p = visit p) :
    nextWave visit' next seen wave = nextWave visit next seen wave := by
  have hnamed : (wave.toList.flatMap fun p => next (visit' p)) =
      wave.toList.flatMap fun p => next (visit p) := by
    apply List.flatMap_congr
    intro p hp
    rw [h p hp]
  unfold nextWave
  rw [hnamed]

/-- An exploration that finds paths under which another visit shows the same finds the same
by that visit. -/
theorem explore_congr {waves : Nat} (hfront : Frontier visit next seen wave)
    (h : ∀ p ∈ (explore visit next waves seen wave).keys, visit' p = visit p) :
    explore visit' next waves seen wave = explore visit next waves seen wave := by
  -- A wave is among what is found in the end, so both visits show the same on it.
  have hwave : ∀ p ∈ wave.toList, visit' p = visit p := by
    intro p hp
    exact h p (wave_mem_keys_explore hfront hp)
  induction waves generalizing seen wave with
  | zero => exact visitWave_congr hwave
  | succ waves ih =>
    unfold explore at h ⊢
    by_cases hempty : wave.isEmpty = true
    · rw [if_pos hempty, if_pos hempty]
    · rw [if_neg hempty] at h ⊢
      rw [if_neg hempty]
      dsimp only at h ⊢
      rw [visitWave_congr hwave, nextWave_congr hwave]
      apply ih hfront.advance h
      intro p hp
      exact h p (wave_mem_keys_explore hfront.advance hp)

end

namespace Graph

/-- Graphs with the same nodes are equal. -/
theorem ext {g g' : Graph} (h : g.nodes = g'.nodes) : g = g' := by
  cases g
  cases g'
  exact congrArg Graph.mk h

/-- A graph is the same on a tree where all that was looked up for it leads to the same. -/
theorem build_congr {s : Scanner} {sources : List Path}
    (h : ∀ file ∈ (build s t sources).nodes.keys, ∀ p ∈ s.lookedUp t file,
      t'.find p = t.find p) : build s t' sources = build s t sources := by
  apply ext
  rw [nodes_build] at h
  rw [nodes_build, nodes_build]
  apply explore_congr (.start _)
  intro file hfile
  exact Scanner.scanFile_congr (h file hfile)

end Graph

end Recompile
