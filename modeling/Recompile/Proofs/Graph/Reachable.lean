import Mathlib.Logic.Relation
import Recompile.Proofs.Graph.Build

/-!
# What a file reaches

`Graph.Edge` says that one file was read and includes another. The files that
`Graph.reachable` lists for a root are those that a chain of edges leads to from there,
other than the root itself (`Graph.mem_reachable`); since the exploration never goes on
through the root, a chain that comes back to it has to be cut there.

`Graph.Reaches` adds the root: these are all the files that a verdict about the root
depends on. In the graph of a scan each of them has a node (`Graph.node?_of_reaches`).
-/

set_option autoImplicit false

namespace Recompile

namespace Graph

variable {g : Graph} {p q r root : Path}

/-- A file that could be read includes another one. -/
def Edge (g : Graph) (p q : Path) : Prop :=
  ∃ s, g.scan? p = some s ∧ q ∈ s.resolved

/-- The node of an entry is what the graph says about its path. -/
theorem node?_of_mem_entries {g : Graph} {n : Node} (h : (q, n) ∈ g.nodes.entries) :
    g.node? q = some n :=
  PathMap.get?_of_mem_entries h

/-- What the graph says about a path does not depend on its spelling. -/
theorem node?_congr (h : p.Same q) : g.node? p = g.node? q :=
  PathMap.get?_congr h

/-- The scan of a path does not depend on its spelling. -/
theorem scan?_congr (h : p.Same q) : g.scan? p = g.scan? q := by
  unfold scan?
  rw [node?_congr h]

/-- A path has a scan exactly when its node is one of a file that could be read. -/
theorem scan?_eq_some_iff {s : Scan} : g.scan? p = some s ↔ g.node? p = some (.scanned s) := by
  unfold scan?
  rw [Option.bind_eq_some_iff]
  constructor
  · rintro ⟨n, hn, hs⟩
    cases n with
    | scanned found => rw [hn]; exact congrArg _ (congrArg _ (Option.some.inj hs))
    | unreadable e => exact absurd hs (by simp [Node.scan?])
  · intro h
    exact ⟨_, h, rfl⟩

/-- An edge goes out from every spelling of its beginning. -/
theorem Edge.congr_left (h : g.Edge p r) (hpq : p.Same q) : g.Edge q r := by
  obtain ⟨s, hs, hr⟩ := h
  exact ⟨s, scan?_congr hpq ▸ hs, hr⟩

/-- An edge leads to every spelling of its end. -/
theorem Edge.congr_right (h : g.Edge p q) (hqr : q.Same r) : g.Edge p r := by
  obtain ⟨s, hs, hq⟩ := h
  exact ⟨s, hs, (PathMap.mem_congr hqr).mp hq⟩

/-- A chain of edges leads to every spelling of its end. -/
theorem transGen_congr_right (h : Relation.TransGen g.Edge p q) (hqr : q.Same r) :
    Relation.TransGen g.Edge p r := by
  cases h with
  | single h => exact .single (h.congr_right hqr)
  | tail h h' => exact .tail h (h'.congr_right hqr)

/-- An edge, seen in the list of what a node includes. -/
theorem edge_iff_resolved :
    g.Edge p q ↔ ∃ r ∈ ((g.node? p).map Node.resolved).getD [], q.Same r := by
  unfold Edge
  cases hn : g.node? p with
  | none =>
    have hscan : g.scan? p = none := by rw [scan?, hn]; rfl
    simp [hscan]
  | some n =>
    cases n with
    | scanned s =>
      have hscan : g.scan? p = some s := scan?_eq_some_iff.mpr hn
      simp only [hscan, Option.some.injEq, exists_eq_left', Option.map_some, Option.getD_some]
      exact PathSet.mem_iff_toList
    | unreadable e =>
      have hscan : g.scan? p = none := by rw [scan?, hn]; rfl
      simp [hscan, Node.resolved]

/-- What a node includes beside the root is what it includes and is not the root. -/
theorem mem_resolvedBeside {node : Option Node} :
    q ∈ resolvedBeside root node ↔ q ∈ (node.map Node.resolved).getD [] ∧ ¬ q.Same root := by
  simp [resolvedBeside]

/-- There are as many edges as the exploration allows waves for. -/
theorem length_resolved_le : (g.nodes.values.flatMap Node.resolved).length ≤ g.edgeCount :=
  Nat.le_refl _

/-- What a node includes beside the root is among what all nodes include. -/
theorem mem_flatMap_resolved (h : q ∈ resolvedBeside root (g.node? p)) :
    q ∈ g.nodes.values.flatMap Node.resolved := by
  cases hn : g.node? p with
  | none =>
    rw [hn] at h
    exact absurd (mem_resolvedBeside.mp h).1 List.not_mem_nil
  | some n =>
    rw [hn] at h
    exact List.mem_flatMap.mpr ⟨n, PathMap.mem_values.mpr ⟨p, hn⟩, (mem_resolvedBeside.mp h).1⟩

/-- The files that a root includes, other than itself. -/
def beside (g : Graph) (root : Path) : PathSet :=
  PathSet.addAll ∅ (resolvedBeside root (g.node? root))

/-- The exploration that starts with what a root includes. -/
def explored (g : Graph) (root : Path) : PathMap (Option Node) :=
  explore g.node? (resolvedBeside root) g.edgeCount ∅ (g.beside root)

/-- The exploration starts with the ends of the root's edges that are not the root. -/
theorem mem_beside_iff : q ∈ g.beside root ↔ g.Edge root q ∧ ¬ q.Same root := by
  unfold beside
  rw [PathSet.mem_addAll, or_iff_right (PathMap.not_mem_empty q), edge_iff_resolved]
  constructor
  · rintro ⟨u, hu, hqu⟩
    obtain ⟨hu, hnot⟩ := mem_resolvedBeside.mp hu
    exact ⟨⟨u, hu, hqu⟩, fun h => hnot (hqu.symm.trans h)⟩
  · rintro ⟨⟨u, hu, hqu⟩, hnot⟩
    exact ⟨u, mem_resolvedBeside.mpr ⟨hu, fun h => hnot (hqu.trans h)⟩, hqu⟩

/-- What is explored from a root is another file, and a chain of edges leads to it. -/
theorem chain_of_mem_explored {e : Path × Option Node} (he : e ∈ (g.explored root).entries) :
    ¬ e.1.Same root ∧ Relation.TransGen g.Edge root e.1 := by
  refine explore_induct (P := fun p => ¬ p.Same root ∧ Relation.TransGen g.Edge root p)
    (.start _) (fun _ h => absurd h List.not_mem_nil) ?_ ?_ he
  · intro p hp
    obtain ⟨hedge, hnot⟩ := mem_beside_iff.mp (PathSet.mem_of_mem_toList hp)
    exact ⟨hnot, .single hedge⟩
  · rintro p ⟨-, hp⟩ r hr
    obtain ⟨hr, hnot⟩ := mem_resolvedBeside.mp hr
    exact ⟨hnot, hp.tail (edge_iff_resolved.mpr ⟨r, hr, .refl r⟩)⟩

/-- Nothing that an explored file includes is left out, besides the root. -/
theorem closedUnder_explored : ClosedUnder (resolvedBeside root) (g.explored root) := by
  have hpaths : ∀ p, ∀ v ∈ resolvedBeside root (g.node? p),
      ∃ w ∈ g.nodes.values.flatMap Node.resolved, v.Same w :=
    fun p v hv => ⟨v, mem_flatMap_resolved hv, .refl v⟩
  exact explore_closed hpaths length_resolved_le (g.beside root)

/-- An edge from an explored file leads to an explored file or to the root. -/
theorem mem_explored_of_edge (hp : p ∈ g.explored root) (hedge : g.Edge p q) :
    q.Same root ∨ q ∈ g.explored root := by
  by_cases hsame : q.Same root
  · exact .inl hsame
  · right
    obtain ⟨e, he, hpe⟩ := hp
    obtain ⟨u, hu, hqu⟩ := edge_iff_resolved.mp (hedge.congr_left hpe)
    have hvalue : e.2 = g.node? e.1 := explore_visited (.start _) he
    have hnext : u ∈ resolvedBeside root e.2 :=
      mem_resolvedBeside.mpr ⟨hvalue ▸ hu, fun h => hsame (hqu.trans h)⟩
    exact (PathMap.mem_congr hqu).mpr (closedUnder_explored e he u hnext)

/-- What a chain of edges leads to is explored, if it is not the root. -/
theorem mem_explored_of_chain (h : Relation.TransGen g.Edge root q) :
    q.Same root ∨ q ∈ g.explored root := by
  have hsingle : ∀ r, g.Edge root r → r.Same root ∨ r ∈ g.explored root := by
    intro r hr
    by_cases hsame : r.Same root
    · exact .inl hsame
    · exact .inr (mem_explore (.inr (mem_beside_iff.mpr ⟨hr, hsame⟩)))
  induction h with
  | single hedge => exact hsingle _ hedge
  | @tail b c _ hedge ih =>
    -- A chain that comes back to the root is as good as one that starts there.
    rcases ih with hsame | hb
    · exact hsingle c (hedge.congr_left hsame)
    · exact mem_explored_of_edge hb hedge

/-- A root reaches what a chain of edges leads to, other than itself. -/
theorem mem_reachable :
    q ∈ g.reachable root ↔ ¬ q.Same root ∧ Relation.TransGen g.Edge root q := by
  have heq : g.reachable root = (g.explored root).map fun _ _ => () := rfl
  rw [heq, PathMap.mem_map]
  constructor
  · rintro ⟨e, he, hqe⟩
    obtain ⟨hnot, hchain⟩ := chain_of_mem_explored he
    exact ⟨fun h => hnot (hqe.symm.trans h), transGen_congr_right hchain hqe.symm⟩
  · rintro ⟨hnot, hchain⟩
    exact (mem_explored_of_chain hchain).resolve_left hnot

/-- The files on which a verdict about a root depends: itself and those it reaches. -/
def Reaches (g : Graph) (root p : Path) : Prop :=
  p.Same root ∨ p ∈ g.reachable root

instance (g : Graph) (root p : Path) : Decidable (g.Reaches root p) :=
  inferInstanceAs (Decidable (_ ∨ _))

/-- A root reaches itself and the ends of the chains that begin at it. -/
theorem reaches_iff : g.Reaches root p ↔ p.Same root ∨ Relation.TransGen g.Edge root p := by
  unfold Reaches
  rw [mem_reachable]
  constructor
  · rintro (h | ⟨-, h⟩)
    · exact .inl h
    · exact .inr h
  · rintro (h | h)
    · exact .inl h
    · by_cases hsame : p.Same root
      · exact .inl hsame
      · exact .inr ⟨hsame, h⟩

/-- A root reaches itself. -/
theorem Reaches.self (g : Graph) (root : Path) : g.Reaches root root :=
  .inl (.refl root)

/-- What is reached is reached under every spelling. -/
theorem Reaches.congr (h : g.Reaches root p) (hpq : p.Same q) : g.Reaches root q := by
  rcases h with h | h
  · exact .inl (hpq.symm.trans h)
  · exact .inr ((PathMap.mem_congr hpq).mp h)

/-- Whatever a reached file includes is reached. -/
theorem Reaches.step (h : g.Reaches root p) (hedge : g.Edge p q) : g.Reaches root q := by
  rw [reaches_iff] at h ⊢
  rcases h with h | h
  · exact .inr (.single (hedge.congr_left h))
  · exact .inr (h.tail hedge)

/-- What holds of the root and passes along edges holds of all that is reached. -/
theorem Reaches.induct {P : Path → Prop} (h : g.Reaches root p)
    (hself : ∀ q, q.Same root → P q) (hstep : ∀ q r, g.Reaches root q → P q → g.Edge q r → P r) :
    P p := by
  rcases reaches_iff.mp h with h | h
  · exact hself p h
  · induction h with
    | single hedge => exact hstep root _ (.self g root) (hself root (.refl root)) hedge
    | tail hchain hedge ih =>
      have hb := reaches_iff.mpr (.inr hchain)
      exact hstep _ _ hb (ih hb) hedge

/-- The files that a root reaches are listed without the root. -/
theorem mem_reachable_iff_reaches : p ∈ g.reachable root ↔ ¬ p.Same root ∧ g.Reaches root p := by
  constructor
  · intro h
    exact ⟨(mem_reachable.mp h).1, .inr h⟩
  · rintro ⟨hnot, h⟩
    exact h.resolve_left hnot

/-- What is reached does not depend on the spelling of the root. -/
theorem Reaches.congr_root {root' : Path} (h : g.Reaches root p) (hroot : root.Same root') :
    g.Reaches root' p :=
  h.induct (fun _ hq => .inl (hq.trans hroot)) fun _ _ _ hq hedge => hq.step hedge

/-- The reachable files do not depend on the spelling of the root. -/
theorem mem_reachable_congr {root' : Path} (hroot : root.Same root') :
    p ∈ g.reachable root ↔ p ∈ g.reachable root' := by
  rw [mem_reachable_iff_reaches, mem_reachable_iff_reaches]
  constructor
  · rintro ⟨hnot, h⟩
    exact ⟨fun hsame => hnot (hsame.trans hroot.symm), h.congr_root hroot⟩
  · rintro ⟨hnot, h⟩
    exact ⟨fun hsame => hnot (hsame.trans hroot), h.congr_root hroot.symm⟩

/-- In the graph of a scan, all that a node reaches has a node. -/
theorem node?_of_reaches {s : Scanner} {t : FileTree} {sources : List Path}
    (hroot : root ∈ (build s t sources).nodes) (h : (build s t sources).Reaches root p) :
    p ∈ (build s t sources).nodes := by
  refine h.induct (fun q hq => (PathMap.mem_congr hq).mpr hroot) ?_
  rintro q r - - ⟨found, hfound, hr⟩
  obtain ⟨q', hq', -⟩ := PathMap.get?_eq_some_iff.mp (scan?_eq_some_iff.mp hfound)
  obtain ⟨u, hu, hru⟩ := PathSet.mem_iff_toList.mp hr
  exact (PathMap.mem_congr hru).mpr (build_closed _ hq' u hu)

/-- Every node of the graph of a scan is reached from a source. -/
theorem exists_source_reaches {s : Scanner} {t : FileTree} {sources : List Path}
    (hp : p ∈ (build s t sources).nodes) :
    ∃ source ∈ PathSet.ofList sources, (build s t sources).Reaches source p := by
  obtain ⟨e, he, hpe⟩ := hp
  have hreached : ∃ source ∈ PathSet.ofList sources, (build s t sources).Reaches source e.1 := by
    have hentry := he
    rw [nodes_build] at hentry
    refine explore_induct_of_keys
      (P := fun q => ∃ source ∈ PathSet.ofList sources, (build s t sources).Reaches source q)
      (.start _) (fun _ hf => absurd hf List.not_mem_nil) ?_ ?_ hentry
    · intro q hq
      exact ⟨q, PathSet.mem_of_mem_toList hq, .self _ q⟩
    · rintro q hq ⟨source, hsource, hreach⟩ r hr
      rw [← nodes_build] at hq
      obtain ⟨n, hn⟩ := PathMap.mem_keys.mp hq
      have hvalue : n = s.scanFile t q := node_eq_scanFile hn
      refine ⟨source, hsource, hreach.step (edge_iff_resolved.mpr ⟨r, ?_, .refl r⟩)⟩
      rw [node?_of_mem_entries hn, hvalue]
      exact hr
  obtain ⟨source, hsource, hreach⟩ := hreached
  exact ⟨source, hsource, hreach.congr hpe.symm⟩

end Graph

end Recompile
