import Recompile.Proofs.Graph.Closure
import Recompile.Proofs.Resolver.FirstMatch

/-!
# More search roots

With further search roots after the others a file has all the includes that it had, and may
have new ones (`Scanner.scanFile_enrichedBy`). So the nodes of the larger graph enclose the
sources as those of the smaller graph do, which are the least set that does so: each old node
is there still, and only its includes can have become more (`Graph.node?_enrichedBy`). A new
include can bring in new files, but no old node under another spelling, since the spelling
under which a file is opened depends on the sources alone.
-/

set_option autoImplicit false

namespace Recompile

/-! ## Nodes with more includes -/

/-- Another scan of a file showed the same, apart from further files to which directives
lead. -/
structure Scan.EnrichedBy (a b : Scan) : Prop where
  fingerprint : b.fingerprint = a.fingerprint
  includes : b.includes = a.includes
  undecided : b.undecided = a.undecided
  resolved : ∀ p, p ∈ a.resolved → p ∈ b.resolved

/-- Another node says the same about a file, apart from further includes. -/
inductive Node.EnrichedBy : Node → Node → Prop where
  | scanned {a b : Scan} (h : a.EnrichedBy b) : EnrichedBy (.scanned a) (.scanned b)
  | unreadable (e : OsError) : EnrichedBy (.unreadable e) (.unreadable e)

/-- An enriched node still includes what the node included. -/
theorem Node.EnrichedBy.exists_same {a b : Node} (h : a.EnrichedBy b) {q : Path}
    (hq : q ∈ a.resolved) : ∃ r ∈ b.resolved, q.Same r := by
  cases h with
  | scanned h => exact PathSet.mem_iff_toList.mp (h.resolved q (PathSet.mem_of_mem_toList hq))
  | unreadable e => cases hq

namespace Scanner

variable {s s' : Scanner} {t : FileTree} {file : Path} {bytes : List UInt8}

/-- Another scanner scans as this one does, with further search roots. -/
structure ExtendedBy (s s' : Scanner) : Prop where
  imports : s'.imports = s.imports
  resolver : s.resolver.ExtendedBy s'.resolver

/-- A scan is in doubt if some directive has no target; no search root changes that. -/
theorem undecided_scanBytes : (s.scanBytes t file bytes).undecided =
    (s.resolver.targets (.ofBytes s.imports bytes)).any fun found => found.2.isNone := by
  have hundecided (found : Include × Option (IncludeForm × String)) :
      (s.resolver.locate t (Resolver.directoryOf file) found.2 == .undecided) =
        found.2.isNone := by
    cases found.2 with
    | none => rfl
    | some named =>
      unfold Resolver.locate
      dsimp only
      split <;> rfl
  unfold scanBytes Resolver.resolveAll
  simp only [List.any_map, Function.comp_def, hundecided]

/-- With more search roots, the scan of a text is enriched. -/
theorem scanBytes_enrichedBy (h : s.ExtendedBy s') :
    (s.scanBytes t file bytes).EnrichedBy (s'.scanBytes t file bytes) := by
  constructor
  case fingerprint => rfl
  case includes =>
    unfold scanBytes
    dsimp only
    rw [h.imports]
  case undecided =>
    rw [undecided_scanBytes, undecided_scanBytes, h.imports, h.resolver.targets_eq]
  case resolved =>
    intro p hp
    obtain ⟨q, ⟨i, hq⟩, hpq⟩ := mem_resolved_scanBytes.mp hp
    obtain ⟨k, hk⟩ := List.mem_iff_getElem?.mp hq
    rw [← h.imports] at hk
    exact mem_resolved_scanBytes.mpr
      ⟨q, ⟨i, List.mem_of_getElem? (h.resolver.resolveAll hk)⟩, hpq⟩

/-- With more search roots, the scan of a file is enriched or still unreadable. -/
theorem scanFile_enrichedBy (h : s.ExtendedBy s') (t : FileTree) (file : Path) :
    (s.scanFile t file).EnrichedBy (s'.scanFile t file) := by
  unfold scanFile
  cases t.read file with
  | ok bytes => exact .scanned (scanBytes_enrichedBy h)
  | error e => exact .unreadable e

end Scanner

/-! ## Graphs with more edges -/

namespace Graph

variable {s s' : Scanner} {g g' : Graph} {t : FileTree} {sources : List Path} {p q root : Path}

/-- The larger graph encloses the sources for the smaller search. -/
theorem encloses_of_extendedBy (h : s.ExtendedBy s') :
    Encloses s t sources (· ∈ (build s' t sources).nodes) := by
  have hlarge := encloses_build s' t sources
  refine ⟨hlarge.congr, hlarge.source, fun p hp q hq => ?_⟩
  obtain ⟨r, hr, hqr⟩ := (Scanner.scanFile_enrichedBy h t _).exists_same hq
  exact (PathMap.mem_congr hqr).mpr (hlarge.included p hp r hr)

/-- Each node of the smaller graph is a node of the larger one, with more includes at most. -/
theorem node?_enrichedBy (h : s.ExtendedBy s') {n : Node}
    (hn : (build s t sources).node? p = some n) :
    ∃ n', (build s' t sources).node? p = some n' ∧ n.EnrichedBy n' := by
  have hp : p ∈ (build s t sources).nodes := PathMap.mem_iff_get?.mpr ⟨n, hn⟩
  have hp' : p ∈ (build s' t sources).nodes :=
    (encloses_of_extendedBy h).of_mem_build hp
  refine ⟨_, node?_eq_scanFile hp', ?_⟩
  rw [node?_eq_scanFile hp] at hn
  rw [← Option.some.inj hn]
  exact Scanner.scanFile_enrichedBy h t _

/-- What is reached is reached as well if all nodes have at least the includes that they
had. -/
theorem mem_reachable_of_enrichedBy
    (h : ∀ p n, g.node? p = some n → ∃ n', g'.node? p = some n' ∧ n.EnrichedBy n')
    (hq : q ∈ g.reachable root) : q ∈ g'.reachable root := by
  have hedge : ∀ p r, g.Edge p r → g'.Edge p r := by
    rintro p r ⟨found, hfound, hr⟩
    obtain ⟨n', hn', henriched⟩ := h p _ (scan?_eq_some_iff.mp hfound)
    cases henriched with
    | scanned henriched => exact ⟨_, scan?_eq_some_iff.mpr hn', henriched.resolved r hr⟩
  rw [mem_reachable] at hq ⊢
  exact hq.imp_right (Relation.TransGen.mono hedge root q)

/-- With further search roots after the others, the graph of a scan keeps its nodes, and each
of them all that it includes; whatever a file reached it reaches still, and every directive
that led to a file leads there. -/
theorem build_append_roots (imports : Bool) (roots more : List Path)
    (macros : List (String × String)) (t : FileTree) (sources : List Path) :
    let s : Scanner := ⟨imports, .ofRoots roots macros⟩
    let s' : Scanner := ⟨imports, .ofRoots (roots ++ more) macros⟩
    (∀ p n, (build s t sources).node? p = some n →
      ∃ n', (build s' t sources).node? p = some n' ∧ n.EnrichedBy n') ∧
    (∀ root q, q ∈ (build s t sources).reachable root →
      q ∈ (build s' t sources).reachable root) ∧
    (∀ scope dir i p, s.resolver.resolve t scope dir i = .file p →
      s'.resolver.resolve t scope dir i = .file p) ∧
    ∀ ds file (k : Nat) i p, (s.resolver.resolveAll t ds file)[k]? = some (i, .file p) →
      (s'.resolver.resolveAll t ds file)[k]? = some (i, .file p) := by
  intro s s'
  have hextended : s.ExtendedBy s' := ⟨rfl, Resolver.extendedBy_append roots more macros⟩
  have hnode : ∀ p n, (build s t sources).node? p = some n →
      ∃ n', (build s' t sources).node? p = some n' ∧ n.EnrichedBy n' :=
    fun _ _ hn => node?_enrichedBy hextended hn
  refine ⟨hnode, ?_, ?_, ?_⟩
  · exact fun _ _ hq => mem_reachable_of_enrichedBy hnode hq
  · exact fun _ _ _ _ hp => hextended.resolver.resolve hp
  · exact fun _ _ _ _ _ hp => hextended.resolver.resolveAll hp

end Graph

end Recompile
