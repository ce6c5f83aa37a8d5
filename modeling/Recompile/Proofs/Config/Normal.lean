import Recompile.Config.Basic
import Recompile.Proofs.Path.Target

/-!
# Normalised configurations

Normalising a configuration changes its search roots and its sources alone. They become
absolute (`Config.isAbsolute_of_mem_roots`), and the sources become those paths, each once,
that the declared ones are absolute forms of (`Config.mem_sources_of_normalized`). Whether
this succeeds for other sources is a question about them alone
(`Config.normalized_with_sources`).
-/

set_option autoImplicit false

namespace Recompile

namespace Path

/-- Dropping repeated paths brings none in. -/
theorem mem_of_mem_distinct {p : Path} {ps : List Path} (h : p ∈ distinct ps) : p ∈ ps := by
  induction ps with
  | nil => exact h
  | cons q ps ih =>
    rw [distinct] at h
    rcases List.mem_cons.mp h with rfl | h
    · exact List.mem_cons_self
    · exact List.mem_cons_of_mem _ (ih (List.mem_filter.mp h).1)

/-- Absolute forms are absolute. -/
theorem isAbsolute_of_absolute? {p q workingDir : Path} (hdir : workingDir.isAbsolute = true)
    (h : p.absolute? workingDir = some q) : q.isAbsolute = true := by
  have hroot : p.rootSpelling.isAbsolute = true := by
    unfold rootSpelling
    split <;> rfl
  have hbase : (if p.isAbsolute then p.rootSpelling else workingDir).isAbsolute = true := by
    split
    · exact hroot
    · exact hdir
  have hpath : ((if p.isAbsolute then p.rootSpelling else workingDir).extend
      p.named).isAbsolute = true := by
    rw [isAbsolute_extend fun _ hc => plain_of_mem_named hc, hbase]
  have hslash (path : Path) (habs : path.isAbsolute = true) :
      (path.join empty).isAbsolute = true := by
    rw [isAbsolute_join_of_ne_nil (chars_ne_nil_of_isAbsolute habs) rfl, habs]
  unfold absolute? at h
  split at h
  · cases h
  · cases h
    split
    · exact hslash _ hpath
    · exact hpath

end Path

namespace Config

variable {c n : Config} {workingDir p root : Path} {ps qs : List Path}

/-- The absolute forms of a list are those of its head and of its tail, if there are any. -/
theorem absolutes_cons (workingDir p : Path) (ps : List Path) :
    absolutes workingDir (p :: ps) =
      match p.absolute? workingDir with
      | some q => (absolutes workingDir ps).map (q :: ·)
      | none => .error (.noAbsolutePath p) := by
  unfold absolutes
  rw [List.mapM_cons]
  cases p.absolute? workingDir with
  | none => rfl
  | some q => rfl

/-- Paths have absolute forms if each of them has one. -/
theorem absolutes_eq_ok_iff :
    absolutes workingDir ps = .ok qs ↔ ps.map (·.absolute? workingDir) = qs.map some := by
  induction ps generalizing qs with
  | nil => cases qs <;> simp [absolutes, pure, Except.pure]
  | cons p ps ih =>
    rw [absolutes_cons, List.map_cons]
    cases habs : p.absolute? workingDir with
    | none => cases qs <;> simp
    | some q =>
      cases qs with
      | nil => cases absolutes workingDir ps <;> simp [Except.map]
      | cons q' qs =>
        rw [List.map_cons, List.cons.injEq, ← ih, Option.some.injEq]
        cases absolutes workingDir ps <;> simp [Except.map]

/-- The absolute forms of a list are the absolute forms of its paths. -/
theorem mem_absolutes_iff (h : absolutes workingDir ps = .ok qs) :
    p ∈ qs ↔ ∃ q ∈ ps, q.absolute? workingDir = some p := by
  have hmem : p ∈ qs ↔ some p ∈ qs.map some := by simp
  rw [hmem, ← absolutes_eq_ok_iff.mp h, List.mem_map]

/-- If a list has absolute forms, each of its paths has one. -/
theorem exists_absolute?_of_absolutes (h : absolutes workingDir ps = .ok qs) (hp : p ∈ ps) :
    ∃ q, p.absolute? workingDir = some q := by
  have hmem : p.absolute? workingDir ∈ qs.map some := by
    rw [← absolutes_eq_ok_iff.mp h]
    exact List.mem_map.mpr ⟨p, hp, rfl⟩
  obtain ⟨q, -, hq⟩ := List.mem_map.mp hmem
  exact ⟨q, hq.symm⟩

/-- If each path of a list has an absolute form, the list has absolute forms. -/
theorem exists_absolutes (h : ∀ p ∈ ps, ∃ q, p.absolute? workingDir = some q) :
    ∃ qs, absolutes workingDir ps = .ok qs := by
  induction ps with
  | nil => exact ⟨[], rfl⟩
  | cons p ps ih =>
    obtain ⟨q, hq⟩ := h p List.mem_cons_self
    obtain ⟨qs, hqs⟩ := ih fun r hr => h r (List.mem_cons_of_mem p hr)
    refine ⟨q :: qs, ?_⟩
    rw [absolutes_cons, hq, hqs]
    rfl

/-- What the normal form of a configuration is, and when there is one. -/
theorem normalized_eq_ok_iff : c.normalized workingDir = .ok n ↔
    Text.trim c.unit.toList ≠ [] ∧ c.maxParallel ≠ some 0 ∧
      ∃ roots sources, absolutes workingDir c.roots = .ok roots ∧
        absolutes workingDir c.sources = .ok sources ∧
        n = { c with
          roots := Path.distinct roots
          sources := (PathSet.addAll ∅ sources).toList } := by
  constructor
  · intro h
    unfold normalized at h
    split at h
    · cases h
    split at h
    · cases h
    rename_i hunit hworkers
    refine ⟨hunit, hworkers, ?_⟩
    cases hroots : absolutes workingDir c.roots with
    | error e =>
      rw [hroots] at h
      cases h
    | ok roots =>
      cases hsources : absolutes workingDir c.sources with
      | error e =>
        rw [hroots, hsources] at h
        cases h
      | ok sources =>
        rw [hroots, hsources] at h
        cases h
        exact ⟨roots, sources, rfl, rfl, rfl⟩
  · rintro ⟨hunit, hworkers, roots, sources, hroots, hsources, rfl⟩
    rw [normalized, if_neg hunit, if_neg hworkers, hroots, hsources]
    rfl

/-- Normalising a configuration makes its search roots and sources absolute. -/
theorem normalized_eq_ok (h : c.normalized workingDir = .ok n) :
    ∃ roots sources, absolutes workingDir c.roots = .ok roots ∧
      absolutes workingDir c.sources = .ok sources ∧
      n = { c with
        roots := Path.distinct roots
        sources := (PathSet.addAll ∅ sources).toList } :=
  (normalized_eq_ok_iff.mp h).2.2

/-- Normalising a configuration changes its search roots and sources alone. -/
theorem eq_of_normalized (h : c.normalized workingDir = .ok n) :
    n = { c with roots := n.roots, sources := n.sources } := by
  obtain ⟨roots, sources, -, -, rfl⟩ := normalized_eq_ok h
  rfl

/-- The normal form keeps the unit. -/
theorem unit_of_normalized (h : c.normalized workingDir = .ok n) : n.unit = c.unit := by
  rw [eq_of_normalized h]

/-- The normal form keeps the mode. -/
theorem mode_of_normalized (h : c.normalized workingDir = .ok n) : n.mode = c.mode := by
  rw [eq_of_normalized h]

/-- The search roots of a normalised configuration are absolute. -/
theorem isAbsolute_of_mem_roots (hdir : workingDir.isAbsolute = true)
    (h : c.normalized workingDir = .ok n) (hroot : root ∈ n.roots) : root.isAbsolute = true := by
  obtain ⟨roots, sources, hroots, -, rfl⟩ := normalized_eq_ok h
  obtain ⟨q, -, habs⟩ := (mem_absolutes_iff hroots).mp (Path.mem_of_mem_distinct hroot)
  exact Path.isAbsolute_of_absolute? hdir habs

/-- The sources of a normalised configuration are absolute forms of the declared ones. -/
theorem exists_source_of_normalized (h : c.normalized workingDir = .ok n) (hp : p ∈ n.sources) :
    ∃ s ∈ c.sources, s.absolute? workingDir = some p := by
  obtain ⟨roots, sources, -, hsources, rfl⟩ := normalized_eq_ok h
  rcases PathSet.mem_toList_addAll hp with hp | ⟨hp, -⟩
  · exact absurd (PathSet.mem_of_mem_toList hp) (PathMap.not_mem_empty p)
  · exact (mem_absolutes_iff hsources).mp hp

/-- The sources of a normalised configuration are the paths that are absolute forms of the
declared ones. -/
theorem mem_sources_of_normalized (h : c.normalized workingDir = .ok n) :
    (∃ q ∈ n.sources, p.Same q) ↔
      ∃ s ∈ c.sources, ∃ q, s.absolute? workingDir = some q ∧ p.Same q := by
  obtain ⟨roots, sources, -, hsources, rfl⟩ := normalized_eq_ok h
  have hmem : p ∈ PathSet.addAll ∅ sources ↔ ∃ q ∈ sources, p.Same q := by
    rw [PathSet.mem_addAll, or_iff_right (PathMap.not_mem_empty p)]
  show (∃ q ∈ (PathSet.addAll ∅ sources).toList, p.Same q) ↔ _
  rw [← PathSet.mem_iff_toList, hmem]
  constructor
  · rintro ⟨q, hq, hsame⟩
    obtain ⟨s, hs, habs⟩ := (mem_absolutes_iff hsources).mp hq
    exact ⟨s, hs, q, habs, hsame⟩
  · rintro ⟨s, hs, q, habs, hsame⟩
    exact ⟨q, (mem_absolutes_iff hsources).mpr ⟨s, hs, habs⟩, hsame⟩

/-- If a configuration has a normal form, each source has an absolute form. -/
theorem exists_absolute?_of_normalized (h : c.normalized workingDir = .ok n) (hp : p ∈ c.sources) :
    ∃ q, p.absolute? workingDir = some q := by
  obtain ⟨roots, sources, -, hsources, -⟩ := normalized_eq_ok h
  exact exists_absolute?_of_absolutes hsources hp

/-- A configuration stays valid with any sources that have absolute forms, and nothing but
the sources of its normalised form changes. -/
theorem normalized_with_sources (h : c.normalized workingDir = .ok n)
    (hps : ∀ p ∈ ps, ∃ q, p.absolute? workingDir = some q) :
    ∃ sources, absolutes workingDir ps = .ok sources ∧
      ({ c with sources := ps } : Config).normalized workingDir =
        .ok { n with sources := (PathSet.addAll ∅ sources).toList } := by
  obtain ⟨sources, hsources⟩ := exists_absolutes hps
  obtain ⟨hunit, hworkers, roots, old, hroots, -, rfl⟩ := normalized_eq_ok_iff.mp h
  refine ⟨sources, hsources, normalized_eq_ok_iff.mpr ?_⟩
  exact ⟨hunit, hworkers, roots, sources, hroots, hsources, rfl⟩

end Config

end Recompile
