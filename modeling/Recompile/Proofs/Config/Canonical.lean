import Recompile.Proofs.Config.Normal
import Recompile.Proofs.Path.Doubled

/-!
# Canonical configurations

A configuration is canonical (`Config.Canonical`) if it is valid, its paths are absolute forms,
no search root stands there twice and the sources are in path order. Normalising is a
projection onto these configurations: it makes a canonical one of every valid configuration
(`Config.exists_normalized_iff` says which these are), and leaves a canonical one as it is, from
whichever working directory (`Config.projects_of_normalized`).

Equality of paths goes by components, but what must stay is the spelling. First occurrences
determine a list with its spellings (`Path.FirstOccurrences.unique`), and putting paths in order
keeps theirs (`PathSet.toList_addAll_perm`). So both leave the very list alone that they have
made, and an absolute form is its own absolute form (`Path.Settled`).
-/

set_option autoImplicit false

namespace Recompile

namespace Path

/-! ## First occurrences -/

/-- One list has the paths of another in the order in which they first come up there. -/
structure FirstOccurrences (all kept : List Path) : Prop where
  /-- No two are the same path. -/
  apart : kept.Pairwise fun p q => ¬ p.Same q
  covered : ∀ p ∈ all, ∃ q ∈ kept, p.Same q
  /-- All that comes up before a kept path is the same as one that is kept before it. -/
  inOrder : ∀ before q after, kept = before ++ q :: after →
    ∃ xs ys, all = xs ++ q :: ys ∧ ∀ p ∈ xs, ∃ r ∈ before, p.Same r

namespace FirstOccurrences

variable {all kept kept' before after after' : List Path} {q q' : Path}

/-- A list without repetitions has its own first occurrences. -/
theorem refl_of_apart (h : all.Pairwise fun p q => ¬ p.Same q) : FirstOccurrences all all where
  apart := h
  covered p hp := ⟨p, hp, .refl p⟩
  inOrder before _ after heq := ⟨before, after, heq, fun p hp => ⟨p, hp, .refl p⟩⟩

/-- A kept path is not the same as one that is kept before it. -/
theorem not_same_before (h : FirstOccurrences all (before ++ q :: after)) {r : Path}
    (hr : r ∈ before) : ¬ q.Same r := by
  have hright := (List.pairwise_append.mp h.apart).2.2 r hr q List.mem_cons_self
  exact fun hsame => hright hsame.symm

/-- Two lists of first occurrences that agree so far go on with the same path. -/
theorem next_eq (h : FirstOccurrences all (before ++ q :: after))
    (h' : FirstOccurrences all (before ++ q' :: after')) : q = q' := by
  obtain ⟨xs, ys, hxs, hbefore⟩ := h.inOrder _ _ _ rfl
  obtain ⟨xs', ys', hxs', hbefore'⟩ := h'.inOrder _ _ _ rfl
  -- The one that comes up later would have the other one among those before it.
  rcases List.append_eq_append_iff.mp (hxs.symm.trans hxs') with ⟨more, hmore, htail⟩ |
    ⟨more, hmore, htail⟩
  · cases more with
    | nil => exact (List.cons.inj htail).1
    | cons r more =>
      obtain ⟨rfl, -⟩ := List.cons.inj htail
      obtain ⟨r, hr, hsame⟩ := hbefore' q (hmore ▸ by simp)
      exact absurd hsame (h.not_same_before hr)
  · cases more with
    | nil => exact (List.cons.inj htail).1.symm
    | cons r more =>
      obtain ⟨rfl, -⟩ := List.cons.inj htail
      obtain ⟨r, hr, hsame⟩ := hbefore q' (hmore ▸ by simp)
      exact absurd hsame (h'.not_same_before hr)

/-- None of two lists of first occurrences goes on where the other ends. -/
theorem not_longer (h : FirstOccurrences all before)
    (h' : FirstOccurrences all (before ++ q :: after)) : False := by
  obtain ⟨xs, ys, hxs, -⟩ := h'.inOrder _ _ _ rfl
  obtain ⟨r, hr, hsame⟩ := h.covered q (hxs ▸ by simp)
  exact h'.not_same_before hr hsame

/-- The first occurrences in a list are one list, down to the spelling. -/
theorem unique (h : FirstOccurrences all kept) (h' : FirstOccurrences all kept') :
    kept = kept' := by
  have hrest : ∀ before rest rest', FirstOccurrences all (before ++ rest) →
      FirstOccurrences all (before ++ rest') → rest = rest' := by
    intro before rest
    induction rest generalizing before with
    | nil =>
      rintro (_ | ⟨q', after'⟩) h h'
      · rfl
      · rw [List.append_nil] at h
        exact (h.not_longer h').elim
    | cons q after ih =>
      rintro (_ | ⟨q', after'⟩) h h'
      · rw [List.append_nil] at h'
        exact (h'.not_longer h).elim
      · obtain rfl := h.next_eq h'
        rw [List.append_cons] at h h'
        rw [ih (before ++ [q]) after' h h']
  exact hrest [] kept kept' h h'

end FirstOccurrences

/-- Dropping repeated paths keeps the first occurrence of each. -/
theorem firstOccurrences_distinct (ps : List Path) : FirstOccurrences ps (distinct ps) := by
  induction ps with
  | nil => exact .refl_of_apart .nil
  | cons p ps ih =>
    rw [distinct]
    constructor
    case apart =>
      refine List.pairwise_cons.mpr ⟨fun q hq => ?_, ih.apart.filter _⟩
      exact of_decide_eq_true (List.mem_filter.mp hq).2
    case covered =>
      intro q hq
      rcases List.mem_cons.mp hq with rfl | hq
      · exact ⟨q, List.mem_cons_self, .refl q⟩
      · obtain ⟨r, hr, hqr⟩ := ih.covered q hq
        by_cases hpr : p.Same r
        · exact ⟨p, List.mem_cons_self, hqr.trans hpr.symm⟩
        · exact ⟨r, List.mem_cons_of_mem _ (List.mem_filter.mpr ⟨hr, decide_eq_true hpr⟩), hqr⟩
    case inOrder =>
      intro before q after heq
      rcases before with _ | ⟨first, before⟩
      · obtain ⟨rfl, -⟩ := List.cons.inj heq
        exact ⟨[], ps, rfl, fun _ h => absurd h List.not_mem_nil⟩
      · obtain ⟨rfl, hrest⟩ := List.cons.inj heq
        -- In the list that was filtered, paths that are the same as the first one may stand
        -- between those that are kept.
        obtain ⟨l, m, hl, hbefore, hm⟩ := List.filter_eq_append_iff.mp hrest
        obtain ⟨gap, tail, hgap, hdropped, -, -⟩ := List.filter_eq_cons_iff.mp hm
        have hsplit : distinct ps = (l ++ gap) ++ q :: tail := by
          rw [hl, hgap, List.append_assoc]
        obtain ⟨xs, ys, rfl, hxs⟩ := ih.inOrder _ _ _ hsplit
        refine ⟨p :: xs, ys, rfl, fun s hs => ?_⟩
        rcases List.mem_cons.mp hs with rfl | hs
        · exact ⟨s, List.mem_cons_self, .refl s⟩
        obtain ⟨r, hr, hsr⟩ := hxs s hs
        by_cases hpr : p.Same r
        · exact ⟨p, List.mem_cons_self, hsr.trans hpr.symm⟩
        rcases List.mem_append.mp hr with hr | hr
        · refine ⟨r, List.mem_cons_of_mem _ ?_, hsr⟩
          rw [← hbefore]
          exact List.mem_filter.mpr ⟨hr, decide_eq_true hpr⟩
        · exact absurd (decide_eq_true hpr) (hdropped r hr)

/-- A list without repetitions keeps all its paths. -/
theorem distinct_of_apart {ps : List Path} (h : ps.Pairwise fun p q => ¬ p.Same q) :
    distinct ps = ps :=
  (firstOccurrences_distinct ps).unique (.refl_of_apart h)

end Path

namespace PathSet

variable {s : PathSet} {p q : Path} {ps : List Path}

/-! ## Putting in order -/

/-- The paths of a set are listed in increasing order. -/
theorem sorted_toList (s : PathSet) : s.toList.Pairwise (· < ·) :=
  List.pairwise_map.mpr s.sorted

/-- A set lists a new path under the spelling by which it was added, and the others as before. -/
theorem mem_toList_add_of_not_mem (hp : p ∉ s) : q ∈ (s.add p).toList ↔ q = p ∨ q ∈ s.toList := by
  rw [mem_toList, mem_toList]
  show (q, ()) ∈ (s.insert p ()).entries ↔ _
  rw [PathMap.mem_entries_insert hp]
  simp

/-- Adding paths to a set adds the first occurrences of those that are not in it. -/
theorem mem_toList_addAll_iff :
    q ∈ (s.addAll ps).toList ↔ q ∈ s.toList ∨ q ∈ Path.distinct ps ∧ q ∉ s := by
  unfold addAll
  induction ps generalizing s with
  | nil => simp [Path.distinct]
  | cons p ps ih =>
    rw [List.foldl_cons, ih, mem_add, Path.distinct, List.mem_cons, List.mem_filter]
    by_cases hp : p ∈ s
    · have hother : q ∉ s → ¬ p.Same q := fun hq hpq => hq ((PathMap.mem_congr hpq).mp hp)
      rw [add_of_mem hp]
      refine or_congr_right ⟨?_, ?_⟩
      · rintro ⟨hq, hnot⟩
        have hqs : q ∉ s := fun h => hnot (.inr h)
        exact ⟨.inr ⟨hq, decide_eq_true (hother hqs)⟩, hqs⟩
      · rintro ⟨rfl | ⟨hq, -⟩, hqs⟩
        · exact absurd hp hqs
        · exact ⟨hq, fun h => h.elim (fun h => hother hqs h.symm) hqs⟩
    · rw [mem_toList_add_of_not_mem hp]
      constructor
      · rintro ((rfl | hq) | ⟨hq, hnot⟩)
        · exact .inr ⟨.inl rfl, hp⟩
        · exact .inl hq
        · have hother : ¬ p.Same q := fun h => hnot (.inl h.symm)
          exact .inr ⟨.inr ⟨hq, decide_eq_true hother⟩, fun h => hnot (.inr h)⟩
      · rintro (hq | ⟨rfl | ⟨hq, hpq⟩, hqs⟩)
        · exact .inl (.inr hq)
        · exact .inl (.inl rfl)
        · have hother := of_decide_eq_true hpq
          exact .inr ⟨hq, fun h => h.elim (fun h => hother h.symm) hqs⟩

/-- A set lists the first occurrences of the paths that it was made of, in path order. -/
theorem toList_addAll_perm (ps : List Path) : (addAll ∅ ps).toList.Perm (Path.distinct ps) := by
  have hapart := (Path.firstOccurrences_distinct ps).apart
  have hnodup : (Path.distinct ps).Nodup := by
    refine hapart.imp ?_
    rintro p _ hnot rfl
    exact hnot (.refl p)
  refine (List.perm_ext_iff_of_nodup (PathMap.nodup_keys _) hnodup).mpr fun q => ?_
  show q ∈ (addAll ∅ ps).toList ↔ _
  rw [mem_toList_addAll_iff, and_iff_left (PathMap.not_mem_empty q), or_iff_right]
  exact fun hq => PathMap.not_mem_empty q (mem_of_mem_toList hq)

/-- Paths that are in order already are the list of their set. -/
theorem toList_addAll_of_sorted (h : ps.Pairwise (· < ·)) : (addAll ∅ ps).toList = ps := by
  have hapart : ps.Pairwise fun p q => ¬ p.Same q := h.imp fun hlt hsame => hsame.not_lt hlt
  have hperm := toList_addAll_perm ps
  rw [Path.distinct_of_apart hapart] at hperm
  refine hperm.eq_of_pairwise ?_ (sorted_toList _) h
  exact fun p q _ _ hpq hqp => absurd hqp (Path.lt_asymm hpq)

end PathSet

namespace Config

variable {c n : Config} {workingDir p : Path} {ps : List Path}

/-! ## Valid configurations -/

/-- Only an empty path has no absolute form. -/
theorem exists_absolutes_iff :
    (∃ qs, absolutes workingDir ps = .ok qs) ↔ ∀ p ∈ ps, p.chars ≠ [] := by
  have hform (p : Path) : (∃ q, p.absolute? workingDir = some q) ↔ p.chars ≠ [] := by
    unfold Path.absolute?
    split <;> simp_all
  constructor
  · rintro ⟨qs, hqs⟩ p hp
    exact (hform p).mp (exists_absolute?_of_absolutes hqs hp)
  · intro h
    exact exists_absolutes fun p hp => (hform p).mpr (h p hp)

/-- A configuration is refused for its unit, its number of workers or an empty path, and for
nothing else. -/
theorem exists_normalized_iff : (∃ n, c.normalized workingDir = .ok n) ↔
    Text.trim c.unit.toList ≠ [] ∧ c.maxParallel ≠ some 0 ∧
      ∀ p ∈ c.roots ++ c.sources, p.chars ≠ [] := by
  constructor
  · rintro ⟨n, h⟩
    obtain ⟨hunit, hworkers, roots, sources, hroots, hsources, -⟩ := normalized_eq_ok_iff.mp h
    refine ⟨hunit, hworkers, fun p hp => ?_⟩
    rcases List.mem_append.mp hp with hp | hp
    · exact exists_absolutes_iff.mp ⟨roots, hroots⟩ p hp
    · exact exists_absolutes_iff.mp ⟨sources, hsources⟩ p hp
  · rintro ⟨hunit, hworkers, hne⟩
    obtain ⟨roots, hroots⟩ := exists_absolutes_iff.mpr fun p hp => hne p (List.mem_append_left _ hp)
    obtain ⟨sources, hsources⟩ :=
      exists_absolutes_iff.mpr fun p hp => hne p (List.mem_append_right _ hp)
    exact ⟨_, normalized_eq_ok_iff.mpr ⟨hunit, hworkers, roots, sources, hroots, hsources, rfl⟩⟩

/-! ## Canonical configurations -/

/-- A valid configuration whose paths are as normalising makes them. -/
structure Canonical (c : Config) : Prop where
  unit : Text.trim c.unit.toList ≠ []
  workers : c.maxParallel ≠ some 0
  settled : ∀ p ∈ c.roots ++ c.sources, p.Settled
  apart : c.roots.Pairwise fun p q => ¬ p.Same q
  sorted : c.sources.Pairwise (· < ·)

/-- Paths that are their own absolute forms stay as they are. -/
theorem absolutes_of_settled (dir : Path) (h : ∀ p ∈ ps, p.Settled) :
    absolutes dir ps = .ok ps :=
  absolutes_eq_ok_iff.mpr (List.map_congr_left fun p hp => (h p hp).absolute? dir)

/-- Normalising leaves a canonical configuration as it is. -/
theorem Canonical.normalized (h : c.Canonical) (dir : Path) : c.normalized dir = .ok c := by
  have hroots : absolutes dir c.roots = .ok c.roots :=
    absolutes_of_settled dir fun p hp => h.settled p (List.mem_append_left _ hp)
  have hsources : absolutes dir c.sources = .ok c.sources :=
    absolutes_of_settled dir fun p hp => h.settled p (List.mem_append_right _ hp)
  refine normalized_eq_ok_iff.mpr ⟨h.unit, h.workers, c.roots, c.sources, hroots, hsources, ?_⟩
  rw [Path.distinct_of_apart h.apart, PathSet.toList_addAll_of_sorted h.sorted]

/-- The paths of a normalised configuration are absolute forms of those declared. -/
theorem exists_absolute?_of_mem (h : c.normalized workingDir = .ok n)
    (hp : p ∈ n.roots ++ n.sources) : ∃ q : Path, q.absolute? workingDir = some p := by
  rcases List.mem_append.mp hp with hp | hp
  · obtain ⟨roots, sources, hroots, -, rfl⟩ := normalized_eq_ok h
    obtain ⟨q, -, hq⟩ := (mem_absolutes_iff hroots).mp (Path.mem_of_mem_distinct hp)
    exact ⟨q, hq⟩
  · obtain ⟨q, -, hq⟩ := exists_source_of_normalized h hp
    exact ⟨q, hq⟩

/-- Normalising makes a configuration canonical. -/
theorem canonical_of_normalized (hdir : workingDir.Settled)
    (h : c.normalized workingDir = .ok n) : n.Canonical where
  unit := by
    rw [unit_of_normalized h]
    exact (normalized_eq_ok_iff.mp h).1
  workers := by
    rw [eq_of_normalized h]
    exact (normalized_eq_ok_iff.mp h).2.1
  settled p hp := by
    obtain ⟨q, hq⟩ := exists_absolute?_of_mem h hp
    exact Path.settled_of_absolute? hdir hq
  apart := by
    obtain ⟨roots, sources, -, -, rfl⟩ := normalized_eq_ok h
    exact (Path.firstOccurrences_distinct roots).apart
  sorted := by
    obtain ⟨roots, sources, -, -, rfl⟩ := normalized_eq_ok h
    exact PathSet.sorted_toList _

/-- What normalising makes of a configuration in a working directory. -/
structure Projects (workingDir : Path) (c n : Config) : Prop where
  canonical : n.Canonical
  /-- Normalising once more changes nothing, in whichever working directory. -/
  stable : ∀ dir, n.normalized dir = .ok n
  absolute : ∀ p ∈ n.roots ++ n.sources, p.isAbsolute = true
  /-- As a set of paths, the sources are the absolute forms of those declared. -/
  image : ∀ p : Path, (∃ q ∈ n.sources, p.Same q) ↔
    ∃ s ∈ c.sources, ∃ q, s.absolute? workingDir = some q ∧ p.Same q
  /-- They are spelled as the first of these that is the same path. -/
  sources : ∃ forms kept, c.sources.map (·.absolute? workingDir) = forms.map some ∧
    Path.FirstOccurrences forms kept ∧ n.sources.Perm kept
  /-- The search roots are the first occurrences among the absolute forms of those declared. -/
  roots : ∃ forms, c.roots.map (·.absolute? workingDir) = forms.map some ∧
    Path.FirstOccurrences forms n.roots
  others : n = { c with roots := n.roots, sources := n.sources }

/-- Normalising is a projection onto canonical configurations. A working directory is named by
an absolute path without `.` steps and repeated slashes, which is all that is asked of it. -/
theorem projects_of_normalized (hdir : workingDir.Settled)
    (h : c.normalized workingDir = .ok n) : Projects workingDir c n := by
  have hcanonical := canonical_of_normalized hdir h
  constructor
  case canonical => exact hcanonical
  case stable => exact hcanonical.normalized
  case absolute => exact fun p hp => (hcanonical.settled p hp).isAbsolute
  case image => exact fun p => mem_sources_of_normalized h
  case sources =>
    obtain ⟨roots, sources, -, hsources, rfl⟩ := normalized_eq_ok h
    exact ⟨sources, _, absolutes_eq_ok_iff.mp hsources, Path.firstOccurrences_distinct sources,
      PathSet.toList_addAll_perm sources⟩
  case roots =>
    obtain ⟨roots, sources, hroots, -, rfl⟩ := normalized_eq_ok h
    exact ⟨roots, absolutes_eq_ok_iff.mp hroots, Path.firstOccurrences_distinct roots⟩
  case others => exact eq_of_normalized h

/-- Relative paths, `.` and `..` steps, repeated and trailing slashes: of the spellings of one
path the first stays. -/
theorem projects_of_normalized_spellings :
    let workingDir := Path.ofString "/w"
    let c := { ofUnit "unit" with
      roots := ["inc", "./inc/", "//sys/./a", "/w//inc", "/sys/a"].map Path.ofString
      sources := ["z.c", "/w/./a.c", "a.c/", "../b.c", "///c.c/"].map Path.ofString }
    let n := { ofUnit "unit" with
      roots := ["/w/inc", "//sys/a"].map Path.ofString
      sources := ["/c.c/", "/w/../b.c", "/w/a.c", "/w/z.c"].map Path.ofString }
    workingDir.Settled ∧ c.normalized workingDir = .ok n ∧ Projects workingDir c n := by
  intro workingDir c n
  have hdir : workingDir.Settled := Path.settled_of_clean (by decide) (by decide +kernel)
  have h : c.normalized workingDir = .ok n := by decide +kernel
  exact ⟨hdir, h, projects_of_normalized hdir h⟩

end Config

end Recompile
