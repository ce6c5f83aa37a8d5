import Recompile.Graph.Basic
import Recompile.Proofs.Path.Membership

/-!
# What an exploration finds

An exploration keeps two things apart: the paths it has seen, with what a visit to each
showed, and the wave it visits next. `Frontier` is what holds between two waves: the wave
is new, every value is that of a visit, and all that a seen path names is seen or in the
wave. When the wave is empty, the last of these says that nothing is missing.

That the wave does get empty is a matter of counting. `Progress.after` goes on without a
limit on the waves. Whatever is named lies in a finite list of paths, and each wave but the
first takes one of them that was not seen, so a wave is empty when the list is used up
(`Progress.exists_isEmpty`). From then on nothing changes (`Progress.after_of_isEmpty`), so
as many waves as the list is long are enough (`explore_closed`).
-/

set_option autoImplicit false

namespace Recompile

variable {α : Type} {visit : Path → α} {next : α → List Path}

/-! ## One wave -/

/-- Visiting a wave adds its paths to those that were seen. -/
theorem mem_visitWave {seen : PathMap α} {wave : PathSet} {p : Path} :
    p ∈ visitWave visit seen wave ↔ p ∈ seen ∨ p ∈ wave := by
  unfold visitWave
  rw [PathMap.mem_insertAll, PathSet.mem_iff_toList]
  simp

/-- A visit to new paths adds one entry for each of them. -/
theorem mem_entries_visitWave {seen : PathMap α} {wave : PathSet}
    (fresh : ∀ p ∈ wave.toList, p ∉ seen) {e : Path × α} :
    e ∈ (visitWave visit seen wave).entries ↔
      e ∈ seen.entries ∨ e.1 ∈ wave.toList ∧ e.2 = visit e.1 := by
  unfold visitWave
  rw [PathMap.mem_entries_insertAll]
  · refine or_congr_right ?_
    rw [List.mem_map]
    constructor
    · rintro ⟨p, hp, rfl⟩
      exact ⟨hp, rfl⟩
    · rintro ⟨hp, he⟩
      exact ⟨e.1, hp, by rw [← he]⟩
  · rw [List.pairwise_map]
    exact (List.pairwise_map.mp wave.sorted_keys).imp fun hab hs => hs.symm.not_lt hab
  · intro e he
    obtain ⟨p, hp, rfl⟩ := List.mem_map.mp he
    exact fresh p hp

/-- The next wave has what the visited paths lead to and has not been seen. -/
theorem mem_nextWave {seen : PathMap α} {wave : PathSet} {q : Path} :
    q ∈ nextWave visit next seen wave ↔
      (∃ p ∈ wave.toList, ∃ r ∈ next (visit p), q.Same r) ∧ q ∉ seen := by
  unfold nextWave
  rw [PathSet.mem_filter_not_mem, PathSet.mem_addAll, or_iff_right (PathMap.not_mem_empty q)]
  refine and_congr_left fun _ => ?_
  simp only [List.mem_flatMap, ← exists_and_right, and_assoc]
  exact ⟨fun ⟨r, p, hp, hr, h⟩ => ⟨p, hp, r, hr, h⟩, fun ⟨p, hp, r, hr, h⟩ => ⟨r, p, hp, hr, h⟩⟩

/-- The paths of the next wave are spelled as they were named. -/
theorem mem_toList_nextWave {seen : PathMap α} {wave : PathSet} {q : Path}
    (h : q ∈ (nextWave visit next seen wave).toList) :
    (∃ p ∈ wave.toList, q ∈ next (visit p)) ∧ q ∉ seen := by
  refine ⟨?_, (mem_nextWave.mp (PathSet.mem_of_mem_toList h)).2⟩
  rcases PathSet.mem_toList_addAll (PathSet.mem_toList_filter h) with hempty | ⟨hnamed, -⟩
  · exact absurd (PathSet.mem_of_mem_toList hempty) (PathMap.not_mem_empty q)
  · exact List.mem_flatMap.mp hnamed

/-! ## Between two waves -/

/-- What holds between two waves. -/
structure Frontier (visit : Path → α) (next : α → List Path) (seen : PathMap α)
    (wave : PathSet) : Prop where
  /-- The wave has not been visited. -/
  fresh : ∀ p ∈ wave.toList, p ∉ seen
  /-- Each value is what a visit showed. -/
  visited : ∀ e ∈ seen.entries, e.2 = visit e.1
  /-- Nothing that is named is lost. -/
  covered : ∀ e ∈ seen.entries, ∀ q ∈ next e.2, q ∈ seen ∨ q ∈ wave

namespace Frontier

variable {seen : PathMap α} {wave : PathSet}

/-- Before the first wave nothing has been seen. -/
theorem start (wave : PathSet) : Frontier visit next ∅ wave where
  fresh p _ := PathMap.not_mem_empty p
  visited _ he := absurd he List.not_mem_nil
  covered _ he := absurd he List.not_mem_nil

/-- Visiting the wave leads to the next one. -/
theorem advance (h : Frontier visit next seen wave) :
    Frontier visit next (visitWave visit seen wave)
      (nextWave visit next (visitWave visit seen wave) wave) where
  fresh p hp := (mem_toList_nextWave hp).2
  visited e he := by
    rcases (mem_entries_visitWave h.fresh).mp he with he | ⟨-, he⟩
    · exact h.visited e he
    · exact he
  covered e he q hq := by
    rcases (mem_entries_visitWave h.fresh).mp he with he | ⟨hwave, hvalue⟩
    · exact .inl (mem_visitWave.mpr (h.covered e he q hq))
    · by_cases hseen : q ∈ visitWave visit seen wave
      · exact .inl hseen
      · exact .inr (mem_nextWave.mpr ⟨⟨e.1, hwave, q, hvalue ▸ hq, .refl q⟩, hseen⟩)

end Frontier

/-! ## A whole exploration -/

/-- All that is named by the values of a map has an entry. -/
def ClosedUnder (next : α → List Path) (m : PathMap α) : Prop :=
  ∀ e ∈ m.entries, ∀ q ∈ next e.2, q ∈ m

/-- Nothing that was seen or is in the wave gets lost. -/
theorem mem_explore {waves : Nat} {seen : PathMap α} {wave : PathSet} {p : Path}
    (h : p ∈ seen ∨ p ∈ wave) : p ∈ explore visit next waves seen wave := by
  induction waves generalizing seen wave with
  | zero => exact mem_visitWave.mpr h
  | succ waves ih =>
    unfold explore
    split
    · rename_i hempty
      rcases h with h | h
      · exact h
      · exact absurd h (PathMap.isEmpty_iff.mp hempty p)
    · exact ih (.inl (mem_visitWave.mpr h))

/-- What was seen stays as it is. -/
theorem mem_entries_explore {waves : Nat} {seen : PathMap α} {wave : PathSet}
    (h : Frontier visit next seen wave) {e : Path × α} (he : e ∈ seen.entries) :
    e ∈ (explore visit next waves seen wave).entries := by
  induction waves generalizing seen wave with
  | zero => exact (mem_entries_visitWave h.fresh).mpr (.inl he)
  | succ waves ih =>
    unfold explore
    split
    · exact he
    · exact ih h.advance ((mem_entries_visitWave h.fresh).mpr (.inl he))

/-- The paths of the wave keep their spelling. -/
theorem wave_mem_keys_explore {waves : Nat} {seen : PathMap α} {wave : PathSet} {p : Path}
    (h : Frontier visit next seen wave) (hp : p ∈ wave.toList) :
    p ∈ (explore visit next waves seen wave).keys := by
  have hvisit : (p, visit p) ∈ (visitWave visit seen wave).entries :=
    (mem_entries_visitWave h.fresh).mpr (.inr ⟨hp, rfl⟩)
  refine PathMap.mem_keys.mpr ⟨visit p, ?_⟩
  cases waves with
  | zero => exact hvisit
  | succ waves =>
    unfold explore
    split
    · rename_i hempty
      exact absurd (PathSet.mem_of_mem_toList hp) (PathMap.isEmpty_iff.mp hempty p)
    · exact mem_entries_explore h.advance hvisit

/-- Each value of an exploration is what a visit showed. -/
theorem explore_visited {waves : Nat} {seen : PathMap α} {wave : PathSet}
    (h : Frontier visit next seen wave) {e : Path × α}
    (he : e ∈ (explore visit next waves seen wave).entries) : e.2 = visit e.1 := by
  induction waves generalizing seen wave with
  | zero => exact h.advance.visited e he
  | succ waves ih =>
    unfold explore at he
    split at he
    · exact h.visited e he
    · exact ih h.advance he

/-- A property of entries that the visited paths have is one of all entries after the wave. -/
theorem visitWave_induct {P : Path → Prop} {seen : PathMap α} {wave : PathSet}
    (fresh : ∀ p ∈ wave.toList, p ∉ seen) (hseen : ∀ e ∈ seen.entries, P e.1)
    (hwave : ∀ p ∈ wave.toList, P p) {e : Path × α}
    (he : e ∈ (visitWave visit seen wave).entries) : P e.1 := by
  rcases (mem_entries_visitWave fresh).mp he with he | ⟨he, -⟩
  · exact hseen e he
  · exact hwave e.1 he

/-- A property of spellings that the wave has and naming preserves holds of all that an
exploration finds. Only what is found has to preserve it. -/
theorem explore_induct_of_keys {P : Path → Prop} {waves : Nat} {seen : PathMap α} {wave : PathSet}
    (hfront : Frontier visit next seen wave)
    (hseen : ∀ e ∈ seen.entries, P e.1) (hwave : ∀ p ∈ wave.toList, P p)
    (hnext : ∀ p ∈ (explore visit next waves seen wave).keys, P p → ∀ q ∈ next (visit p), P q)
    {e : Path × α} (he : e ∈ (explore visit next waves seen wave).entries) : P e.1 := by
  induction waves generalizing seen wave with
  | zero => exact visitWave_induct hfront.fresh hseen hwave he
  | succ waves ih =>
    have hkeys : ∀ p ∈ wave.toList, p ∈ (explore visit next (waves + 1) seen wave).keys :=
      fun p hp => wave_mem_keys_explore hfront hp
    unfold explore at he hnext hkeys
    by_cases hempty : wave.isEmpty = true
    · rw [if_pos hempty] at he
      exact hseen e he
    · rw [if_neg hempty] at he hnext hkeys
      refine ih hfront.advance (fun f hf => visitWave_induct hfront.fresh hseen hwave hf) ?_
        hnext he
      intro q hq
      obtain ⟨⟨p, hp, hq⟩, -⟩ := mem_toList_nextWave hq
      exact hnext p (hkeys p hp) (hwave p hp) q hq

/-- A property of spellings that the wave has and naming preserves holds of all that an
exploration finds. -/
theorem explore_induct {P : Path → Prop} {waves : Nat} {seen : PathMap α} {wave : PathSet}
    (hfront : Frontier visit next seen wave)
    (hseen : ∀ e ∈ seen.entries, P e.1) (hwave : ∀ p ∈ wave.toList, P p)
    (hnext : ∀ p, P p → ∀ q ∈ next (visit p), P q) {e : Path × α}
    (he : e ∈ (explore visit next waves seen wave).entries) : P e.1 :=
  explore_induct_of_keys hfront hseen hwave (fun p _ => hnext p) he

/-! ## Enough waves -/

/-- Where an exploration is between two waves. -/
structure Progress (α : Type) where
  seen : PathMap α
  wave : PathSet

namespace Progress

/-- One wave more. -/
def advance (visit : Path → α) (next : α → List Path) (x : Progress α) : Progress α :=
  let seen := visitWave visit x.seen x.wave
  ⟨seen, nextWave visit next seen x.wave⟩

/-- An exploration after a number of waves, whether or not there was anything left to
visit. -/
def after (visit : Path → α) (next : α → List Path) (wave : PathSet) (waves : Nat) :
    Progress α :=
  (advance visit next)^[waves] ⟨∅, wave⟩

variable {wave : PathSet} {n : Nat} {p : Path}

/-- One wave more is one step more at the end. -/
theorem after_succ (wave : PathSet) (n : Nat) :
    after visit next wave (n + 1) = (after visit next wave n).advance visit next :=
  Function.iterate_succ_apply' _ _ _

/-- Where nothing is left to visit an exploration has come to rest. -/
theorem advance_of_isEmpty {x : Progress α} (h : x.wave.isEmpty = true) :
    x.advance visit next = x := by
  have hlist : x.wave.toList = [] := PathSet.isEmpty_iff_toList.mp h
  have hnone : x.wave = ∅ := PathMap.eq_empty_of_forall_not_mem (PathMap.isEmpty_iff.mp h)
  obtain ⟨seen, wave⟩ := x
  simp only [advance, visitWave, nextWave, hlist, List.map_nil, List.flatMap_nil]
  rw [show wave = ∅ from hnone]
  rfl

/-- Once a wave is empty, further waves change nothing. -/
theorem after_of_isEmpty {m : Nat} (h : (after visit next wave n).wave.isEmpty = true)
    (hle : n ≤ m) : after visit next wave m = after visit next wave n := by
  induction m, hle using Nat.le_induction with
  | base => rfl
  | succ m _ ih => rw [after_succ, ih, advance_of_isEmpty h]

/-- Between two waves of an exploration that began with nothing seen. -/
theorem frontier (wave : PathSet) (n : Nat) :
    Frontier visit next (after visit next wave n).seen (after visit next wave n).wave := by
  induction n with
  | zero => exact .start wave
  | succ n ih =>
    rw [after_succ]
    exact ih.advance

/-- What has been seen was in one of the waves before, spelled as it is now. -/
theorem mem_entries_seen_iff {e : Path × α} : e ∈ (after visit next wave n).seen.entries ↔
    ∃ m < n, e.1 ∈ (after visit next wave m).wave.toList ∧ e.2 = visit e.1 := by
  induction n with
  | zero =>
    refine iff_of_false List.not_mem_nil ?_
    rintro ⟨m, hm, -⟩
    exact absurd hm (Nat.not_lt_zero m)
  | succ n ih =>
    have hstep : e ∈ (after visit next wave (n + 1)).seen.entries ↔
        e ∈ (after visit next wave n).seen.entries ∨
          e.1 ∈ (after visit next wave n).wave.toList ∧ e.2 = visit e.1 := by
      rw [after_succ]
      exact mem_entries_visitWave (frontier wave n).fresh
    rw [hstep, ih]
    constructor
    · rintro (⟨m, hm, he⟩ | he)
      · exact ⟨m, Nat.lt_succ_of_lt hm, he⟩
      · exact ⟨n, Nat.lt_succ_self n, he⟩
    · rintro ⟨m, hm, he⟩
      rcases Nat.lt_succ_iff_lt_or_eq.mp hm with hlt | rfl
      · exact .inl ⟨m, hlt, he⟩
      · exact .inr he

/-- What was seen after some waves is what was in one of them. -/
theorem mem_seen_iff : p ∈ (after visit next wave n).seen ↔
    ∃ m < n, p ∈ (after visit next wave m).wave := by
  constructor
  · rintro ⟨e, he, hpe⟩
    obtain ⟨m, hm, hwave, -⟩ := mem_entries_seen_iff.mp he
    exact ⟨m, hm, PathSet.mem_iff_toList.mpr ⟨e.1, hwave, hpe⟩⟩
  · rintro ⟨m, hm, hp⟩
    obtain ⟨q, hq, hpq⟩ := PathSet.mem_iff_toList.mp hp
    exact ⟨(q, visit q), mem_entries_seen_iff.mpr ⟨m, hm, hq, rfl⟩, hpq⟩

/-- What is in a wave has not been seen before, whatever its spelling. -/
theorem not_mem_seen (h : p ∈ (after visit next wave n).wave) :
    p ∉ (after visit next wave n).seen := by
  obtain ⟨q, hq, hpq⟩ := PathSet.mem_iff_toList.mp h
  exact fun hseen => (frontier wave n).fresh q hq ((PathMap.mem_congr hpq).mp hseen)

/-- No path is in two waves. -/
theorem wave_unique {m : Nat} (hm : p ∈ (after visit next wave m).wave)
    (hn : p ∈ (after visit next wave n).wave) : m = n := by
  rcases Nat.lt_trichotomy m n with hlt | heq | hlt
  · exact absurd (mem_seen_iff.mpr ⟨m, hlt, hm⟩) (not_mem_seen hn)
  · exact heq
  · exact absurd (mem_seen_iff.mpr ⟨n, hlt, hn⟩) (not_mem_seen hm)

/-- Visiting waves with nothing left to visit makes no difference. -/
theorem explore_eq (x : Progress α) (waves : Nat) :
    explore visit next waves x.seen x.wave = ((advance visit next)^[waves + 1] x).seen := by
  induction waves generalizing x with
  | zero => rfl
  | succ waves ih =>
    unfold explore
    split
    · rename_i hempty
      rw [Function.iterate_fixed (advance_of_isEmpty hempty)]
    · rw [Function.iterate_succ_apply]
      exact ih (x.advance visit next)

/-- Exploring with a limit is what was seen after that many waves and one more. -/
theorem explore_eq_after (wave : PathSet) (waves : Nat) :
    explore visit next waves ∅ wave = (after visit next wave (waves + 1)).seen :=
  explore_eq ⟨∅, wave⟩ waves

end Progress

/-- How many paths of a list have not been seen. -/
def unseen (paths : List Path) (seen : PathMap α) : Nat :=
  (paths.filter fun p => p ∉ seen).length

variable (visit) in
/-- A wave that has a path of the list leaves fewer of them unseen. -/
theorem unseen_visitWave_lt {paths : List Path} {seen : PathMap α} {wave : PathSet} {p u : Path}
    (hp : p ∈ wave) (hnew : p ∉ seen) (hu : u ∈ paths) (hpu : p.Same u) :
    unseen paths (visitWave visit seen wave) < unseen paths seen := by
  have hsub : (paths.filter fun q => q ∉ visitWave visit seen wave) =
      (paths.filter fun q => q ∉ seen).filter fun q => q ∉ visitWave visit seen wave := by
    rw [List.filter_filter]
    refine List.filter_congr fun q _ => ?_
    simp only [mem_visitWave, not_or, Bool.decide_and]
    rw [Bool.and_right_comm, Bool.and_self]
  unfold unseen
  rw [hsub, List.length_filter_lt_length_iff_exists]
  refine ⟨u, List.mem_filter.mpr ⟨hu, ?_⟩, ?_⟩
  · exact decide_eq_true fun h => hnew ((PathMap.mem_congr hpu).mpr h)
  · simpa using mem_visitWave.mpr (.inr ((PathMap.mem_congr hpu).mp hp))

namespace Progress

/-- While waves after the first take their paths from a list, the paths of the list that
have not been seen run out. -/
theorem unseen_after_le {paths : List Path} {wave : PathSet} {n : Nat}
    (hpaths : ∀ m, ∀ q ∈ (after visit next wave (m + 1)).wave.toList, ∃ u ∈ paths, q.Same u)
    (hne : ∀ m < n, ¬(after visit next wave (m + 1)).wave.isEmpty = true) :
    unseen paths (after visit next wave (n + 1)).seen + n ≤ paths.length := by
  induction n with
  | zero => exact List.length_filter_le _ _
  | succ n ih =>
    have hbefore := ih fun m hm => hne m (Nat.lt_succ_of_lt hm)
    obtain ⟨q, hq⟩ := PathSet.exists_mem_toList (hne n (Nat.lt_succ_self n))
    obtain ⟨u, hu, hqu⟩ := hpaths n q hq
    have hless := unseen_visitWave_lt visit (PathSet.mem_of_mem_toList hq)
      ((frontier wave (n + 1)).fresh q hq) hu hqu
    rw [after_succ]
    change unseen paths (visitWave visit _ _) + (n + 1) ≤ paths.length
    omega

/-- If all waves after the first take their paths from a list, one of them is empty, at
the latest when the list is used up. -/
theorem exists_isEmpty {paths : List Path} {wave : PathSet}
    (hpaths : ∀ m, ∀ q ∈ (after visit next wave (m + 1)).wave.toList, ∃ u ∈ paths, q.Same u) :
    ∃ n ≤ paths.length + 1, (after visit next wave n).wave.isEmpty = true := by
  by_contra hnone
  have hne : ∀ m < paths.length + 1, ¬(after visit next wave (m + 1)).wave.isEmpty = true :=
    fun m hm hempty => hnone ⟨m + 1, hm, hempty⟩
  have hcount := unseen_after_le hpaths hne
  omega

/-- What has been seen when nothing is left to visit is closed. -/
theorem closed_of_isEmpty {wave : PathSet} {n : Nat}
    (h : (after visit next wave n).wave.isEmpty = true) :
    ClosedUnder next (after visit next wave n).seen := by
  intro e he q hq
  rcases (frontier wave n).covered e he q hq with hseen | hwave
  · exact hseen
  · exact absurd hwave (PathMap.isEmpty_iff.mp h q)

/-- If all that is named lies in a list, so do all waves after the first. -/
theorem exists_same_of_mem_wave {paths : List Path}
    (hpaths : ∀ p, ∀ q ∈ next (visit p), ∃ u ∈ paths, q.Same u) (wave : PathSet) (n : Nat)
    {q : Path} (hq : q ∈ (after visit next wave (n + 1)).wave.toList) :
    ∃ u ∈ paths, q.Same u := by
  rw [after_succ] at hq
  obtain ⟨⟨p, -, hnamed⟩, -⟩ := mem_toList_nextWave hq
  exact hpaths p q hnamed

/-- If all that is named lies in a list, an exploration with as many waves as the list is
long has come to rest. -/
theorem explore_eq_seen {paths : List Path}
    (hpaths : ∀ p, ∀ q ∈ next (visit p), ∃ u ∈ paths, q.Same u) {n waves : Nat}
    (henough : paths.length ≤ waves) {wave : PathSet}
    (h : (after visit next wave n).wave.isEmpty = true) :
    explore visit next waves ∅ wave = (after visit next wave n).seen := by
  obtain ⟨k, hk, hempty⟩ := exists_isEmpty (exists_same_of_mem_wave hpaths wave)
  have hend : after visit next wave k = after visit next wave n := by
    rcases Nat.le_total k n with hle | hle
    · exact (after_of_isEmpty hempty hle).symm
    · exact after_of_isEmpty h hle
  rw [explore_eq_after, after_of_isEmpty hempty (by omega), hend]

end Progress

/-- If all that is named lies in a list, as many waves as the list is long are enough,
whatever the first wave is. -/
theorem explore_closed {paths : List Path}
    (hpaths : ∀ p, ∀ q ∈ next (visit p), ∃ u ∈ paths, q.Same u) {waves : Nat}
    (henough : paths.length ≤ waves) (wave : PathSet) :
    ClosedUnder next (explore visit next waves ∅ wave) := by
  obtain ⟨n, -, hempty⟩ :=
    Progress.exists_isEmpty (Progress.exists_same_of_mem_wave hpaths wave)
  rw [Progress.explore_eq_seen hpaths henough hempty]
  exact Progress.closed_of_isEmpty hempty

end Recompile
