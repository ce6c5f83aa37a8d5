import Recompile.Proofs.Graph.Reachable

/-!
# Searching with a stack

What a root reaches can be found with a stack: the root is put on it, and in each round a file
is taken from the stack and the files that it includes are put on it, unless they were found
before or are the root (`Graph.Search.follow`). The graph need not be closed, and files may
include each other or themselves.

It makes no difference which file a round takes. Between two rounds
(`Graph.Search.Consistent`) a file that was found is still on the stack, or else all that it
includes was found; so the files that were found when the stack is empty are those that
`Graph.reachable` lists. Each file is put on the stack once, so there is one round for each of
them and one for the root (`Graph.isReached_reachable`).
-/

set_option autoImplicit false

namespace Recompile

/-- A set within another one is no larger. -/
theorem PathSet.size_le_of_subset {s t : PathSet} (h : ∀ p ∈ s, p ∈ t) :
    PathMap.size s ≤ PathMap.size t := by
  have hlength (u : PathSet) : PathMap.size u = (u.toList.map Path.key).length := by
    rw [List.length_map, toList, PathMap.keys, List.length_map]
    rfl
  have hnodup : (s.toList.map Path.key).Nodup := by
    refine (sorted_keys s).imp ?_
    rintro k _ hlt rfl
    exact List.lt_irrefl k hlt
  have hsub : s.toList.map Path.key ⊆ t.toList.map Path.key := by
    intro k hk
    obtain ⟨p, hp, rfl⟩ := List.mem_map.mp hk
    obtain ⟨q, hq, hpq⟩ := mem_iff_toList.mp (h p (mem_of_mem_toList hp))
    exact List.mem_map.mpr ⟨q, hq, Path.key_eq_iff.mpr hpq.symm⟩
  rw [hlength, hlength]
  exact (List.subperm_of_subset hnodup hsub).length_le

namespace Graph

/-- Where a search for the files that a root reaches is. -/
structure Search where
  found : PathSet
  /-- The files that are still to be followed. -/
  stack : List Path

namespace Search

/-- The root is to be followed, and nothing is found. -/
def start (root : Path) : Search :=
  ⟨∅, [root]⟩

/-- Finds a file, which is to be followed then, unless it is the root or was found before. -/
def push (root : Path) (w : Search) (p : Path) : Search :=
  if p.Same root ∨ p ∈ w.found then w else ⟨w.found.add p, p :: w.stack⟩

/-- Finds what a file includes, if it could be read. -/
def follow (g : Graph) (root : Path) (w : Search) (p : Path) : Search :=
  (((g.node? p).map Node.resolved).getD []).foldl (push root) w

/-- One round of a search that goes deep first: the file on top of the stack is followed. -/
def pop (g : Graph) (root : Path) (w : Search) : Search :=
  match w.stack with
  | [] => w
  | p :: stack => follow g root ⟨w.found, stack⟩ p

/-- What some number of rounds can lead to, each taking a file from anywhere in the stack. -/
inductive After (g : Graph) (root : Path) : Nat → Search → Prop where
  | start : After g root 0 (.start root)
  | follow {n : Nat} {found : PathSet} {before after : List Path} {p : Path}
      (earlier : After g root n ⟨found, before ++ p :: after⟩) :
      After g root (n + 1) (follow g root ⟨found, before ++ after⟩ p)

variable {g : Graph} {root p q : Path} {w w' : Search} {n : Nat}

/-! ## One round -/

/-- Pushing a file finds it, unless it is the root. -/
theorem mem_found_push :
    q ∈ (push root w p).found ↔ q ∈ w.found ∨ q.Same p ∧ ¬ q.Same root := by
  unfold push
  split
  · rename_i hold
    refine ⟨.inl, ?_⟩
    rintro (hq | ⟨hqp, hnot⟩)
    · exact hq
    · rcases hold with hroot | hfound
      · exact absurd (hqp.trans hroot) hnot
      · exact (PathMap.mem_congr hqp).mpr hfound
  · rename_i hnew
    rw [PathSet.mem_add, or_comm]
    refine or_congr_right ⟨fun hqp => ⟨hqp, fun hroot => ?_⟩, And.left⟩
    exact hnew (.inl (hqp.symm.trans hroot))

/-- Pushing files finds each of them, unless it is the root. -/
theorem mem_found_foldl_push {ps : List Path} :
    q ∈ (ps.foldl (push root) w).found ↔ q ∈ w.found ∨ (∃ p ∈ ps, q.Same p) ∧ ¬ q.Same root := by
  induction ps generalizing w with
  | nil => simp
  | cons p ps ih =>
    rw [List.foldl_cons, ih, mem_found_push, List.exists_mem_cons_iff, or_assoc, or_and_right]

/-- A round finds what the file includes, besides the root. -/
theorem mem_found_follow :
    q ∈ (follow g root w p).found ↔ q ∈ w.found ∨ g.Edge p q ∧ ¬ q.Same root := by
  rw [edge_iff_resolved]
  exact mem_found_foldl_push

/-- What finding files does: those that are new stand on top of the stack, each once. -/
structure Pushed (w w' : Search) (new : List Path) : Prop where
  stack : w'.stack = new ++ w.stack
  found : ∀ q, q ∈ w'.found ↔ q ∈ w.found ∨ ∃ r ∈ new, q.Same r
  size : PathMap.size w'.found = PathMap.size w.found + new.length

/-- Finding nothing pushes nothing. -/
theorem Pushed.refl (w : Search) : Pushed w w [] where
  stack := rfl
  found q := by simp
  size := rfl

/-- What two searches in a row push stands on the stack in the opposite order. -/
theorem Pushed.trans {w'' : Search} {new new' : List Path} (h : Pushed w w' new)
    (h' : Pushed w' w'' new') : Pushed w w'' (new' ++ new) where
  stack := by rw [h'.stack, h.stack, List.append_assoc]
  found q := by
    rw [h'.found, h.found, or_assoc]
    refine or_congr_right ?_
    simp only [List.mem_append, or_and_right, exists_or]
    exact or_comm
  size := by
    rw [h'.size, h.size, List.length_append]
    omega

/-- Pushing one file pushes it if it is new, and nothing otherwise. -/
theorem exists_pushed_push (root : Path) (w : Search) (p : Path) :
    ∃ new, Pushed w (push root w p) new := by
  unfold push
  split
  · exact ⟨[], .refl w⟩
  · rename_i hnew
    refine ⟨[p], rfl, fun q => ?_, PathMap.size_insert fun hp => hnew (.inr hp)⟩
    rw [PathSet.mem_add, or_comm]
    simp

/-- Following a file pushes those it includes that are new. -/
theorem exists_pushed_follow (g : Graph) (root : Path) (w : Search) (p : Path) :
    ∃ new, Pushed w (follow g root w p) new := by
  unfold follow
  generalize ((g.node? p).map Node.resolved).getD [] = ps
  induction ps generalizing w with
  | nil => exact ⟨[], .refl w⟩
  | cons p ps ih =>
    obtain ⟨new, hnew⟩ := exists_pushed_push root w p
    obtain ⟨more, hmore⟩ := ih (push root w p)
    exact ⟨more ++ new, hnew.trans hmore⟩

/-! ## Between two rounds -/

/-- What holds of a search after a number of rounds. -/
structure Consistent (g : Graph) (root : Path) (n : Nat) (w : Search) : Prop where
  /-- Each file that was found, and the root, is on the stack or had its round. -/
  count : n + w.stack.length = PathMap.size w.found + 1
  stacked : ∀ p ∈ w.stack, p.Same root ∨ p ∈ w.found
  chained : ∀ p ∈ w.found, ¬ p.Same root ∧ Relation.TransGen g.Edge root p
  /-- Nothing is lost of what a file includes that is not on the stack any more. -/
  followed : ∀ p, p.Same root ∨ p ∈ w.found →
    (∃ r ∈ w.stack, p.Same r) ∨ ∀ q, g.Edge p q → q.Same root ∨ q ∈ w.found

namespace Consistent

/-- What holds between two rounds holds before the first. -/
theorem start (g : Graph) (root : Path) : Consistent g root 0 (.start root) where
  count := rfl
  stacked p hp := .inl (List.mem_singleton.mp hp ▸ .refl root)
  chained p hp := absurd hp (PathMap.not_mem_empty p)
  followed p hp := by
    rcases hp with hp | hp
    · exact .inl ⟨root, List.mem_singleton_self root, hp⟩
    · exact absurd hp (PathMap.not_mem_empty p)

/-- One round keeps what holds between two. -/
theorem follow {found : PathSet} {before after : List Path}
    (h : Consistent g root n ⟨found, before ++ p :: after⟩) :
    Consistent g root (n + 1) (follow g root ⟨found, before ++ after⟩ p) := by
  obtain ⟨new, hnew⟩ := exists_pushed_follow g root ⟨found, before ++ after⟩ p
  have hmem (q : Path) : q ∈ (Search.follow g root ⟨found, before ++ after⟩ p).found ↔
      q ∈ found ∨ g.Edge p q ∧ ¬ q.Same root := mem_found_follow
  constructor
  case count =>
    have hcount := h.count
    rw [hnew.size, hnew.stack]
    simp only [List.length_append, List.length_cons] at hcount ⊢
    omega
  case stacked =>
    intro r hr
    rw [hnew.stack] at hr
    rcases List.mem_append.mp hr with hr | hr
    · exact .inr ((hnew.found r).mpr (.inr ⟨r, hr, .refl r⟩))
    · have hold : r ∈ before ++ p :: after := by
        rcases List.mem_append.mp hr with hr | hr
        · exact List.mem_append_left _ hr
        · exact List.mem_append_right _ (List.mem_cons_of_mem p hr)
      exact (h.stacked r hold).imp_right fun hfound => (hmem r).mpr (.inl hfound)
  case chained =>
    intro q hq
    rcases (hmem q).mp hq with hq | ⟨hedge, hnot⟩
    · exact h.chained q hq
    · refine ⟨hnot, ?_⟩
      rcases h.stacked p (by simp) with hroot | hp
      · exact .single (hedge.congr_left hroot)
      · exact (h.chained p hp).2.tail hedge
  case followed =>
    intro f hf
    -- What was found in this round is on the stack; only what was found before has to be looked
    -- at.
    by_cases hlate : ∃ r ∈ new, f.Same r
    · obtain ⟨r, hr, hfr⟩ := hlate
      exact .inl ⟨r, hnew.stack ▸ List.mem_append_left _ hr, hfr⟩
    have hearly : f.Same root ∨ f ∈ found := by
      refine hf.imp_right fun hf => ?_
      exact ((hnew.found f).mp hf).resolve_right hlate
    rcases h.followed f hearly with ⟨r, hr, hfr⟩ | hall
    · by_cases hfp : f.Same p
      · -- This is the file that had its round.
        right
        intro q hq
        by_cases hroot : q.Same root
        · exact .inl hroot
        · exact .inr ((hmem q).mpr (.inr ⟨hq.congr_left hfp, hroot⟩))
      · left
        have hrest : r ∈ before ++ after := by
          rcases List.mem_append.mp hr with hr | hr
          · exact List.mem_append_left _ hr
          · rcases List.mem_cons.mp hr with rfl | hr
            · exact absurd hfr hfp
            · exact List.mem_append_right _ hr
        exact ⟨r, hnew.stack ▸ List.mem_append_right _ hrest, hfr⟩
    · right
      intro q hq
      exact (hall q hq).imp_right fun hfound => (hmem q).mpr (.inl hfound)

/-- What a search has found is reachable from its root. -/
theorem mem_reachable (h : Consistent g root n w) (hp : p ∈ w.found) : p ∈ g.reachable root :=
  Graph.mem_reachable.mpr (h.chained p hp)

/-- When the stack is empty, nothing that a chain of edges leads to is missing. -/
theorem mem_found_of_chain (h : Consistent g root n w) (hdone : w.stack = [])
    (hchain : Relation.TransGen g.Edge root q) : q.Same root ∨ q ∈ w.found := by
  have hclosed : ∀ p, p.Same root ∨ p ∈ w.found → ∀ q, g.Edge p q → q.Same root ∨ q ∈ w.found := by
    intro p hp
    refine (h.followed p hp).resolve_left ?_
    rintro ⟨r, hr, -⟩
    exact List.not_mem_nil (hdone ▸ hr)
  induction hchain with
  | single hedge => exact hclosed root (.inl (.refl root)) _ hedge
  | tail _ hedge ih => exact hclosed _ ih _ hedge

/-- A search with nothing left on its stack has found exactly what is reachable. -/
theorem same_reachable (h : Consistent g root n w) (hdone : w.stack = []) :
    PathSet.Same w.found (g.reachable root) := by
  rw [PathSet.same_iff]
  intro p
  refine ⟨h.mem_reachable, fun hp => ?_⟩
  obtain ⟨hnot, hchain⟩ := Graph.mem_reachable.mp hp
  exact (h.mem_found_of_chain hdone hchain).resolve_left hnot

/-- The stack is empty after one round for each file that is reached and one for the root. -/
theorem rounds (h : Consistent g root n w) : if w.stack = []
    then n = PathMap.size (g.reachable root) + 1 else n ≤ PathMap.size (g.reachable root) := by
  have hcount := h.count
  have hle : PathMap.size w.found ≤ PathMap.size (g.reachable root) :=
    PathSet.size_le_of_subset fun _ => h.mem_reachable
  split
  · rename_i hdone
    have hge : PathMap.size (g.reachable root) ≤ PathMap.size w.found :=
      PathSet.size_le_of_subset fun _ => (h.same_reachable hdone).mem_iff.mpr
    rw [hdone, List.length_nil] at hcount
    omega
  · rename_i hmore
    have hlength := List.length_pos_of_ne_nil hmore
    omega

end Consistent

/-! ## All rounds -/

/-- What holds between two rounds holds after any number of them. -/
theorem After.consistent (h : After g root n w) : Consistent g root n w := by
  induction h with
  | start => exact .start g root
  | follow _ ih => exact ih.follow

/-- Going deep first is one of the orders, as long as there are rounds to come. -/
theorem after_pop (hn : n ≤ PathMap.size (g.reachable root) + 1) :
    After g root n ((pop g root)^[n] (.start root)) := by
  induction n with
  | zero => exact .start
  | succ n ih =>
    have hbefore := ih (by omega)
    rw [Function.iterate_succ_apply']
    generalize (pop g root)^[n] (.start root) = w at hbefore
    obtain ⟨found, _ | ⟨p, stack⟩⟩ := w
    · have hrounds := hbefore.consistent.rounds
      rw [if_pos rfl] at hrounds
      omega
    · have htop : After g root n ⟨found, [] ++ p :: stack⟩ := hbefore
      exact htop.follow

end Search

/-- Some files are those that a root reaches, and a search in any order finds them. -/
structure IsReached (g : Graph) (root : Path) (found : PathSet) : Prop where
  /-- They are what chains of edges lead to, at least one edge long, without the root. -/
  chains : ∀ p, p ∈ found ↔ ¬ p.Same root ∧ Relation.TransGen g.Edge root p
  /-- What they reach is among them, or it is the root. -/
  onward : ∀ p ∈ found, ∀ q ∈ g.reachable p, q ∈ found ∨ q.Same root
  /-- A search that goes deep first ends, and has found them. -/
  ends : let w := (Search.pop g root)^[PathMap.size found + 1] (.start root)
    w.stack = [] ∧ PathSet.Same w.found found
  /-- So does a search in any order, after as many rounds. -/
  anyOrder : ∀ n w, Search.After g root n w → if w.stack = []
    then n = PathMap.size found + 1 ∧ PathSet.Same w.found found else n ≤ PathMap.size found

variable {g : Graph} {root p q : Path}

/-- What is reached from a reached file is reached, or it is the root. -/
theorem mem_reachable_trans (hp : p ∈ g.reachable root) (hq : q ∈ g.reachable p) :
    q ∈ g.reachable root ∨ q.Same root := by
  by_cases hsame : q.Same root
  · exact .inr hsame
  · exact .inl (mem_reachable.mpr ⟨hsame, (mem_reachable.mp hp).2.trans (mem_reachable.mp hq).2⟩)

/-- Reaching is transitive inclusion, whatever the graph is. -/
theorem isReached_reachable (g : Graph) (root : Path) : IsReached g root (g.reachable root) where
  chains _ := mem_reachable
  onward _ hp _ hq := mem_reachable_trans hp hq
  ends := by
    have hafter : Search.After g root _
        ((Search.pop g root)^[PathMap.size (g.reachable root) + 1] (.start root)) :=
      Search.after_pop (Nat.le_refl _)
    have hrounds := hafter.consistent.rounds
    split at hrounds
    · rename_i hdone
      exact ⟨hdone, hafter.consistent.same_reachable hdone⟩
    · omega
  anyOrder n w h := by
    have hrounds := h.consistent.rounds
    split at hrounds
    · rename_i hdone
      rw [if_pos hdone]
      exact ⟨hrounds, h.consistent.same_reachable hdone⟩
    · rename_i hmore
      rw [if_neg hmore]
      exact hrounds

end Graph

end Recompile
