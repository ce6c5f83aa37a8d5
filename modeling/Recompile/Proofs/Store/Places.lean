import Recompile.Proofs.FileTree.Below
import Recompile.Proofs.Store.Order

/-!
# The places of a store

A commit changes the tree in two ways: it makes the directory of the store, where that is
missing (`Workspace.prepared`), and it puts a record into it (`Workspace.Working.tree_commit`).
A look-up that leads to the same once the directory is there, and that asks for nothing in
the directory, leads to the same after a commit (`Workspace.Working.find_commit`). And a
directory that has none of the store's places lists the same entries
(`Workspace.Working.children_commit`). A store in memory has no places.
-/

set_option autoImplicit false

namespace Recompile.Workspace

open FileTree

variable {w : Workspace} {p : Path} {d dir loc : Location}

/-- The tree once the directory of the store was made. -/
def prepared (w : Workspace) : FileTree :=
  match w.store with
  | .memory _ | .full _ => w.tree
  | .directory root => (w.tree.makeDirectories root).1

/-- A location is the directory of the store or in it. -/
def Inside (w : Workspace) (loc : Location) : Prop :=
  match w.store with
  | .memory _ | .full _ => False
  | .directory root => ∃ dir, w.prepared.find root = .ok (dir, .directory) ∧ dir <:+ loc

/-- A look-up stays outside the directory of the store. -/
def Outside (w : Workspace) (p : Path) : Prop :=
  ∀ loc ∈ w.prepared.asked true p, ¬ w.Inside loc

/-- The store is out of the way of a look-up: the look-up stays outside its directory, and
making the directory does not change where it leads. -/
structure Beside (w : Workspace) (p : Path) : Prop where
  outside : w.Outside p
  find_prepared : w.prepared.find p = w.tree.find p

/-- The places of a store: those in its directory, and those of the directories that have to
be made for it. -/
def Owns (w : Workspace) (loc : Location) : Prop :=
  w.Inside loc ∨ w.prepared.entry? loc ≠ w.tree.entry? loc

/-- What is below a place in the store is in the store. -/
theorem Inside.cons {n : Name} (h : w.Inside dir) : w.Inside (n :: dir) := by
  obtain ⟨t, store⟩ := w
  cases store with
  | memory rs => exact h
  | full rs => exact h
  | directory root =>
    obtain ⟨top, hfound, hsuffix⟩ := h
    exact ⟨top, hfound, hsuffix.trans (List.suffix_cons n dir)⟩

/-- Preparing the store only makes directories. -/
theorem grown_prepared (w : Workspace) : w.tree.Grown w.prepared := by
  obtain ⟨t, store⟩ := w
  cases store with
  | memory rs => exact .refl t
  | full rs => exact .refl t
  | directory root => exact grown_makeDirectories t root

/-- A directory in which none is made for the store lists the same entries. -/
theorem children_prepared (h : ∀ n, w.prepared.entry? (n :: d) = w.tree.entry? (n :: d)) :
    w.prepared.children d = w.tree.children d := by
  obtain ⟨t, store⟩ := w
  cases store with
  | memory rs => rfl
  | full rs => rfl
  | directory root => exact children_makeDirectories h

variable (unit : String) (s : State)

/-- A commit makes the directory of the store, and at most it puts a file into that. -/
theorem Working.tree_commit (h : w.Working) :
    (w.commit unit s).1.tree = w.prepared ∨
      ∃ n dir bytes, (w.commit unit s).1.tree = w.prepared.put (n :: dir) (.file bytes) ∧
        w.Inside dir := by
  rw [h.commit_eq]
  obtain ⟨t, store⟩ := w
  cases store with
  | memory rs => exact .inl rfl
  | full rs => exact absurd h id
  | directory root =>
    obtain ⟨dir, horder⟩ := h
    rw [save_directory, Store.saveFile_of_inOrder horder]
    exact .inr ⟨_, dir, _, rfl, dir, horder.found, List.suffix_refl dir⟩

/-- A commit moves no process. -/
theorem Working.workingDir_commit (h : w.Working) :
    (w.commit unit s).1.tree.workingDir = w.tree.workingDir := by
  rw [← w.grown_prepared.workingDir]
  rcases h.tree_commit unit s with htree | ⟨n, dir, bytes, htree, -⟩
  · rw [htree]
  · rw [htree, workingDir_put]

/-- What a path leads to beside the store stays the same. -/
theorem Working.find_commit (h : w.Working) (beside : w.Beside p) :
    (w.commit unit s).1.tree.find p = w.tree.find p := by
  rw [← beside.find_prepared]
  rcases h.tree_commit unit s with htree | ⟨n, dir, bytes, htree, hinside⟩
  · rw [htree]
  · rw [htree]
    apply find_of_agree (workingDir_put ..)
    intro loc hloc
    apply entry?_put_of_ne
    rintro rfl
    exact beside.outside _ hloc hinside.cons

/-- A directory without places of the store lists the same entries in the same order. -/
theorem Working.children_commit (h : w.Working) (hd : ∀ n, ¬ w.Owns (n :: d)) :
    (w.commit unit s).1.tree.children d = w.tree.children d := by
  have hprepared : w.prepared.children d = w.tree.children d := by
    apply children_prepared
    intro n
    by_contra hchanged
    exact hd n (.inr hchanged)
  rw [← hprepared]
  rcases h.tree_commit unit s with htree | ⟨n, dir, bytes, htree, hinside⟩
  · rw [htree]
  · rw [htree]
    apply children_put
    rintro rfl
    exact hd n (.inl hinside.cons)

/-- A commit takes nothing away from the tree. -/
theorem Working.held_commit (h : w.Working) (hloc : w.tree.entry? loc ≠ none) :
    entry? (w.commit unit s).1.tree loc ≠ none := by
  obtain ⟨entry, hentry⟩ := Option.ne_none_iff_exists'.mp hloc
  have hkept := w.grown_prepared.entry?_of_some hentry
  rcases h.tree_commit unit s with htree | ⟨n, dir, bytes, htree, -⟩
  · rw [htree, hkept]
    simp
  · rw [htree]
    rcases entry?_put_cases w.prepared (n :: dir) (.file bytes) loc with hold | ⟨-, hnew⟩
    · rw [hold, hkept]
      simp
    · rw [hnew]
      simp

end Recompile.Workspace
