import Recompile.Graph.Basic
import Recompile.Proofs.FileTree.Steps

/-!
# Trees that differ in contents alone

Two trees have the same shape if the same locations hold files, directories and links to
the same targets. A look-up never opens a file, so it takes the same way in both
(`SameShape.walk_eq`), and so do the search for an include target and the scan of given
bytes (`SameShape.scanBytes_eq`): what a directive leads to depends on the shape of the
tree and on the bytes of the file that has it.
-/

set_option autoImplicit false

namespace Recompile

/-- An entry without its bytes. -/
def Entry.shape : Entry → Entry
  | .file _ => .file []
  | e => e

namespace FileTree

/-- The same files, directories and links, whatever the bytes of the files are. -/
structure SameShape (t u : FileTree) : Prop where
  workingDir : t.workingDir = u.workingDir
  shape : ∀ loc, (t.entry? loc).map Entry.shape = (u.entry? loc).map Entry.shape

namespace SameShape

variable {t u : FileTree}

/-- A location holds the same in both trees, or a file in each. -/
theorem entry_cases (h : t.SameShape u) (loc : Location) :
    t.entry? loc = u.entry? loc ∨
      ∃ a b, t.entry? loc = some (.file a) ∧ u.entry? loc = some (.file b) := by
  have hshape := h.shape loc
  cases ht : t.entry? loc with
  | none =>
    rw [ht] at hshape
    exact .inl (Option.map_eq_none_iff.mp hshape.symm).symm
  | some e =>
    rw [ht] at hshape
    obtain ⟨f, hf, hef⟩ := Option.map_eq_some_iff.mp hshape.symm
    cases e <;> cases f <;> simp_all [Entry.shape]

/-- Going on is the same in trees of the same shape. -/
theorem advance_eq (h : t.SameShape u) (last : Bool) (dir : Location) (steps : List Name) :
    t.advance last dir steps = u.advance last dir steps := by
  induction steps generalizing dir with
  | nil => rw [advance_nil, advance_nil]
  | cons n rest ih =>
    rcases step_cases n with rfl | rfl | hn
    · rw [advance_dot, advance_dot, ih]
    · rw [advance_up, advance_up, ih]
    · by_cases hrest : rest = []
      · subst hrest
        rw [advance_single hn, advance_single hn]
        rcases h.entry_cases (n :: dir) with heq | ⟨a, b, ht, hu⟩
        · rw [heq]
        · rw [ht, hu]
      · rw [advance_cons hn hrest, advance_cons hn hrest, ih]
        rcases h.entry_cases (n :: dir) with heq | ⟨a, b, ht, hu⟩
        · rw [heq]
        · rw [ht, hu]

/-- Following is the same in trees of the same shape. -/
theorem follow_eq (h : t.SameShape u) (last : Bool) (links : Nat) (dir : Location)
    (steps : List Name) : t.follow last links dir steps = u.follow last links dir steps := by
  induction links generalizing dir steps with
  | zero => rw [follow, follow, h.advance_eq]
  | succ links ih =>
    unfold follow
    rw [h.advance_eq]
    split
    · exact ih ..
    · rfl

/-- Walking along a path is the same in trees of the same shape. -/
theorem walk_eq (h : t.SameShape u) (last : Bool) (p : Path) : t.walk last p = u.walk last p := by
  unfold walk
  rw [h.workingDir]
  split
  · rfl
  · exact h.follow_eq ..

/-- A path is read in both trees or fails with the same error in both. -/
theorem read_cases (h : t.SameShape u) (p : Path) :
    t.read p = u.read p ∨ ∃ a b, t.read p = .ok a ∧ u.read p = .ok b := by
  unfold read find
  rw [h.walk_eq]
  cases u.walk true p with
  | inside d => exact .inl rfl
  | link d target rest => exact .inl rfl
  | failed e => exact .inl rfl
  | before d n =>
    rcases h.entry_cases (n :: d) with heq | ⟨a, b, ht, hu⟩
    · left
      simp only [heq]
    · simp only [ht, hu]
      exact .inr ⟨a, b, rfl, rfl⟩

/-- A path leads to a file in both trees or in neither. -/
theorem isFile_eq (h : t.SameShape u) : t.isFile = u.isFile := by
  funext p
  unfold isFile find
  rw [h.walk_eq]
  cases u.walk true p with
  | inside | link | failed => rfl
  | before d n =>
    rcases h.entry_cases (n :: d) with heq | ⟨a, b, ht, hu⟩
    · simp only [heq]
    · simp only [ht, hu, Entry.isFile]

/-- What a scan finds in given bytes depends on the shape of the tree alone. -/
theorem scanBytes_eq (h : t.SameShape u) (s : Scanner) (file : Path) (bytes : List UInt8) :
    s.scanBytes t file bytes = s.scanBytes u file bytes := by
  have hsearch : Resolver.search t = Resolver.search u := by
    funext dirs target
    unfold Resolver.search
    rw [h.isFile_eq]
  have hlocate : s.resolver.locate t = s.resolver.locate u := by
    funext dir found
    unfold Resolver.locate
    rw [hsearch]
  unfold Scanner.scanBytes Resolver.resolveAll
  rw [hlocate]

end SameShape

end FileTree

end Recompile
