import Mathlib.Tactic.Common
import Recompile.FileTree.Edit
import Recompile.Proofs.FileTree.Steps

/-!
# What stands where

Whatever a tree has stands in a directory, so a look-up that starts in a directory comes to
a halt in one (`FileTree.grounded_follow`), and there is room at the last name of a path
unless a directory is there (`FileTree.hasRoom_of_walk`). An entry that is put where there is
room is what stands there then (`FileTree.entry?_put`); what is erased and no directory takes
nothing else with it (`FileTree.entry?_erase`).
-/

set_option autoImplicit false

namespace Recompile.FileTree

variable {t t' : FileTree} {last : Bool} {links : Nat} {dir d loc : Location} {n : Name}
  {steps : List Name} {p : Path} {entry : Entry}

/-! ## Entries and the directories above them -/

/-- The root is a directory. -/
@[simp] theorem entry?_nil (t : FileTree) : t.entry? [] = some .directory :=
  rfl

/-- What stands somewhere stands in a directory. -/
theorem entry?_above (h : t.entry? (n :: dir) ≠ none) : t.entry? dir = some .directory := by
  obtain ⟨entry, hentry⟩ := Option.ne_none_iff_exists'.mp h
  exact (t.standing _ (mem_of_heldIn hentry (List.cons_ne_nil n dir))).2

/-- The directory above a directory is one. -/
theorem directory_tail (h : t.entry? dir = some .directory) :
    t.entry? dir.tail = some .directory := by
  cases dir with
  | nil => exact h
  | cons n dir => exact entry?_above (h ▸ Option.some_ne_none _)

/-- Nothing stands below what is no directory. -/
theorem entry?_of_suffix (hdir : t.entry? dir ≠ some .directory) (hsuffix : dir <:+ loc)
    (hne : loc ≠ dir) : t.entry? loc = none := by
  obtain ⟨names, rfl⟩ := hsuffix
  induction names with
  | nil => exact absurd rfl hne
  | cons m names ih =>
    by_contra hentry
    have habove : t.entry? (names ++ dir) = some .directory := entry?_above hentry
    by_cases hnil : names = []
    · subst hnil
      exact hdir habove
    · rw [ih (by simpa using hnil)] at habove
      cases habove

/-- Nothing stands below what is missing. -/
theorem entry?_below (hmissing : t.entry? dir = none) (m : Name) : t.entry? (m :: dir) = none := by
  by_contra hentry
  have hdirectory := entry?_above hentry
  rw [hmissing] at hdirectory
  cases hdirectory

/-- What is no directory is not above the working directory. -/
theorem not_suffix_workingDir (h : t.entry? loc ≠ some .directory) : ¬ loc <:+ t.workingDir := by
  intro hsuffix
  by_cases heq : t.workingDir = loc
  · exact h (heq ▸ t.working)
  · have hnone := entry?_of_suffix h hsuffix heq
    have hworking : t.entry? t.workingDir = some .directory := t.working
    rw [hnone] at hworking
    cases hworking

/-! ## Entries after a change -/

/-- There is room where nothing is or no directory is, in a directory. -/
theorem hasRoom_cons (hdir : t.entry? dir = some .directory)
    (hfree : t.entry? (n :: dir) ≠ some .directory) : t.HasRoom (n :: dir) :=
  ⟨hfree, hdir⟩

/-- There is room where nothing is, in a directory. -/
theorem hasRoom_of_missing (hmissing : t.entry? loc = none)
    (hdir : t.entry? loc.tail = some .directory) : t.HasRoom loc :=
  ⟨by simp [hmissing], hdir⟩

/-- A tree stays as it is where there is no room. -/
theorem put_of_not_hasRoom (h : ¬ t.HasRoom loc) (entry : Entry) : t.put loc entry = t := by
  rw [put, dif_neg h]

/-- Putting an entry moves no process. -/
@[simp] theorem workingDir_put (t : FileTree) (loc : Location) (entry : Entry) :
    (t.put loc entry).workingDir = t.workingDir := by
  unfold put
  split <;> rfl

/-- Erasing an entry moves no process. -/
@[simp] theorem workingDir_erase (t : FileTree) (loc : Location) :
    (t.erase loc).workingDir = t.workingDir := by
  unfold erase
  split <;> rfl

/-- The path of a temporary file depends on the working directory alone. -/
theorem temporaryPath_congr (h : t'.workingDir = t.workingDir) (p : Path) (name : Name) :
    t'.temporaryPath p name = t.temporaryPath p name := by
  rw [temporaryPath, temporaryPath, workingPath, workingPath, h]

/-- What is put where there is room stands there, and all else is as it was. -/
theorem entry?_put (h : t.HasRoom loc) (l : Location) :
    entry? (t.put loc entry) l = if l = loc then some entry else t.entry? l := by
  rw [put, dif_pos h]
  exact heldIn_put h.ne_nil

/-- A place is what it was, or what has been put there. -/
theorem entry?_put_cases (t : FileTree) (loc : Location) (entry : Entry) (l : Location) :
    entry? (t.put loc entry) l = t.entry? l ∨
      l = loc ∧ entry? (t.put loc entry) l = some entry := by
  by_cases hroom : t.HasRoom loc
  · rw [entry?_put hroom]
    split
    · exact .inr ⟨by assumption, rfl⟩
    · exact .inl rfl
  · rw [put_of_not_hasRoom hroom]
    exact .inl rfl

/-- Putting something at one location leaves the others as they are. -/
theorem entry?_put_of_ne {l : Location} (h : l ≠ loc) :
    entry? (t.put loc entry) l = t.entry? l := by
  rcases entry?_put_cases t loc entry l with hold | ⟨heq, -⟩
  · exact hold
  · exact absurd heq h

/-- Erasing what is no directory takes nothing else. -/
theorem entry?_erase (h : t.entry? loc ≠ some .directory) (l : Location) :
    entry? (t.erase loc) l = if l = loc then none else t.entry? l := by
  have hne : loc ≠ [] := by
    rintro rfl
    exact h rfl
  rw [erase, dif_neg (not_suffix_workingDir h)]
  show heldIn _ l = _
  rw [heldIn_erase hne]
  by_cases heq : l = loc
  · rw [if_pos heq, if_pos (heq ▸ List.suffix_refl _)]
  · rw [if_neg heq]
    by_cases hsuffix : loc <:+ l
    · rw [if_pos hsuffix]
      exact (entry?_of_suffix h hsuffix heq).symm
    · rw [if_neg hsuffix]
      rfl

/-! ## Trees without links -/

/-- No place holds a link. -/
def LinkFree (t : FileTree) : Prop :=
  ∀ loc target, t.entry? loc ≠ some (.link target)

/-- A bare tree holds nothing but directories. -/
theorem entry?_bare (names loc : Location) :
    entry? (bare names) loc = none ∨ entry? (bare names) loc = some .directory := by
  cases hentry : entry? (bare names) loc with
  | none => exact .inl rfl
  | some entry =>
    right
    by_cases hnil : loc = []
    · rw [hnil, entry?_nil] at hentry
      exact hentry.symm
    · obtain ⟨n, -, heq⟩ := List.mem_map.mp (mem_of_heldIn hentry hnil)
      exact congrArg some (congrArg Prod.snd heq).symm

/-- A bare tree has nothing in its working directory. -/
theorem entry?_bare_cons (names : Location) (n : Name) :
    entry? (bare names) (n :: (bare names).workingDir) = none := by
  by_contra hentry
  obtain ⟨entry, hentry⟩ := Option.ne_none_iff_exists'.mp hentry
  obtain ⟨k, -, heq⟩ := List.mem_map.mp (mem_of_heldIn hentry (List.cons_ne_nil _ _))
  have hlength := congrArg List.length (congrArg Prod.fst heq)
  simp only [List.length_drop, List.length_cons, bare] at hlength
  omega

/-- A tree of bare directories has no link. -/
theorem linkFree_bare (names : Location) : (bare names).LinkFree := by
  intro loc target hlink
  rcases entry?_bare names loc with hnone | hdirectory
  · rw [hlink] at hnone
    cases hnone
  · rw [hlink] at hdirectory
    cases hdirectory

/-- Putting an entry that is no link brings none in. -/
theorem LinkFree.put (h : t.LinkFree) (hentry : ∀ target, entry ≠ .link target) :
    (t.put loc entry).LinkFree := by
  intro l target hlink
  rcases entry?_put_cases t loc entry l with hold | ⟨-, hnew⟩
  · exact h l target (hold ▸ hlink)
  · rw [hlink] at hnew
    exact hentry target (Option.some.inj hnew).symm

/-! ## Look-ups come to a halt in directories -/

/-- A halt in a directory that is there. -/
def Halt.Grounded (t : FileTree) : Halt → Prop
  | .inside dir | .before dir _ | .link dir _ _ => t.entry? dir = some .directory
  | .failed _ => True

/-- A path starts in a directory. -/
theorem directory_origin (hdir : t.entry? dir = some .directory) (p : Path) :
    t.entry? (origin dir p) = some .directory := by
  unfold origin
  split
  · rfl
  · exact hdir

/-- A look-up up to the first link that starts in a directory comes to a halt in one. -/
theorem grounded_advance (hdir : t.entry? dir = some .directory) :
    (t.advance last dir steps).Grounded t := by
  have hway := t.way_advance last dir steps
  generalize t.advance last dir steps = halt at hway
  induction hway with
  | nil | stops | link => exact hdir
  | dot _ ih => exact ih hdir
  | up _ ih => exact ih (directory_tail hdir)
  | long | missing | blocked => trivial
  | down _ _ _ hentry _ ih => exact ih hentry

/-- Through links as well it comes to a halt in a directory. -/
theorem grounded_follow (hdir : t.entry? dir = some .directory) :
    (t.follow last links dir steps).Grounded t := by
  induction links generalizing dir steps with
  | zero =>
    have hhalt : (t.advance last dir steps).Grounded t := grounded_advance hdir
    unfold follow
    split
    · trivial
    · exact hhalt
  | succ links ih =>
    have hhalt : (t.advance last dir steps).Grounded t := grounded_advance hdir
    unfold follow
    split
    · rename_i e target rest hlink
      rw [hlink] at hhalt
      exact ih (directory_origin hhalt target)
    · exact hhalt

/-- The last name of a path stands in a directory. -/
theorem directory_of_follow (hdir : t.entry? dir = some .directory)
    (hbefore : t.follow last links dir steps = .before d n) : t.entry? d = some .directory := by
  have hhalt : (t.follow last links dir steps).Grounded t := grounded_follow hdir
  rw [hbefore] at hhalt
  exact hhalt

/-- A walk that halts before a name is in a directory that is there. -/
theorem directory_of_walk (h : t.walk last p = .before d n) : t.entry? d = some .directory :=
  directory_of_follow (directory_origin t.working p) (follow_of_walk h)

/-- The system takes a path along which a walk to its last name halts before one. -/
theorem refusal?_of_walkToLast (h : t.walkToLast p = .before d n) : p.refusal? = none := by
  cases hrefusal : p.refusal? with
  | none => rfl
  | some e => simp [walkToLast, hrefusal] at h

/-- A walk to the last name that halts before one follows the steps of the path. -/
theorem follow_of_walkToLast (h : t.walkToLast p = .before d n) :
    t.follow false linkLimit (origin t.workingDir p) p.steps = .before d n := by
  unfold walkToLast at h
  split at h
  · cases h
  · exact h

/-- A walk to the last name that halts before one is in a directory that is there. -/
theorem directory_of_walkToLast (h : t.walkToLast p = .before d n) :
    t.entry? d = some .directory :=
  directory_of_follow (directory_origin t.working p) (follow_of_walkToLast h)

/-- There is room at the last name of a path, unless a directory is there. -/
theorem hasRoom_of_walk (h : t.walk last p = .before d n)
    (hfree : t.entry? (n :: d) ≠ some .directory) : t.HasRoom (n :: d) :=
  hasRoom_cons (directory_of_walk h) hfree

/-- Where a walk to the last name halts there is room, unless a directory is there. -/
theorem hasRoom_of_walkToLast (h : t.walkToLast p = .before d n)
    (hfree : t.entry? (n :: d) ≠ some .directory) : t.HasRoom (n :: d) :=
  hasRoom_cons (directory_of_walkToLast h) hfree

/-- What a path finds as a directory is one. -/
theorem directory_of_find (hfind : t.find p = .ok (d, .directory)) :
    t.entry? d = some .directory := by
  have hhalt : (t.walk true p).Grounded t := by
    unfold walk
    split
    · trivial
    · exact grounded_follow (directory_origin t.working p)
  unfold find at hfind
  split at hfind
  · rename_i hwalk
    cases hfind
    rw [hwalk] at hhalt
    exact hhalt
  · split at hfind
    · rename_i hentry
      cases hfind
      exact hentry
    · cases hfind
  · cases hfind
  · cases hfind

end Recompile.FileTree
