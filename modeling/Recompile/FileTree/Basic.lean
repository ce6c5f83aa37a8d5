import Recompile.Path.Basic

/-!
# File trees

A file tree says what every location holds: the bytes of a file, a file that may not be
opened, a directory, or a link to a path. A location is named from the inside out, the
entry's own name first and the root's child last, so that going up is dropping the first
name. The root is always a directory. Only locations that hold something are listed, each
once, and whatever is listed stands in a directory. So does the working directory, which
can be written as a path.

An entry is put where a directory has room for it and erased where it is in nobody's way;
anything else leaves the tree as it is. So every tree that can be built is of this kind.
-/

set_option autoImplicit false

namespace Recompile

namespace Path

/-- The number of bytes that a text takes. -/
def byteSize : List Char → Nat
  | [] => 0
  | c :: cs => c.utf8Size + byteSize cs

/-- The number of bytes that a path must stay below. -/
def byteLimit : Nat :=
  4096

/-- The number of bytes that a name must not exceed. -/
def nameByteLimit : Nat :=
  255

/-- What a directory can have as a name: some text without slashes that is no step to
itself or up, and not too long. -/
def IsProper (n : Name) : Prop :=
  n ≠ [] ∧ n ≠ ['.'] ∧ n ≠ ['.', '.'] ∧ '/' ∉ n ∧ '\x00' ∉ n ∧ byteSize n ≤ nameByteLimit

instance (n : Name) : Decidable (IsProper n) :=
  inferInstanceAs (Decidable (_ ∧ _))

end Path

/-- A place in a file tree: the names from the entry up to the root. -/
abbrev Location : Type :=
  List Name

/-- What a location holds. -/
inductive Entry where
  | file (bytes : List UInt8)
  /-- A file that may not be opened. It can be found, replaced and removed. -/
  | locked
  | directory
  | link (target : Path)
  deriving DecidableEq, Repr

namespace Entry

/-- Whether an entry is a file, be it one that may be opened or not. -/
def isFile : Entry → Bool
  | .file _ | .locked => true
  | .directory | .link _ => false

end Entry

/-- What a list of entries has for a location. The root is a directory in any case. -/
def heldIn (entries : List (Location × Entry)) : Location → Option Entry
  | [] => some .directory
  | loc => (entries.find? fun e => e.1 = loc).map Prod.snd

section Held

variable {entries : List (Location × Entry)} {loc l : Location} {entry : Entry}

/-- Below the root, a place holds what the first entry recorded for it says. -/
theorem heldIn_of_ne_nil (h : loc ≠ []) :
    heldIn entries loc = (entries.find? fun e => e.1 = loc).map Prod.snd := by
  cases loc with
  | nil => exact absurd rfl h
  | cons => rfl

/-- What is listed once is what its location holds. -/
theorem heldIn_of_mem (distinct : entries.Pairwise fun a b => a.1 ≠ b.1)
    (h : (loc, entry) ∈ entries) (hne : loc ≠ []) : heldIn entries loc = some entry := by
  rw [heldIn_of_ne_nil hne]
  induction entries with
  | nil => cases h
  | cons e rest ih =>
    obtain ⟨hfirst, hrest⟩ := List.pairwise_cons.1 distinct
    rcases List.mem_cons.1 h with rfl | hmem
    · simp
    · rw [List.find?_cons_of_neg (by simpa using hfirst _ hmem)]
      exact ih hrest hmem

/-- What is held is listed, the root apart. -/
theorem mem_of_heldIn (h : heldIn entries loc = some entry) (hne : loc ≠ []) :
    (loc, entry) ∈ entries := by
  rw [heldIn_of_ne_nil hne] at h
  obtain ⟨e, hfind, rfl⟩ := Option.map_eq_some_iff.1 h
  have hloc : e.1 = loc := by simpa using List.find?_some hfind
  rw [← hloc]
  exact List.mem_of_find?_eq_some hfind

/-- A location that is listed anew holds that, and no other location is affected. -/
theorem heldIn_put (hne : loc ≠ []) :
    heldIn ((loc, entry) :: entries.filter fun e => e.1 ≠ loc) l =
      if l = loc then some entry else heldIn entries l := by
  by_cases hnil : l = []
  · subst hnil
    rw [if_neg (Ne.symm hne)]
    rfl
  · rw [heldIn_of_ne_nil hnil, heldIn_of_ne_nil hnil]
    by_cases heq : l = loc
    · simp [heq]
    · rw [List.find?_cons_of_neg (by simpa using Ne.symm heq), if_neg heq, List.find?_filter]
      congr 2
      funext e
      by_cases he : e.1 = l
      · simp [he, heq]
      · simp [he]

/-- Without what is at a location or below it, the other locations hold what they held. -/
theorem heldIn_erase (hne : loc ≠ []) :
    heldIn (entries.filter fun e => !loc.isSuffixOf e.1) l =
      if loc <:+ l then none else heldIn entries l := by
  by_cases hnil : l = []
  · subst hnil
    rw [if_neg (by simpa using hne)]
    rfl
  · rw [heldIn_of_ne_nil hnil, heldIn_of_ne_nil hnil, List.find?_filter]
    by_cases hsuffix : loc <:+ l
    · rw [if_pos hsuffix, List.find?_eq_none.2, Option.map_none]
      intro e _ he
      simp only [decide_eq_true_eq] at he
      rw [he.2, List.isSuffixOf_iff_suffix.2 hsuffix] at he
      simp at he
    · rw [if_neg hsuffix]
      have hkept : loc.isSuffixOf l = false := by
        rw [Bool.eq_false_iff]
        exact fun h => hsuffix (List.isSuffixOf_iff_suffix.1 h)
      congr 2
      funext e
      by_cases he : e.1 = l
      · simp [he, hkept]
      · simp [he]

end Held

/-- The files, directories and links of a machine, and the directory from which
relative paths start. -/
structure FileTree where
  entries : List (Location × Entry)
  workingDir : Location
  distinct : entries.Pairwise fun a b => a.1 ≠ b.1
  /-- Whatever is listed stands in a directory. -/
  standing : ∀ e ∈ entries, e.1 ≠ [] ∧ heldIn entries e.1.tail = some .directory
  working : heldIn entries workingDir = some .directory
  /-- The working directory can be written as a path. -/
  proper : ∀ n ∈ workingDir, Path.IsProper n

namespace FileTree

/-- A tree that has nothing but its working directory and those above it. What cannot be the
name of a directory is left out. -/
def bare (names : Location) : FileTree :=
  let workingDir := names.filter Path.IsProper
  let entries := (List.range workingDir.length).map fun n => (workingDir.drop n, Entry.directory)
  have distinct : entries.Pairwise fun a b => a.1 ≠ b.1 := by
    refine List.pairwise_map.2 (List.Pairwise.imp_of_mem ?_ List.pairwise_lt_range)
    intro m n hm hn hmn h
    have hlength := congrArg List.length h
    simp only [List.length_drop] at hlength
    have := List.mem_range.1 hm
    have := List.mem_range.1 hn
    omega
  have held (n : Nat) : heldIn entries (workingDir.drop n) = some .directory := by
    by_cases hn : n < workingDir.length
    · have hne : workingDir.drop n ≠ [] := by simpa using hn
      exact heldIn_of_mem distinct (List.mem_map.2 ⟨n, List.mem_range.2 hn, rfl⟩) hne
    · rw [List.drop_eq_nil_of_le (by omega)]
      rfl
  { entries := entries
    workingDir := workingDir
    distinct := distinct
    standing := by
      intro e he
      obtain ⟨n, hn, rfl⟩ := List.mem_map.1 he
      refine ⟨by simpa using List.mem_range.1 hn, ?_⟩
      rw [List.tail_drop]
      exact held (n + 1)
    working := held 0
    proper := fun n hn => by simpa using (List.mem_filter.1 hn).2 }

instance : Inhabited FileTree :=
  ⟨bare []⟩

/-- What a location holds, if it holds anything. -/
def entry? (t : FileTree) (loc : Location) : Option Entry :=
  heldIn t.entries loc

/-- There is room for an entry at a location: it is in a directory, and no directory
itself. -/
def HasRoom (t : FileTree) (loc : Location) : Prop :=
  t.entry? loc ≠ some .directory ∧ t.entry? loc.tail = some .directory

instance (t : FileTree) (loc : Location) : Decidable (t.HasRoom loc) :=
  inferInstanceAs (Decidable (_ ∧ _))

/-- The root never has room: it is there already. -/
theorem HasRoom.ne_nil {t : FileTree} {loc : Location} (h : t.HasRoom loc) : loc ≠ [] := by
  rintro rfl
  exact h.1 rfl

/-- The tree with something at a location in place of what was there, if there is room. -/
def put (t : FileTree) (loc : Location) (entry : Entry) : FileTree :=
  if h : t.HasRoom loc then
    have kept {l : Location} (hl : t.entry? l = some .directory) :
        heldIn ((loc, entry) :: t.entries.filter fun e => e.1 ≠ loc) l = some .directory := by
      rw [heldIn_put h.ne_nil, if_neg]
      · exact hl
      · rintro rfl
        exact h.1 hl
    { entries := (loc, entry) :: t.entries.filter fun e => e.1 ≠ loc
      workingDir := t.workingDir
      distinct := by
        refine List.pairwise_cons.2 ⟨fun e he heq => ?_, t.distinct.filter _⟩
        have hne : e.1 ≠ loc := by simpa using (List.mem_filter.1 he).2
        exact hne heq.symm
      standing := by
        intro e he
        rcases List.mem_cons.1 he with rfl | he
        · exact ⟨h.ne_nil, kept h.2⟩
        · obtain ⟨hne, hdir⟩ := t.standing e (List.mem_filter.1 he).1
          exact ⟨hne, kept hdir⟩
      working := kept t.working
      proper := t.proper }
  else t

/-- The tree with nothing at a location nor below it, unless the working directory is
there. -/
def erase (t : FileTree) (loc : Location) : FileTree :=
  if h : loc <:+ t.workingDir then t
  else
    have hne : loc ≠ [] := by
      rintro rfl
      exact h (List.nil_suffix)
    { entries := t.entries.filter fun e => !loc.isSuffixOf e.1
      workingDir := t.workingDir
      distinct := t.distinct.filter _
      standing := by
        intro e he
        obtain ⟨hmem, hkept⟩ := List.mem_filter.1 he
        obtain ⟨hne', hdir⟩ := t.standing e hmem
        refine ⟨hne', ?_⟩
        rw [heldIn_erase hne, if_neg, hdir]
        intro hsuffix
        have hself : loc <:+ e.1 := hsuffix.trans (List.tail_suffix e.1)
        simp [List.isSuffixOf_iff_suffix.2 hself] at hkept
      working := by
        rw [heldIn_erase hne, if_neg h]
        exact t.working
      proper := t.proper }

/-- The names in a directory, with what they hold. -/
def children (t : FileTree) (dir : Location) : List (Name × Entry) :=
  t.entries.filterMap fun e =>
    match e.1 with
    | [] => none
    | n :: above => if above = dir then some (n, e.2) else none

/-- The path of a location, from the root. -/
def pathOf (loc : Location) : Path :=
  ⟨'/' :: ['/'].intercalate loc.reverse⟩

/-- The path of the working directory. -/
def workingPath (t : FileTree) : Path :=
  pathOf t.workingDir

end FileTree

end Recompile
