import Mathlib.Data.List.Nodup
import Mathlib.Data.List.Perm.Subperm
import Recompile.FileTree.Walk
import Recompile.Proofs.FileTree.Growth

/-!
# The walk below search roots

A walk lists the directories that it comes to (`FileTree.Below`) and looks up the links in
them. The levels that it may go down are enough in every tree: going down to an entry
leaves fewer places below, and going through a link puts one more directory on the way
(`FileTree.filesBelow_eq_of_lt`). So the number of levels, which depends on the whole tree,
does not matter, and a tree in which all that the walk lists and looks up is the same has
the same files below the roots (`FileTree.filesUnder_congr`).
-/

set_option autoImplicit false

namespace Recompile.FileTree

variable {t t' : FileTree} {dir loc d : Location} {n : Name} {entry : Entry} {p path : Path}
  {above : List Location} {levels levels' : Nat} {roots : List Path}

/-! ## The places that hold something -/

/-- A tree records at most one entry for a location. -/
theorem nodup_locations (t : FileTree) : (t.entries.map Prod.fst).Nodup :=
  List.pairwise_map.mpr t.distinct

/-- What a place holds is what is listed for it, the root apart. -/
theorem entry?_eq_some_iff (hne : loc ≠ []) :
    t.entry? loc = some entry ↔ (loc, entry) ∈ t.entries :=
  ⟨fun h => mem_of_heldIn h hne, fun h => heldIn_of_mem t.distinct h hne⟩

/-- The children of a directory are the entries one name below it. -/
theorem mem_children : (n, entry) ∈ t.children dir ↔ t.entry? (n :: dir) = some entry := by
  rw [entry?_eq_some_iff (List.cons_ne_nil n dir)]
  unfold children
  rw [List.mem_filterMap]
  constructor
  · rintro ⟨⟨loc, e⟩, he, hchild⟩
    cases loc with
    | nil => cases hchild
    | cons m above =>
      dsimp only at hchild
      split at hchild
      · rename_i habove
        cases hchild
        rwa [← habove]
      · cases hchild
  · intro hmem
    refine ⟨_, hmem, ?_⟩
    dsimp only
    rw [if_pos rfl]

/-- The places that hold something. The root always does. -/
def held (t : FileTree) : List Location :=
  [] :: t.entries.map Prod.fst

/-- A place of which something is known holds something. -/
theorem mem_held : loc ∈ t.held ↔ t.entry? loc ≠ none := by
  unfold held
  cases loc with
  | nil => simp
  | cons n dir =>
    rw [Option.ne_none_iff_exists']
    simp only [entry?_eq_some_iff (List.cons_ne_nil n dir)]
    simp

/-- No place is counted twice. -/
theorem nodup_held : t.held.Nodup := by
  refine List.nodup_cons.mpr ⟨fun hroot => ?_, t.nodup_locations⟩
  obtain ⟨e, he, hnil⟩ := List.mem_map.mp hroot
  exact (t.standing e he).1 hnil

/-- All places but the root are listed. -/
theorem length_held (t : FileTree) : t.held.length = t.entries.length + 1 := by
  rw [held, List.length_cons, List.length_map]

/-- A tree that holds something wherever another does holds no less. -/
theorem length_held_mono (h : ∀ loc, t.entry? loc ≠ none → t'.entry? loc ≠ none) :
    t.held.length ≤ t'.held.length := by
  apply List.Subperm.length_le
  apply List.subperm_of_subset nodup_held
  intro loc hloc
  exact mem_held.mpr (h loc (mem_held.mp hloc))

/-! ## Levels -/

/-- How many places are not on the way. -/
def offWay (t : FileTree) (above : List Location) : Nat :=
  (t.held.filter fun loc => !above.contains loc).length

/-- How many places are below a directory. -/
def deeper (t : FileTree) (dir : Location) : Nat :=
  (t.held.filter fun loc => dir <:+ loc ∧ loc ≠ dir).length

/-- A walk goes down fewer levels than this from a directory. -/
def levelsBelow (t : FileTree) (above : List Location) (dir : Location) : Nat :=
  t.offWay above * (t.held.length + 1) + t.deeper dir

/-- Going on leaves no more places off the way. -/
theorem offWay_cons_le (loc : Location) (above : List Location) :
    t.offWay (loc :: above) ≤ t.offWay above := by
  unfold offWay
  apply List.Sublist.length_le
  apply List.monotone_filter_right
  intro l hl
  simp only [List.contains_eq_mem, Bool.not_eq_true', decide_eq_false_iff_not] at hl ⊢
  exact fun hmem => hl (List.mem_cons_of_mem _ hmem)

/-- Of two tests one of which passes fewer of the places that hold something, that one counts
fewer. -/
theorem filter_length_lt {q r : Location → Bool} (hsub : ∀ loc, q loc = true → r loc = true)
    (hheld : t.entry? loc ≠ none) (hnot : ¬ q loc = true) (hloc : r loc = true) :
    (t.held.filter q).length < (t.held.filter r).length := by
  have heq : t.held.filter q = (t.held.filter r).filter q := by
    rw [List.filter_filter]
    apply List.filter_congr
    intro l _
    cases hq : q l with
    | false => rfl
    | true => simp [hsub l hq]
  rw [heq, List.length_filter_lt_length_iff_exists]
  exact ⟨loc, List.mem_filter.mpr ⟨mem_held.mpr hheld, hloc⟩, hnot⟩

/-- A directory that gets on the way was off it before. -/
theorem offWay_cons_lt (hheld : t.entry? loc ≠ none) (hnot : loc ∉ above) :
    t.offWay (loc :: above) < t.offWay above := by
  unfold offWay
  apply filter_length_lt _ hheld
  · simp
  · simpa using hnot
  · intro l hl
    simp only [List.contains_eq_mem, Bool.not_eq_true', decide_eq_false_iff_not] at hl ⊢
    exact fun hmem => hl (List.mem_cons_of_mem _ hmem)

/-- There is less below an entry than below its directory. -/
theorem deeper_child_lt (hheld : t.entry? (n :: dir) ≠ none) :
    t.deeper (n :: dir) < t.deeper dir := by
  unfold deeper
  apply filter_length_lt _ hheld
  · simp
  · simp
  · intro l hl
    simp only [decide_eq_true_eq] at hl ⊢
    obtain ⟨hsuffix, -⟩ := hl
    refine ⟨(List.suffix_cons n dir).trans hsuffix, ?_⟩
    rintro rfl
    have hlength := hsuffix.length_le
    rw [List.length_cons] at hlength
    omega

/-- Below a directory there are no more places than there are at all. -/
theorem deeper_le : t.deeper dir ≤ t.held.length :=
  List.length_filter_le _ _

/-- Going down to a child leaves fewer levels: there is less below it. -/
theorem levelsBelow_child_lt (hheld : t.entry? (n :: dir) ≠ none) :
    t.levelsBelow ((n :: dir) :: above) (n :: dir) < t.levelsBelow above dir := by
  have hoff := Nat.mul_le_mul_right (t.held.length + 1) (offWay_cons_le (t := t) (n :: dir) above)
  have hdeeper := deeper_child_lt hheld
  unfold levelsBelow
  omega

/-- Going through a link to a directory that is not on the way yet leaves fewer levels: fewer
places are off the way. -/
theorem levelsBelow_link_lt (hheld : t.entry? loc ≠ none) (hnot : loc ∉ above) :
    t.levelsBelow (loc :: above) loc < t.levelsBelow above dir := by
  -- One place less off the way outweighs all that may be below the new directory.
  have hoff : (t.offWay (loc :: above) + 1) * (t.held.length + 1) ≤
      t.offWay above * (t.held.length + 1) :=
    Nat.mul_le_mul_right _ (offWay_cons_lt hheld hnot)
  have hdeeper : t.deeper loc ≤ t.held.length := deeper_le
  rw [Nat.succ_mul] at hoff
  unfold levelsBelow
  omega

/-- With levels enough a walk finds all that it finds with more of them. -/
theorem filesBelow_eq_of_lt (h : t.levelsBelow above dir < levels)
    (h' : t.levelsBelow above dir < levels') :
    t.filesBelow levels above path dir = t.filesBelow levels' above path dir := by
  -- Both walks go down one level at a time, so the two numbers shrink together.
  induction levels generalizing levels' above path dir with
  | zero => exact absurd h (Nat.not_lt_zero _)
  | succ levels ih =>
    cases levels' with
    | zero => exact absurd h' (Nat.not_lt_zero _)
    | succ levels' =>
      unfold filesBelow
      apply List.flatMap_congr
      intro child hchild
      obtain ⟨n, entry⟩ := child
      have hentry := mem_children.mp hchild
      cases entry with
      | file | locked => rfl
      | directory =>
        have hless : t.levelsBelow ((n :: dir) :: above) (n :: dir) < t.levelsBelow above dir :=
          levelsBelow_child_lt (by simp [hentry])
        dsimp only
        split
        · rfl
        · exact ih (by omega) (by omega)
      | link target =>
        dsimp only
        cases hfind : t.find (path.join ⟨n⟩) with
        | error e => rfl
        | ok found =>
          obtain ⟨loc, entry⟩ := found
          cases entry with
          | file | locked | link => rfl
          | directory =>
            dsimp only
            by_cases hmem : loc ∈ above
            · rw [if_pos hmem, if_pos hmem]
            · rw [if_neg hmem, if_neg hmem]
              have hheld : t.entry? loc ≠ none := by simp [directory_of_find hfind]
              have hless : t.levelsBelow (loc :: above) loc < t.levelsBelow above dir :=
                levelsBelow_link_lt hheld hmem
              exact ih (by omega) (by omega)

/-- A tree that holds no less than another one has levels enough for it. -/
theorem levelsBelow_lt_walkLevels (h : t.held.length ≤ t'.held.length) :
    t.levelsBelow above dir < t'.walkLevels := by
  have hoff : t.offWay above * (t.held.length + 1) ≤ t.held.length * (t.held.length + 1) :=
    Nat.mul_le_mul_right _ (List.length_filter_le _ _)
  have hdeeper : t.deeper dir ≤ t.held.length := deeper_le
  have hlength : t.held.length + 1 ≤ t'.entries.length + 2 := by
    rw [t'.length_held] at h
    omega
  calc t.levelsBelow above dir
    _ ≤ t.held.length * (t.held.length + 1) + t.held.length := Nat.add_le_add hoff hdeeper
    _ < (t.held.length + 1) * (t.held.length + 1) := by rw [Nat.succ_mul]; omega
    _ ≤ (t'.entries.length + 2) * (t'.entries.length + 2) := Nat.mul_le_mul hlength hlength

/-! ## What a walk lists and looks up -/

/-- The directories to which a walk from search roots comes, and the paths by which it
does. -/
inductive Below (t : FileTree) (roots : List Path) : Path → Location → Prop where
  | root {p : Path} {dir : Location} (h : p ∈ roots) (found : t.find p = .ok (dir, .directory)) :
      Below t roots p dir
  | child {p : Path} {dir : Location} {n : Name} (h : Below t roots p dir)
      (entry : t.entry? (n :: dir) = some .directory) (fits : (p.join ⟨n⟩).refusal? = none) :
      Below t roots (p.join ⟨n⟩) (n :: dir)
  | link {p target : Path} {dir loc : Location} {n : Name} (h : Below t roots p dir)
      (entry : t.entry? (n :: dir) = some (.link target))
      (found : t.find (p.join ⟨n⟩) = .ok (loc, .directory)) :
      Below t roots (p.join ⟨n⟩) loc

/-- The paths that a walk from search roots looks up. -/
inductive LookedUpBelow (t : FileTree) (roots : List Path) : Path → Prop where
  | root {p : Path} (h : p ∈ roots) : LookedUpBelow t roots p
  | link {p target : Path} {dir : Location} {n : Name} (h : t.Below roots p dir)
      (entry : t.entry? (n :: dir) = some (.link target)) :
      LookedUpBelow t roots (p.join ⟨n⟩)

/-- Two trees list the same files below a directory when they agree on the children of the
directories to which the walk comes and on the paths it looks up. -/
theorem filesBelow_congr (hbelow : t.Below roots path dir)
    (hchildren : ∀ p dir, t.Below roots p dir → t'.children dir = t.children dir)
    (hfind : ∀ p, t.LookedUpBelow roots p → t'.find p = t.find p) :
    t'.filesBelow levels above path dir = t.filesBelow levels above path dir := by
  induction levels generalizing above path dir with
  | zero => rfl
  | succ levels ih =>
    unfold filesBelow
    rw [hchildren path dir hbelow]
    apply List.flatMap_congr
    intro child hchild
    obtain ⟨n, entry⟩ := child
    have hentry := mem_children.mp hchild
    cases entry with
    | file | locked => rfl
    | directory =>
      dsimp only
      cases hrefusal : (path.join ⟨n⟩).refusal? with
      | some e => rfl
      | none => exact ih (hbelow.child hentry hrefusal)
    | link target =>
      dsimp only
      rw [hfind _ (.link hbelow hentry)]
      cases hfound : t.find (path.join ⟨n⟩) with
      | error e => rfl
      | ok found =>
        obtain ⟨loc, entry⟩ := found
        cases entry with
        | file | locked | link => rfl
        | directory =>
          dsimp only
          rw [ih (hbelow.link hentry hfound)]

/-- The files below search roots are the same on a tree that holds no less, if all that a
walk lists and looks up is the same. -/
theorem filesUnder_congr
    (hheld : ∀ loc, t.entry? loc ≠ none → t'.entry? loc ≠ none)
    (hchildren : ∀ p dir, t.Below roots p dir → t'.children dir = t.children dir)
    (hfind : ∀ p, t.LookedUpBelow roots p → t'.find p = t.find p) :
    t'.filesUnder roots = t.filesUnder roots := by
  have hfiles : roots.flatMap t'.filesAt = roots.flatMap t.filesAt := by
    apply List.flatMap_congr
    intro root hroot
    unfold filesAt
    rw [hfind root (.root hroot)]
    cases hfound : t.find root with
    | error e => rfl
    | ok found =>
      obtain ⟨loc, entry⟩ := found
      cases entry with
      | file | locked | link => rfl
      | directory =>
        dsimp only
        rw [filesBelow_congr (.root hroot hfound) hchildren hfind]
        exact filesBelow_eq_of_lt (levelsBelow_lt_walkLevels (length_held_mono hheld))
          (levelsBelow_lt_walkLevels (Nat.le_refl _))
  unfold filesUnder
  rw [hfiles]

/-! ## Children after a change -/

/-- An entry that is put into one directory makes no difference to the others. -/
theorem children_put (hne : dir ≠ d) : (t.put (n :: dir) entry).children d = t.children d := by
  by_cases hroom : t.HasRoom (n :: dir)
  · unfold children put
    rw [dif_pos hroom, List.filterMap_cons, List.filterMap_filter]
    dsimp only
    rw [if_neg hne]
    dsimp only
    apply List.filterMap_congr
    intro e _
    by_cases he : e.1 = n :: dir
    · simp [he, hne]
    · simp [he]
  · rw [put_of_not_hasRoom hroom]

/-- Making directories leaves the entries of a directory in which none is made as they
are, in the same order. -/
theorem children_makeDirectories
    (h : ∀ m, entry? (t.makeDirectories p).1 (m :: d) = t.entry? (m :: d)) :
    (t.makeDirectories p).1.children d = t.children d := by
  have hkept : t.Grown (t.makeDirectories p).1 ∧
      ∀ d, (∀ m, entry? (t.makeDirectories p).1 (m :: d) = t.entry? (m :: d)) →
        (t.makeDirectories p).1.children d = t.children d := by
    refine makeDirectoriesWithin_induct (R := fun t t' => t.Grown t' ∧ ∀ d,
      (∀ m, t'.entry? (m :: d) = t.entry? (m :: d)) → t'.children d = t.children d)
      (fun t => ⟨.refl t, fun _ _ => rfl⟩) ?_ ?_ t _ p
    · rintro t t' t'' ⟨hgrown, hchildren⟩ ⟨hgrown', hchildren'⟩
      refine ⟨hgrown.trans hgrown', fun d hd => ?_⟩
      have hmid (m : Name) : t'.entry? (m :: d) = t.entry? (m :: d) := by
        rcases hgrown.entry (m :: d) with heq | ⟨hnone, hdir⟩
        · exact heq
        · have hlast := hgrown'.entry?_of_some hdir
          rw [hd m, hnone] at hlast
          cases hlast
      rw [hchildren' d fun m => (hd m).trans (hmid m).symm, hchildren d hmid]
    · intro t t' p hmade
      refine ⟨grown_makeDirectory hmade, fun d hd => ?_⟩
      obtain ⟨dir, n, -, hmissing, hroom, rfl⟩ := makeDirectory_eq_ok hmade
      apply children_put
      rintro rfl
      have hnew := hd n
      rw [entry?_put hroom, if_pos rfl, hmissing] at hnew
      cases hnew
  exact hkept.2 d h

end Recompile.FileTree
