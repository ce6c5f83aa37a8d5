import Recompile.Proofs.FileTree.Ends
import Recompile.Proofs.FileTree.WorkingPath
import Recompile.Proofs.Store.Commit

/-!
# Stores whose writes succeed

A directory store is in order if its directory can be made and nothing but files stands
where the records belong (`Store.InOrder`). Then the record of a unit is saved in the place
of the old one and everything else stays as it was (`Store.saveFile_of_inOrder`). So what
is committed can be loaded, and the records of units with other digests are kept
(`Workspace.Working.state?_commit`, `Workspace.Working.state?_commit_of_ne`).
-/

set_option autoImplicit false

namespace Recompile

namespace Store

open FileTree

variable {t t' : FileTree} {root p : Path} {dir : Location} {unit other : String} {s : State}
  {bytes : List UInt8}

/-- A digest is written in sixty-four digits. -/
theorem length_hexDigest (message : List UInt8) : (Sha256.hexDigest message).length = 64 := by
  simp [Sha256.hexDigest, Sha256.State.words, Sha256.hexOfWord]

/-- A text of one-byte characters has as many bytes as characters. -/
theorem byteSize_eq_length {cs : List Char} (h : ∀ c ∈ cs, c.utf8Size = 1) :
    Path.byteSize cs = cs.length := by
  induction cs with
  | nil => rfl
  | cons c cs ih =>
    have hc : c.utf8Size = 1 := h c List.mem_cons_self
    have hcs : Path.byteSize cs = cs.length := ih fun c hmem => h c (List.mem_cons_of_mem _ hmem)
    rw [Path.byteSize, List.length_cons, hc, hcs]
    omega

/-- The name of every record has sixty-nine bytes. -/
theorem byteSize_recordName (unit : String) : Path.byteSize (recordName unit) = 69 := by
  have hone : ∀ c ∈ recordName unit, c.utf8Size = 1 := by
    intro c hmem
    rcases List.mem_append.mp hmem with hmem | hmem
    · obtain ⟨n, rfl⟩ := exists_hexDigit_of_mem hmem
      exact (hexDigit_spec n).2.2
    · simp only [List.mem_cons, List.not_mem_nil, or_false] at hmem
      rcases hmem with rfl | rfl | rfl | rfl | rfl <;> rfl
  rw [byteSize_eq_length hone, recordName, List.length_append, length_hexDigest]
  rfl

/-- The name of a record is neither `.` nor `..`. -/
theorem isName_recordName (unit : String) : IsName (recordName unit) :=
  ⟨(plain_recordName unit).chars_ne_dot, recordName_ne_up unit⟩

/-- The name of a record has no zero byte. -/
theorem nul_not_mem_recordName (unit : String) : '\x00' ∉ recordName unit := by
  intro hmem
  rcases List.mem_append.mp hmem with hmem | hmem
  · obtain ⟨n, hn⟩ := exists_hexDigit_of_mem hmem
    exact (hexDigit_spec n).2.1 hn.symm
  · revert hmem
    decide

/-- The path of a record has no character but those of the directory, a slash and the name. -/
theorem recordPath_sublist (root : Path) (unit : String) :
    List.Sublist (recordPath root unit).chars (root.chars ++ ['/'] ++ recordName unit) := by
  rw [recordPath_eq]
  rcases Path.join_plain (plain_recordName unit) root with
    ⟨hjoin, -⟩ | ⟨xs, hroot, hjoin⟩ | ⟨-, hjoin⟩
  · rw [hjoin]
    exact List.sublist_append_right _ _
  · rw [hjoin, hroot]
    simp [Path.Component.chars]
  · rw [hjoin]
    simp [Path.Component.chars]

/-- The path of a record is not refused if it is short enough. -/
theorem refusal?_recordPath_of_lt (hnul : '\x00' ∉ root.chars)
    (hshort : Path.byteSize (recordPath root unit).chars < Path.byteLimit) :
    (recordPath root unit).refusal? = none :=
  Path.refusal?_join_of_lt (plain_recordName unit) hnul (nul_not_mem_recordName unit) hshort

/-- The paths of the records are not refused if that of the directory is short enough. -/
theorem refusal?_recordPath (hnul : '\x00' ∉ root.chars)
    (hshort : Path.byteSize (root.chars ++ ['/']) + 69 < Path.byteLimit) (unit : String) :
    (recordPath root unit).refusal? = none := by
  apply refusal?_recordPath_of_lt hnul
  have hsize := Path.byteSize_le_of_sublist (recordPath_sublist root unit)
  rw [Path.byteSize_append, byteSize_recordName] at hsize
  exact Nat.lt_of_le_of_lt hsize hshort

/-- The place of a unit's record is come to through the directory of the store. -/
theorem walk_recordPath (hfind : t.find root = .ok (dir, .directory))
    (hfits : (recordPath root unit).refusal? = none) (last : Bool)
    (hlink : ∀ target, t.entry? (recordName unit :: dir) ≠ some (.link target)) :
    t.walk last (recordPath root unit) = .before dir (recordName unit) := by
  have hshort : ¬ Path.nameByteLimit < Path.byteSize (recordName unit) := by
    rw [byteSize_recordName]
    decide
  have hstep : t.advance last dir [recordName unit] = .before dir (recordName unit) :=
    advance_single_of_not_link (isName_recordName unit) hshort fun _ => hlink
  obtain ⟨links, hlinks, -⟩ := follow_join_of_find (plain_recordName unit) last hfind
  have hfollow := hlinks t (.refl t) rfl
  unfold walk
  rw [hfits]
  refine hfollow.trans ?_
  show t.follow last links dir [recordName unit] = _
  rw [follow_of_advance (by simp [hstep]), hstep]

/-- What is read of a unit's record is what stands in its place. -/
theorem read_recordPath (hfind : t.find root = .ok (dir, .directory))
    (hfits : (recordPath root unit).refusal? = none)
    (hfree : ¬ t.Passable (recordName unit :: dir)) :
    t.read (recordPath root unit) =
      match t.entry? (recordName unit :: dir) with
      | some (.file bytes) => .ok bytes
      | some .locked => .error .permissionDenied
      | _ => .error .notFound := by
  have hlink : ∀ target, t.entry? (recordName unit :: dir) ≠ some (.link target) := by
    intro target hentry
    exact hfree (.inr ⟨target, hentry⟩)
  have hwalk := walk_recordPath hfind hfits true hlink
  unfold FileTree.read find
  rw [hwalk]
  cases hentry : t.entry? (recordName unit :: dir) with
  | none => simp only [hentry]
  | some entry =>
    cases entry with
    | file bytes | locked => simp only [hentry]
    | directory => exact absurd (.inl hentry) hfree
    | link target => exact absurd hentry (hlink target)

/-- The directory of a store is there, or can be made without bringing a record to light,
nothing but files stands in the places of the records, and the paths of records and temporary
files are short enough. -/
structure InOrder (t : FileTree) (root : Path) (dir : Location) : Prop where
  fits : ∀ unit, (recordPath root unit).refusal? = none
  scratch : (t.temporaryPath root temporaryName).refusal? = none
  made : (t.makeDirectories root).2 = .ok ()
  found : (t.makeDirectories root).1.find root = .ok (dir, .directory)
  free : ∀ unit, entry? (t.makeDirectories root).1 (recordName unit :: dir) = none ∨
    ∃ bytes, entry? (t.makeDirectories root).1 (recordName unit :: dir) = some (.file bytes)
  kept : ∀ unit, (loadFile (t.makeDirectories root).1 root unit).state? =
    (loadFile t root unit).state?

/-- Through a place with nothing or a file no look-up goes. -/
theorem not_passable_of_free {loc : Location}
    (h : t.entry? loc = none ∨ ∃ bytes, t.entry? loc = some (.file bytes)) : ¬ t.Passable loc := by
  unfold Passable
  rcases h with hnone | ⟨bytes, hfile⟩
  · simp [hnone]
  · simp [hfile]

/-- What stands in a place where a record belongs cannot be gone through. -/
theorem InOrder.not_passable (h : InOrder t root dir) (unit : String) :
    ¬ (t.makeDirectories root).1.Passable (recordName unit :: dir) :=
  not_passable_of_free (h.free unit)

/-- There is room for a record. -/
theorem InOrder.hasRoom (h : InOrder t root dir) (unit : String) :
    (t.makeDirectories root).1.HasRoom (recordName unit :: dir) :=
  hasRoom_cons (directory_of_find h.found) fun hentry => h.not_passable unit (.inl hentry)

/-- A record is saved in the place of the one before it, and nothing else is changed once
the directory is made. -/
theorem saveFile_of_inOrder (h : InOrder t root dir) (unit : String) (s : State) :
    saveFile t root unit s =
      ((t.makeDirectories root).1.put (recordName unit :: dir) (.file (recordBytes unit s)),
        .ok ()) := by
  have hlink : ∀ target,
      entry? (t.makeDirectories root).1 (recordName unit :: dir) ≠ some (.link target) := by
    intro target hentry
    exact h.not_passable unit (.inr ⟨target, hentry⟩)
  have hdir : entry? (t.makeDirectories root).1 (recordName unit :: dir) ≠ some .directory := by
    intro hentry
    exact h.not_passable unit (.inl hentry)
  have hwalk := walk_recordPath h.found (h.fits unit) false hlink
  have hnul : '\x00' ∉ (recordPath root unit).chars :=
    (Path.refusal?_eq_none_iff.mp (h.fits unit)).1
  have hslash : (recordPath root unit).endsWithSlash = false := by
    have hsteps : (recordPath root unit).lookupSteps = (recordPath root unit).steps :=
      (Path.lookupSteps_join (plain_recordName unit) root).trans
        (Path.steps_join (plain_recordName unit) root).symm
    cases hends : (recordPath root unit).endsWithSlash with
    | false => rfl
    | true =>
      rw [Path.lookupSteps, if_pos hends] at hsteps
      simp at hsteps
  have hlast : (t.makeDirectories root).1.walkToLast (recordPath root unit) =
      .before dir (recordName unit) := by
    rw [← hwalk, walkToLast, walk, Path.lookupSteps, hslash]
    rfl
  have hreplace : (t.makeDirectories root).1.replace (recordPath root unit) (recordBytes unit s) =
      .ok ((t.makeDirectories root).1.put (recordName unit :: dir)
        (.file (recordBytes unit s))) := by
    unfold replace
    rw [if_neg hnul, hlast]
    -- The place holds no directory, so the file takes it.
    simp only [hslash, Bool.false_eq_true, if_false]
  have hscratch : ((t.makeDirectories root).1.temporaryPath root temporaryName).refusal? = none :=
    temporaryPath_congr (grown_makeDirectories t root).workingDir root temporaryName ▸ h.scratch
  have hmade := h.made
  unfold saveFile publish
  revert hreplace hscratch hmade
  generalize t.makeDirectories root = made
  obtain ⟨made, result⟩ := made
  rintro hreplace hscratch rfl
  dsimp only
  rw [hscratch]
  dsimp only
  rw [hreplace]

/-- Saving a record leads nowhere else than before. -/
theorem InOrder.found_saved (h : InOrder t root dir) (unit : String) (s : State) :
    (saveFile t root unit s).1.find root = .ok (dir, .directory) := by
  rw [saveFile_of_inOrder h unit s]
  refine find_of_kept h.found ?_ ?_
  · exact workingDir_put ..
  · intro l hl
    rw [entry?_put (h.hasRoom unit), if_neg]
    rintro rfl
    rcases hl with hpassable | hentry
    · exact h.not_passable unit hpassable
    · exact h.not_passable unit (.inl hentry)

/-- After a save there is still nothing but a file in the place of any record. -/
theorem InOrder.free_saved (h : InOrder t root dir) (unit other : String) (s : State) :
    entry? (saveFile t root unit s).1 (recordName other :: dir) = none ∨
      ∃ bytes,
        entry? (saveFile t root unit s).1 (recordName other :: dir) = some (.file bytes) := by
  rw [saveFile_of_inOrder h unit s]
  dsimp only
  rw [entry?_put (h.hasRoom unit)]
  split
  · exact .inr ⟨_, rfl⟩
  · exact h.free other

/-- A directory that is there is in order if nothing but files stands where records belong. -/
theorem InOrder.of_found (fits : ∀ unit, (recordPath root unit).refusal? = none)
    (scratch : (t.temporaryPath root temporaryName).refusal? = none)
    (found : t.find root = .ok (dir, .directory))
    (free : ∀ unit, t.entry? (recordName unit :: dir) = none ∨
      ∃ bytes, t.entry? (recordName unit :: dir) = some (.file bytes)) : InOrder t root dir := by
  have hdirectory : t.isDirectory root = true := by
    unfold isDirectory
    rw [found]
  have hmade := makeDirectories_of_isDirectory hdirectory
  refine ⟨fits, scratch, ?_, ?_, ?_, ?_⟩
  · rw [hmade]
  · rw [hmade]
    exact found
  · rw [hmade]
    exact free
  · rw [hmade]
    exact fun _ => rfl

/-- A unit has no state if there is no record once the directory is made. -/
theorem state?_loadFile_of_empty
    (found : (t.makeDirectories root).1.find root = .ok (dir, .directory))
    (empty : entry? (t.makeDirectories root).1 (recordName unit :: dir) = none) :
    (loadFile t root unit).state? = none := by
  cases hread : t.read (recordPath root unit) with
  | error e => exact state?_loadFile_of_error hread
  | ok bytes =>
    obtain ⟨hfits, -⟩ := read_eq_ok_iff.mp hread
    have hmade := (grown_makeDirectories t root).read_of_ok hread
    rw [read_recordPath found hfits (not_passable_of_free (.inl empty)), empty] at hmade
    cases hmade

/-- A directory without records is in order once it can be made. -/
theorem InOrder.of_empty (fits : ∀ unit, (recordPath root unit).refusal? = none)
    (scratch : (t.temporaryPath root temporaryName).refusal? = none)
    (made : (t.makeDirectories root).2 = .ok ())
    (found : (t.makeDirectories root).1.find root = .ok (dir, .directory))
    (empty : ∀ unit, entry? (t.makeDirectories root).1 (recordName unit :: dir) = none) :
    InOrder t root dir := by
  refine ⟨fits, scratch, made, found, fun unit => .inl (empty unit), fun unit => ?_⟩
  have hmissing : (t.makeDirectories root).1.read (recordPath root unit) = .error .notFound := by
    have hfree := not_passable_of_free (.inl (empty unit))
    rw [read_recordPath found (fits unit) hfree, empty]
  rw [state?_loadFile_of_error hmissing, state?_loadFile_of_empty found (empty unit)]

/-- Saving a record changes nothing through which a way goes. -/
theorem InOrder.altered_saved (h : InOrder t root dir) (unit : String) (s : State) :
    t.EndsAltered (saveFile t root unit s).1 := by
  have hgrown := grown_makeDirectories t root
  rw [saveFile_of_inOrder h]
  refine ⟨(workingDir_put ..).trans hgrown.workingDir, fun l => ?_⟩
  rw [entry?_put (h.hasRoom unit)]
  split
  · rename_i hl
    refine .inr ⟨fun hpassable => ?_, by simp⟩
    exact h.not_passable unit (hl ▸ hgrown.passable hpassable)
  · exact hgrown.altered.entry l

/-- A directory stays in order. -/
theorem InOrder.saved (h : InOrder t root dir) (unit : String) (s : State) :
    InOrder (saveFile t root unit s).1 root dir := by
  refine .of_found h.fits ?_ (h.found_saved unit s) fun other => h.free_saved unit other s
  rw [temporaryPath_congr (h.altered_saved unit s).workingDir]
  exact h.scratch

/-- The record of a unit after one was saved is the new one in the same place, or the one
that was there before in another. -/
theorem read_of_saved (h : InOrder t root dir) (unit other : String) (s : State) :
    (saveFile t root unit s).1.read (recordPath root other) =
      if recordName other = recordName unit then .ok (recordBytes unit s)
      else (t.makeDirectories root).1.read (recordPath root other) := by
  have hfree := not_passable_of_free (h.free_saved unit other s)
  rw [read_recordPath (h.found_saved unit s) (h.fits other) hfree,
    read_recordPath h.found (h.fits other) (h.not_passable other), saveFile_of_inOrder h unit s]
  dsimp only
  rw [entry?_put (h.hasRoom unit)]
  by_cases heq : recordName other = recordName unit
  · simp [heq]
  · simp [heq]

/-- A store in order loads what was just saved for the unit. -/
theorem state?_of_saved (h : InOrder t root dir) (unit : String) (s : State) :
    (loadFile (saveFile t root unit s).1 root unit).state? = some s := by
  have hread := read_of_saved h unit unit s
  rw [if_pos rfl] at hread
  rw [state?_loadFile_of_ok hread, openRecord_recordBytes]
  rfl

/-- A store in order loads for units with other records what it loaded before a save. -/
theorem state?_of_saved_of_ne (h : InOrder t root dir) (s : State)
    (hne : recordName other ≠ recordName unit) :
    (loadFile (saveFile t root unit s).1 root other).state? =
      (loadFile t root other).state? := by
  have hread := read_of_saved h unit other s
  rw [if_neg hne] at hread
  rw [state?_loadFile_congr hread, h.kept]

/-- What is there remains, but for the record that is replaced. -/
theorem InOrder.entry?_saved {l : Location} {entry : Entry} (h : InOrder t root dir)
    (unit : String) (s : State) (hl : l ≠ recordName unit :: dir)
    (hentry : t.entry? l = some entry) :
    entry? (saveFile t root unit s).1 l = some entry := by
  rw [saveFile_of_inOrder h, entry?_put (h.hasRoom unit), if_neg hl]
  exact (grown_makeDirectories t root).entry?_of_some hentry

/-- A file can be removed if a file or link stands at the last name of its path. -/
theorem unlink_iff : (∃ t', t.unlink p = .ok t') ↔
    ∃ d n entry, t.walk false p = .before d n ∧ t.entry? (n :: d) = some entry ∧
      entry ≠ .directory := by
  unfold unlink
  cases t.walk false p with
  | inside | link | failed => simp
  | before d n =>
    cases hentry : t.entry? (n :: d) with
    | none => simp [hentry]
    | some entry => cases entry <;> simp [hentry]

/-- A file that can be read can be removed, also once a record was saved. -/
theorem unlink_of_saved (h : InOrder t root dir) (unit : String) (s : State)
    (hread : t.read p = .ok bytes) :
    ∃ t', (saveFile t root unit s).1.unlink p = .ok t' := by
  have hremovable : ∃ t', t.unlink p = .ok t' := by
    cases hunlink : t.unlink p with
    | ok t' => exact ⟨t', rfl⟩
    | error e =>
      obtain ⟨e', herror⟩ := read_of_unlink_error hunlink
      rw [hread] at herror
      cases herror
  obtain ⟨d, n, entry, hwalk, hentry, hdirectory⟩ := unlink_iff.mp hremovable
  have hwalk' := (h.altered_saved unit s).walk_of_before hwalk
  refine unlink_iff.mpr ⟨d, n, ?_⟩
  by_cases heq : n :: d = recordName unit :: dir
  · refine ⟨.file (recordBytes unit s), hwalk', ?_, by simp⟩
    rw [saveFile_of_inOrder h, entry?_put (h.hasRoom unit), if_pos heq]
  · exact ⟨entry, hwalk', h.entry?_saved unit s heq hentry, hdirectory⟩

end Store

namespace Workspace

/-- The store takes states: it is in memory, or a directory in order. -/
def Working (w : Workspace) : Prop :=
  match w.store with
  | .memory _ => True
  | .full _ => False
  | .directory root => ∃ dir, Store.InOrder w.tree root dir

variable {w : Workspace} {unit other : String} {s : State}

/-- A store in order saves any state. -/
theorem Working.save_eq_ok (h : w.Working) (unit : String) (s : State) :
    (w.save unit s).2 = .ok () := by
  obtain ⟨t, store⟩ := w
  cases store with
  | memory rs => rfl
  | full rs => exact absurd h id
  | directory root =>
    obtain ⟨dir, horder⟩ := h
    rw [save_directory, Store.saveFile_of_inOrder horder]

/-- A store that takes states commits a state by saving it. -/
theorem Working.commit_eq (h : w.Working) (unit : String) (s : State) :
    w.commit unit s = ((w.save unit s).1, .stored) :=
  commit_of_save (h.save_eq_ok unit s)

/-- A store that takes states still does after a commit. -/
theorem Working.commit (h : w.Working) (unit : String) (s : State) :
    (w.commit unit s).1.Working := by
  rw [h.commit_eq]
  obtain ⟨t, store⟩ := w
  cases store with
  | memory rs => trivial
  | full rs => exact absurd h id
  | directory root =>
    obtain ⟨dir, horder⟩ := h
    exact ⟨dir, horder.saved unit s⟩

/-- What was committed is the state of the unit. -/
theorem Working.state?_commit (h : w.Working) (unit : String) (s : State) :
    (w.commit unit s).1.state? unit = some s := by
  rw [h.commit_eq]
  obtain ⟨t, store⟩ := w
  cases store with
  | memory rs => exact state?_memory.trans Records.find?_put_self
  | full rs => exact absurd h id
  | directory root =>
    obtain ⟨dir, horder⟩ := h
    rw [save_directory]
    exact Store.state?_of_saved horder unit s

/-- What was committed for another unit changes nothing, unless the digests are equal. -/
theorem Working.state?_commit_of_ne (h : w.Working) (s : State)
    (hne : Store.recordName other ≠ Store.recordName unit) :
    (w.commit unit s).1.state? other = w.state? other := by
  rw [h.commit_eq]
  obtain ⟨t, store⟩ := w
  cases store with
  | memory rs =>
    have hother : other ≠ unit := by
      rintro rfl
      exact hne rfl
    rw [save, state?_memory, state?_memory, Records.find?_put_of_ne hother]
  | full rs => exact absurd h id
  | directory root =>
    obtain ⟨dir, horder⟩ := h
    rw [save_directory]
    exact Store.state?_of_saved_of_ne horder s hne

end Workspace

end Recompile
