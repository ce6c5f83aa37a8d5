import Recompile.Proofs.FileTree.Ends
import Recompile.Proofs.FileTree.Publishing
import Recompile.Proofs.FileTree.WorkingPath

/-!
# Publishing through a temporary file

A file is published by writing its content to a new file in the directory of the path and
renaming that file to the path (`FileTree.publishThrough`). Creating the file, filling it or
renaming it may fail at any time, and then the file is removed by its path, which may fail as
well. If it does not, all or nothing has happened, however the rest ends
(`FileTree.allOrNothing_publishThrough`). If it does, the temporary file is all that is left
(`FileTree.publishThrough_cases`). Without a fault the outcome is that of publishing at once
(`FileTree.publishThrough_agrees`), which leaves the temporary file out.
-/

set_option autoImplicit false

namespace Recompile.FileTree

variable {t made u v : FileTree} {d : Location} {n temp : Name} {loc place : Location}
  {dir p scratch : Path} {bytes : List UInt8}

/-! ## The place of a file that is renamed -/

/-- The place that a file gets by being renamed to a path. -/
def renamePlace (t : FileTree) (p : Path) : Except OsError Location :=
  if '\x00' ∈ p.chars then .error .invalidArgument
  else
    match t.walkToLast p with
    | .inside _ => .error .busy
    | .before dir n =>
      if p.endsWithSlash then .error .notDirectory
      else
        match t.entry? (n :: dir) with
        | some .directory => .error .isDirectory
        | _ => .ok (n :: dir)
    | .link _ _ _ => .error .tooManyLinks
    | .failed e => .error e

/-- A file is replaced at the place that a file gets by being renamed. -/
theorem replace_eq_map (t : FileTree) (p : Path) (bytes : List UInt8) :
    t.replace p bytes = (t.renamePlace p).map fun place => t.put place (.file bytes) := by
  unfold replace renamePlace
  split
  · rfl
  · cases t.walkToLast p with
    | inside | link | failed => rfl
    | before d n =>
      dsimp only
      split
      · rfl
      · cases t.entry? (n :: d) with
        | none => rfl
        | some entry => cases entry <;> rfl

/-- A file can be renamed to a path that leads before a name which is not that of a
directory. -/
theorem renamePlace_eq_ok_iff : t.renamePlace p = .ok place ↔
    '\x00' ∉ p.chars ∧ p.endsWithSlash = false ∧ ∃ d n, place = n :: d ∧
      t.walkToLast p = .before d n ∧ t.entry? (n :: d) ≠ some .directory := by
  unfold renamePlace
  by_cases hnul : '\x00' ∈ p.chars
  · simp [hnul]
  · cases hwalk : t.walkToLast p with
    | inside | link | failed => simp [hnul]
    | before d n =>
      by_cases hslash : p.endsWithSlash = true
      · simp [hnul, hslash]
      · cases hentry : t.entry? (n :: d) with
        | none => simp [hnul, hslash, hentry, eq_comm]
        | some entry => cases entry <;> simp [hnul, hslash, hentry, eq_comm]

/-- There is room for a file in the place to which it is renamed. -/
theorem hasRoom_of_renamePlace (h : t.renamePlace p = .ok place) : t.HasRoom place := by
  obtain ⟨-, -, d, n, rfl, hwalk, hnot⟩ := renamePlace_eq_ok_iff.mp h
  exact hasRoom_of_walkToLast hwalk hnot

/-- Without a slash at its end a path leads to its last name however it is looked up. -/
theorem walk_of_walkToLast (hslash : p.endsWithSlash = false) :
    t.walk false p = t.walkToLast p := by
  simp [walk, walkToLast, Path.lookupSteps, hslash]

/-- Publishing at once is all or nothing. -/
theorem allOrNothing_publish (t : FileTree) (dir p : Path) (bytes : List UInt8) :
    AllOrNothing t dir p bytes (t.publish dir p bytes) := by
  have hmade := furnished_makeDirectories t dir
  rcases publish_cases t dir p bytes with ⟨t', hreplace, houtcome⟩ | ⟨f, houtcome⟩
  · rw [houtcome]
    refine ⟨fun _ => ?_, nofun⟩
    rw [replace_eq_map] at hreplace
    cases hplace : (t.makeDirectories dir).1.renamePlace p with
    | error e =>
      rw [hplace] at hreplace
      cases hreplace
    | ok place =>
      rw [hplace] at hreplace
      cases hreplace
      have hroom := hasRoom_of_renamePlace hplace
      obtain ⟨-, hslash, d, n, rfl, hwalk, hnot⟩ := renamePlace_eq_ok_iff.mp hplace
      exact ⟨_, _, hmade.publishedAt ((walk_of_walkToLast hslash).trans hwalk) hnot
        (workingDir_put ..) (entry?_put hroom)⟩
  · rw [houtcome]
    exact hmade.allOrNothing_of_error p bytes

/-! ## Operations on a temporary file -/

/-- Makes an empty file, which must be new, and opens it: an open file is known by its place,
whatever becomes of its path. -/
def createNew (t : FileTree) (p : Path) : Except OsError (FileTree × Location) :=
  match t.walk false p with
  | .inside _ => .error .exists
  | .before dir n =>
    match t.entry? (n :: dir) with
    | some _ => .error .exists
    | none => .ok (t.put (n :: dir) (.file []), n :: dir)
  | .link _ _ _ => .error .tooManyLinks
  | .failed e => .error e

/-- Moves a file from the place of the last name of a path to that of another path. Only files
are moved here. -/
def renameFile (t : FileTree) (source p : Path) : Except OsError FileTree :=
  match t.walk false source with
  | .before dir n =>
    match t.entry? (n :: dir), t.renamePlace p with
    | some (.file bytes), .ok place => .ok ((t.erase (n :: dir)).put place (.file bytes))
    | some (.file _), .error e => .error e
    | _, _ => .error .notFound
  | .failed e => .error e
  | _ => .error .notFound

/-- Removes a temporary file that is not needed any more. Nobody is told if that fails, be it
for its path or because the system does not allow it. -/
def discard (t : FileTree) (stuck : Bool) (scratch : Path) : FileTree :=
  if stuck then t
  else
    match t.unlink scratch with
    | .ok t' => t'
    | .error _ => t

/-- A new file is made where its path leads to and nothing stands. -/
theorem createNew_eq_ok (h : t.createNew scratch = .ok (u, loc)) :
    ∃ d n, loc = n :: d ∧ t.walk false scratch = .before d n ∧ t.entry? (n :: d) = none ∧
      u = t.put (n :: d) (.file []) := by
  unfold createNew at h
  split at h
  · cases h
  · rename_i d n hwalk
    split at h
    · cases h
    · rename_i hentry
      cases h
      exact ⟨d, n, rfl, hwalk, hentry, rfl⟩
  · cases h
  · cases h

/-- A new file is in nobody's way, whatever is written to it. -/
theorem filed_of_createNew (h : t.createNew scratch = .ok (u, loc)) (bytes : List UInt8) :
    t.Filed (u.put loc (.file bytes)) loc bytes := by
  obtain ⟨d, n, rfl, hwalk, hmissing, rfl⟩ := createNew_eq_ok h
  have hroom : t.HasRoom (n :: d) := hasRoom_of_walk hwalk (by simp [hmissing])
  have hempty : entry? (t.put (n :: d) (.file [])) (n :: d) = some (.file []) := by
    rw [entry?_put hroom, if_pos rfl]
  have habove : entry? (t.put (n :: d) (.file [])) d = some .directory :=
    entry?_above (hempty ▸ Option.some_ne_none _)
  have hroom' : HasRoom (t.put (n :: d) (.file [])) (n :: d) :=
    hasRoom_cons habove (by simp [hempty])
  refine ⟨by simp, fun l => ?_, by simp [Passable, hmissing]⟩
  rw [entry?_put hroom', entry?_put hroom]
  split <;> rfl

/-! ## A file that is in nobody's way -/

namespace Filed

/-- A tree with one more file has the same directories. -/
theorem directory_iff (h : t.Filed u loc bytes) (l : Location) :
    u.entry? l = some .directory ↔ t.entry? l = some .directory := by
  by_cases heq : l = loc
  · subst heq
    have hnot : t.entry? l ≠ some .directory := fun hdir => h.impassable (.inl hdir)
    simp [h.entry_self, hnot]
  · rw [h.entry_of_ne heq]

/-- A file makes no difference to the place that another one gets by being renamed. -/
theorem renamePlace_iff (h : t.Filed u loc bytes) :
    u.renamePlace p = .ok place ↔ t.renamePlace p = .ok place := by
  have hwalk (d : Location) (n : Name) :
      u.walkToLast p = .before d n ↔ t.walkToLast p = .before d n :=
    ⟨h.altered_symm.walkToLast_of_before, h.altered.walkToLast_of_before⟩
  simp only [renamePlace_eq_ok_iff, hwalk, ne_eq, h.directory_iff]

/-- A new file that is removed by its path leaves the tree as it was. -/
theorem unlink (h : t.Filed u (n :: d) bytes) (hwalk : t.walk false scratch = .before d n)
    (hmissing : t.entry? (n :: d) = none) :
    ∃ v, u.unlink scratch = .ok v ∧ v.workingDir = t.workingDir ∧ ∀ l, v.entry? l = t.entry? l := by
  have hnot : u.entry? (n :: d) ≠ some .directory := by simp [h.entry_self]
  refine ⟨u.erase (n :: d), ?_, (workingDir_erase ..).trans h.workingDir, fun l => ?_⟩
  · unfold FileTree.unlink
    simp only [h.altered.walk_of_before hwalk, h.entry_self]
  · rw [entry?_erase hnot]
    split
    · rename_i heq
      rw [heq, hmissing]
    · exact h.entry_of_ne ‹_›

/-- A new file that is renamed leaves its own place as it was. -/
theorem renameFile (h : t.Filed u (n :: d) bytes) (hwalk : t.walk false scratch = .before d n)
    (hmissing : t.entry? (n :: d) = none) :
    (∃ e, u.renameFile scratch p = .error e ∧ ∀ place, t.renamePlace p ≠ .ok place) ∨
      ∃ v place, u.renameFile scratch p = .ok v ∧ t.renamePlace p = .ok place ∧
        v.workingDir = t.workingDir ∧
          ∀ l, v.entry? l = if l = place then some (.file bytes) else t.entry? l := by
  have hwalk' : u.walk false scratch = .before d n := h.altered.walk_of_before hwalk
  unfold FileTree.renameFile
  simp only [hwalk', h.entry_self]
  cases hplace : u.renamePlace p with
  | error e =>
    refine .inl ⟨e, rfl, fun place hplace' => ?_⟩
    rw [h.renamePlace_iff.mpr hplace'] at hplace
    cases hplace
  | ok place =>
    have hnot : u.entry? (n :: d) ≠ some .directory := by simp [h.entry_self]
    have hroom : HasRoom (u.erase (n :: d)) place := by
      obtain ⟨-, -, d', n', rfl, hwalk', hnot'⟩ := renamePlace_eq_ok_iff.mp hplace
      have hdir := directory_of_walkToLast hwalk'
      refine hasRoom_cons ?_ ?_
      · rw [entry?_erase hnot, if_neg]
        · exact hdir
        · rintro rfl
          exact hnot hdir
      · rw [entry?_erase hnot]
        split
        · simp
        · exact hnot'
    refine .inr ⟨_, place, rfl, h.renamePlace_iff.mp hplace, ?_, fun l => ?_⟩
    · rw [workingDir_put, workingDir_erase, h.workingDir]
    · rw [entry?_put hroom, entry?_erase hnot]
      by_cases hself : l = n :: d
      · rw [if_pos hself, hself, hmissing]
      · rw [if_neg hself, h.entry_of_ne hself]

end Filed

/-! ## Publishing through a temporary file -/

/-- What may go wrong while a file is published, apart from what the tree and the paths
do not allow. -/
inductive Fault where
  /-- No new file can be made. -/
  | create (e : OsError)
  /-- The file cannot be filled to the end, or what has been written is not safe. -/
  | fill (written : List UInt8) (e : OsError)
  /-- The file cannot be renamed. -/
  | rename (e : OsError)
  deriving DecidableEq, Repr

/-- Puts a complete file in the place of the file or link that has its name: a temporary
file of a given name in a directory is filled and then renamed. If anything fails after it was
made, it is discarded. -/
def replaceThrough (t : FileTree) (temp : Name) (fault : Option Fault) (stuck : Bool)
    (dir p : Path) (bytes : List UInt8) : FileTree × Except IoFailure Unit :=
  let scratch := t.temporaryPath dir temp
  match fault, t.createNew scratch with
  | some (.create e), _ => (t, .error ⟨dir, e⟩)
  | _, .error e => (t, .error ⟨dir, e⟩)
  | some (.fill written e), .ok (u, loc) =>
    ((u.put loc (.file written)).discard stuck scratch, .error ⟨scratch, e⟩)
  | some (.rename e), .ok (u, loc) =>
    ((u.put loc (.file bytes)).discard stuck scratch, .error ⟨p, e⟩)
  | none, .ok (u, loc) =>
    let full := u.put loc (.file bytes)
    match full.renameFile scratch p with
    | .error e => (full.discard stuck scratch, .error ⟨p, e⟩)
    | .ok u => (u, .ok ())

/-- Publishes a file through a temporary file in its directory, which is made if it is
missing. -/
def publishThrough (t : FileTree) (temp : Name) (fault : Option Fault) (stuck : Bool)
    (dir p : Path) (bytes : List UInt8) : FileTree × Except IoFailure Unit :=
  match t.makeDirectories dir with
  | (made, .error e) => (made, .error ⟨dir, e⟩)
  | (made, .ok ()) => made.replaceThrough temp fault stuck dir p bytes

/-- A tree has one more file, in the place of the last name of a path, where nothing was. -/
structure Littered (t : FileTree) (scratch : Path) (u : FileTree) : Prop where
  workingDir : u.workingDir = t.workingDir
  entry : ∃ d n written, t.walk false scratch = .before d n ∧ t.entry? (n :: d) = none ∧
    ∀ l, u.entry? l = if l = n :: d then some (.file written) else t.entry? l

/-- A new file is gone once it was discarded, or that was not allowed. -/
theorem discard_of_createNew (h : t.createNew scratch = .ok (u, loc)) (bytes : List UInt8)
    (stuck : Bool) :
    let v := (u.put loc (.file bytes)).discard stuck scratch
    v.workingDir = t.workingDir ∧ (∀ l, v.entry? l = t.entry? l) ∨
      stuck = true ∧ t.Littered scratch v := by
  have hfiled := filed_of_createNew h bytes
  obtain ⟨d, n, rfl, hwalk, hmissing, -⟩ := createNew_eq_ok h
  intro v
  cases stuck with
  | false =>
    left
    obtain ⟨v', hunlink, hkept⟩ := hfiled.unlink hwalk hmissing
    have hv : v = v' := by
      show FileTree.discard _ false scratch = v'
      unfold FileTree.discard
      simp only [Bool.false_eq_true, if_false, hunlink]
    rw [hv]
    exact hkept
  | true => exact .inr ⟨rfl, hfiled.workingDir, d, n, bytes, hwalk, hmissing, hfiled.entry⟩

/-- What a complete file takes the place of is all that changes, or nothing does, or the
temporary file is left because it could not be removed. -/
theorem replaceThrough_cases {fault : Option Fault} {stuck : Bool} {result : Except IoFailure Unit}
    (houtcome : t.replaceThrough temp fault stuck dir p bytes = (u, result)) :
    (∃ place, t.renamePlace p = .ok place ∧ result = .ok () ∧ u.workingDir = t.workingDir ∧
        ∀ l, u.entry? l = if l = place then some (.file bytes) else t.entry? l) ∨
      ∃ f, result = .error f ∧
        (u.workingDir = t.workingDir ∧ (∀ l, u.entry? l = t.entry? l) ∨
          stuck = true ∧ t.Littered (t.temporaryPath dir temp) u) := by
  unfold replaceThrough at houtcome
  dsimp only at houtcome
  cases hnew : t.createNew (t.temporaryPath dir temp) with
  | error e =>
    -- With no file made there is nothing to discard, whatever the fault.
    rw [hnew] at houtcome
    rcases fault with _ | _ | _ | _ <;> cases houtcome <;>
      exact .inr ⟨_, rfl, .inl ⟨rfl, fun _ => rfl⟩⟩
  | ok new =>
    obtain ⟨made, loc⟩ := new
    rw [hnew] at houtcome
    cases fault with
    | none =>
      have hfiled := filed_of_createNew hnew bytes
      obtain ⟨d, n, rfl, hwalk, hmissing, -⟩ := createNew_eq_ok hnew
      dsimp only at houtcome
      rcases hfiled.renameFile (p := p) hwalk hmissing with
        ⟨e, hrename, -⟩ | ⟨v, place, hrename, hplace, hdir, hentry⟩
      · rw [hrename] at houtcome
        cases houtcome
        exact .inr ⟨_, rfl, discard_of_createNew hnew bytes stuck⟩
      · rw [hrename] at houtcome
        cases houtcome
        exact .inl ⟨place, hplace, rfl, hdir, hentry⟩
    | some fault =>
      cases fault with
      | create e =>
        cases houtcome
        exact .inr ⟨_, rfl, .inl ⟨rfl, fun _ => rfl⟩⟩
      | fill written e =>
        cases houtcome
        exact .inr ⟨_, rfl, discard_of_createNew hnew written stuck⟩
      | rename e =>
        cases houtcome
        exact .inr ⟨_, rfl, discard_of_createNew hnew bytes stuck⟩

/-- A tree in which nothing was published, but a temporary file has been left in it. Directories
may have been made, and all that there was is as before. -/
structure LeftOver (t made : FileTree) (dir scratch : Path) (u : FileTree) : Prop where
  furnished : t.Furnished dir made
  littered : made.Littered scratch u
  others : ∀ loc held, t.entry? loc = some held → u.entry? loc = some held
  read : ∀ q b, t.read q = .ok b → u.read q = .ok b

/-- A file left in a furnished tree is left over in it. -/
theorem Littered.leftOver (h : made.Littered scratch u) (hmade : t.Furnished dir made) :
    LeftOver t made dir scratch u := by
  obtain ⟨hdir, d, n, written, hwalk, hmissing, hentry⟩ := h
  have hfiled : made.Filed u (n :: d) written := ⟨hdir, hentry, by simp [Passable, hmissing]⟩
  have hkept (loc : Location) (held : Entry) (h : made.entry? loc = some held) :
      u.entry? loc = some held := by
    rw [hfiled.entry_of_ne, h]
    rintro rfl
    rw [hmissing] at h
    cases h
  refine ⟨hmade, ⟨hdir, d, n, written, hwalk, hmissing, hentry⟩, fun loc held h => ?_,
    fun q b hread => ?_⟩
  · exact hkept loc held (hmade.grown.entry?_of_some h)
  · obtain ⟨e, m, hway, hfile⟩ := walk_of_read (hmade.grown.read_of_ok hread)
    exact read_of_walk (hfiled.altered.walk_of_before hway) (hkept _ _ hfile)

/-- Publishing through a temporary file is all or nothing, whatever goes wrong, unless the
temporary file cannot be removed. -/
theorem publishThrough_cases (t : FileTree) (temp : Name) (fault : Option Fault) (stuck : Bool)
    (dir p : Path) (bytes : List UInt8) :
    let outcome := t.publishThrough temp fault stuck dir p bytes
    AllOrNothing t dir p bytes outcome ∨ stuck = true ∧ (∃ f, outcome.2 = .error f) ∧
      ∃ made, LeftOver t made dir (made.temporaryPath dir temp) outcome.1 := by
  have hmade := furnished_makeDirectories t dir
  unfold publishThrough
  generalize t.makeDirectories dir = result at hmade ⊢
  obtain ⟨made, e | _⟩ := result
  · exact .inl (hmade.allOrNothing_of_error p bytes)
  · dsimp only at hmade ⊢
    generalize houtcome : made.replaceThrough temp fault stuck dir p bytes = outcome
    obtain ⟨u, result⟩ := outcome
    rcases replaceThrough_cases houtcome with
      ⟨place, hplace, rfl, hdir, hentry⟩ | ⟨f, rfl, ⟨hdir, hentry⟩ | ⟨hstuck, hlittered⟩⟩
    · obtain ⟨-, hslash, d, n, rfl, hwalk, hnot⟩ := renamePlace_eq_ok_iff.mp hplace
      refine .inl ⟨fun _ => ⟨made, n :: d, ?_⟩, nofun⟩
      exact hmade.publishedAt ((walk_of_walkToLast hslash).trans hwalk) hnot hdir hentry
    · exact .inl ((hmade.congr hdir hentry).allOrNothing_of_error p bytes)
    · exact .inr ⟨hstuck, ⟨f, rfl⟩, made, hlittered.leftOver hmade⟩

/-- Publishing through a temporary file that can be removed is all or nothing, whatever else
goes wrong. -/
theorem allOrNothing_publishThrough (t : FileTree) (temp : Name) (fault : Option Fault)
    (dir p : Path) (bytes : List UInt8) :
    AllOrNothing t dir p bytes (t.publishThrough temp fault false dir p bytes) := by
  rcases publishThrough_cases t temp fault false dir p bytes with hdone | ⟨hstuck, -⟩
  · exact hdone
  · cases hstuck

/-! ## Without a fault -/

/-- A directory that was made is found. -/
theorem Made.find (h : t.Made p u) : ∃ d, u.find p = .ok (d, .directory) := by
  rcases h with hmake | ⟨hdirectory, rfl⟩
  · obtain ⟨d, n, hwalk, hmissing, -, rfl⟩ := makeDirectory_eq_ok hmake
    exact ⟨_, find_of_makeDirectory hwalk hmissing⟩
  · exact isDirectory_eq_true hdirectory

/-- Once a chain of directories was made, its path leads into the last one; the empty path
stands for the working directory. -/
theorem follow_inside_of_makeDirectories (hmade : t.makeDirectories dir = (made, .ok ()))
    (hname : Path.IsProper temp) :
    ∃ d, made.follow false linkLimit (origin made.workingDir dir) (dir.steps ++ [temp]) =
      .before d temp := by
  by_cases hnil : dir.chars = []
  · obtain rfl : dir = ⟨[]⟩ := by rw [← hnil]
    have hlast : made.advance false made.workingDir [temp] = .before made.workingDir temp :=
      advance_single_of_not_link hname.isName hname.not_long nofun
    refine ⟨made.workingDir, ?_⟩
    show made.follow false linkLimit made.workingDir [temp] = _
    rw [follow_of_advance (by simp [hlast]), hlast]
  · obtain ⟨t', hlast⟩ : ∃ t' : FileTree, t'.Made dir made := by
      unfold makeDirectories at hmade
      rw [makeDirectoriesWithin_eq_ok_iff hnil] at hmade
      rcases hmade with hlast | ⟨-, -, t', -, -, hlast⟩
      · exact ⟨t, hlast⟩
      · exact ⟨t', hlast⟩
    obtain ⟨d, hfind⟩ := hlast.find
    exact ⟨d, follow_inside_of_find hname hfind⟩

/-- A temporary file whose name is free can be made unless its path is refused. -/
theorem createNew_temporaryPath (hmade : t.makeDirectories dir = (made, .ok ()))
    (hname : Path.IsProper temp)
    (hfree : ∀ d, made.walk false (made.temporaryPath dir temp) = .before d temp →
      made.entry? (temp :: d) = none)
    (hfits : (made.temporaryPath dir temp).refusal? = none) :
    ∃ new, made.createNew (made.temporaryPath dir temp) = .ok new := by
  obtain ⟨d, hinside⟩ := follow_inside_of_makeDirectories hmade hname
  have hslash : (made.temporaryPath dir temp).endsWithSlash = false := by
    have habs := isAbsolute_written_out made dir
    exact Path.not_endsWithSlash_join hname.plain (Path.chars_ne_nil_of_isAbsolute habs)
  have hwalk : made.walk false (made.temporaryPath dir temp) = .before d temp :=
    (walk_of_walkToLast hslash).trans (walkToLast_temporaryPath hname hfits hinside)
  unfold createNew
  simp only [hwalk, hfree d hwalk]
  exact ⟨_, rfl⟩

/-- Without a fault a temporary file makes no difference: under a free name of the usual
length the outcome is that of publishing at once. -/
theorem publishThrough_agrees (hname : Path.IsProper temp)
    (hsize : Path.byteSize temp = Path.byteSize temporaryName)
    (hfree : ∀ d, walk (t.makeDirectories dir).1 false
        (temporaryPath (t.makeDirectories dir).1 dir temp) = .before d temp →
      entry? (t.makeDirectories dir).1 (temp :: d) = none) (p : Path) (bytes : List UInt8) :
    ((t.publishThrough temp none false dir p bytes).2 = .ok () ↔
        (t.publish dir p bytes).2 = .ok ()) ∧
      ∀ l, entry? (t.publishThrough temp none false dir p bytes).1 l =
        entry? (t.publish dir p bytes).1 l := by
  have husual : Path.IsProper temporaryName := by decide
  unfold publishThrough publish
  cases hmade : t.makeDirectories dir with
  | mk made result =>
    rw [hmade] at hfree
    cases result with
    | error e => exact ⟨⟨nofun, nofun⟩, fun _ => rfl⟩
    | ok =>
      dsimp only at hfree ⊢
      -- Publishing at once asks whether a temporary file could be made; which name it has does
      -- not matter, only how long it is.
      rw [← refusal?_temporaryPath_congr hname husual hsize]
      unfold replaceThrough
      cases hrefusal : (made.temporaryPath dir temp).refusal? with
      | some e =>
        have hcreate : made.createNew (made.temporaryPath dir temp) = .error e := by
          unfold createNew walk
          simp only [hrefusal]
        dsimp only
        rw [hcreate]
        exact ⟨⟨nofun, nofun⟩, fun _ => rfl⟩
      | none =>
        obtain ⟨⟨u, loc⟩, hnew⟩ := createNew_temporaryPath hmade hname hfree hrefusal
        have hfiled := filed_of_createNew hnew bytes
        have hdiscard := discard_of_createNew hnew bytes false
        obtain ⟨d, n, rfl, hwalk, hmissing, -⟩ := createNew_eq_ok hnew
        simp only [hnew, replace_eq_map]
        -- Either the file cannot be renamed and is removed, or it is where it would be put at
        -- once.
        rcases hfiled.renameFile (p := p) hwalk hmissing with
          ⟨e, hrename, hnone⟩ | ⟨v, place, hrename, hplace, -, hentry⟩
        · cases hplace : made.renamePlace p with
          | ok place => exact absurd hplace (hnone place)
          | error e' =>
            rw [hrename]
            refine ⟨⟨nofun, nofun⟩, ?_⟩
            exact (hdiscard.resolve_right fun h => nomatch h.1).2
        · rw [hrename, hplace]
          refine ⟨⟨fun _ => rfl, fun _ => rfl⟩, fun l => ?_⟩
          exact (hentry l).trans (entry?_put (hasRoom_of_renamePlace hplace) l).symm

end Recompile.FileTree
