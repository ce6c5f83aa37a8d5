import Recompile.Proofs.FileTree.Growth
import Recompile.Proofs.Store.Commit

/-!
# Changes that are not meant for a store

A run also writes files that are not records, and makes directories for them. A file that
is no record, put where no record was, leaves every unit its state
(`Store.state?_loadFile_of_write`). So do new directories, if no `..` step leads to the
directory of the store through what was missing (`Store.state?_loadFile_of_grown`).
-/

set_option autoImplicit false

namespace Recompile

namespace FileTree

variable {t t' : FileTree} {links : Nat} {dir d : Location} {n : Name} {steps : List Name}
  {p : Path} {bytes : List UInt8}

/-- A walk that follows links does not halt before one. -/
theorem not_link_of_walk {target : Path} (h : t.walk true p = .before d n) :
    t.entry? (n :: d) ≠ some (.link target) := by
  obtain ⟨dir', steps', hadv⟩ := exists_advance_of_follow (follow_of_walk h)
  exact (stops_of_advance hadv).2.2 rfl target

/-- A file is written where its path leads to, which is no place to go through. -/
theorem write_spec (h : t.write p bytes = .ok t') : ∃ d n,
    t' = t.put (n :: d) (.file bytes) ∧ t.walk true p = .before d n ∧ t.HasRoom (n :: d) ∧
      ¬ t.Passable (n :: d) := by
  obtain ⟨d, n, hwalk, hroom, rfl⟩ := write_eq_ok h
  refine ⟨d, n, rfl, hwalk, hroom, ?_⟩
  rintro (hentry | ⟨target, hentry⟩)
  · exact hroom.1 hentry
  · exact not_link_of_walk hwalk hentry

/-- A file that is written is in nobody's way. -/
theorem samePassages_of_write (h : t.write p bytes = .ok t') : t.SamePassages t' := by
  obtain ⟨d, n, rfl, -, hroom, hpassable⟩ := write_spec h
  intro loc hloc
  rw [Passable, Passable, entry?_put hroom] at hloc
  rw [entry?_put hroom, if_neg]
  rintro rfl
  rw [if_pos rfl] at hloc
  rcases hloc with hloc | hloc | ⟨target, hloc⟩
  · exact hpassable hloc
  · cases hloc
  · cases hloc

/-- Writing a file makes no link on the way of a path lead up. -/
theorem LinksDown.write {q : Path} (hlinks : t.LinksDown (t.asked true q))
    (h : t.write p bytes = .ok t') : t'.LinksDown (t'.asked true q) := by
  have hsame := samePassages_of_write h
  obtain ⟨d, n, hput, -⟩ := write_spec h
  rw [hsame.asked_eq (by rw [hput, workingDir_put])]
  intro loc hloc target hentry
  exact hlinks loc hloc target ((hsame loc (.inr (.inr ⟨target, hentry⟩))).symm.trans hentry)

/-- Writing a file leaves every directory one. -/
theorem isDirectory_of_write {q : Path} (hdirectory : t.isDirectory q = true)
    (h : t.write p bytes = .ok t') : t'.isDirectory q = true := by
  obtain ⟨loc, hfind⟩ := isDirectory_eq_true hdirectory
  obtain ⟨d, n, hput, -⟩ := write_spec h
  have hfind' : t'.find q = .ok (loc, .directory) := by
    apply find_of_kept hfind (by rw [hput, workingDir_put])
    intro l hl
    exact samePassages_of_write h l (.inl (hl.elim id .inl))
  unfold isDirectory
  rw [hfind']

end FileTree

namespace Store

variable {t t' : FileTree} {root p : Path} {unit : String} {bytes : List UInt8}

/-- A unit has the state that stands in its record. -/
theorem state?_loadFile_eq_some_iff {s : State} : (loadFile t root unit).state? = some s ↔
    ∃ bytes, t.read (recordPath root unit) = .ok bytes ∧
      Record.decode? bytes = some ⟨Record.currentVersion, unit, s⟩ := by
  cases hread : t.read (recordPath root unit) with
  | error e => simp [state?_loadFile_of_error hread]
  | ok bytes =>
    rw [state?_loadFile_of_ok hread, openRecord]
    cases hdecode : Record.decode? bytes with
    | none => simp [Loaded.state?, hdecode]
    | some r =>
      obtain ⟨version, name, state⟩ := r
      by_cases hversion : version = Record.currentVersion
      · by_cases hname : name = unit
        · simp [Loaded.state?, hdecode, hversion, hname]
        · simp [Loaded.state?, hdecode, hversion, hname]
      · simp [Loaded.state?, hdecode, hversion]

/-- A change to one file whose new bytes are no record leaves a unit its state if its record
is still read as before. -/
theorem state?_loadFile_of_patched (h : t.Patched t' bytes) (hnew : Record.decode? bytes = none)
    (hkept : ∀ found r, t.read (recordPath root unit) = .ok found →
      Record.decode? found = some r → t'.read (recordPath root unit) = .ok found) :
    (loadFile t' root unit).state? = (loadFile t root unit).state? := by
  rcases keptOrLost_of_patched h (state?_openRecord_of_undecodable hnew) with hlost | hsame
  · cases hstate : (loadFile t root unit).state? with
    | none => exact hlost
    | some s =>
      obtain ⟨found, hread, hdecode⟩ := state?_loadFile_eq_some_iff.mp hstate
      exact state?_loadFile_eq_some_iff.mpr ⟨found, hkept found _ hread hdecode, hdecode⟩
  · exact hsame

/-- Writing a file that is no record, where none was before, leaves a unit its state. -/
theorem state?_loadFile_of_write (h : t.write p bytes = .ok t')
    (hold : ∀ old, t.read p = .ok old → Record.decode? old = none)
    (hnew : Record.decode? bytes = none) :
    (loadFile t' root unit).state? = (loadFile t root unit).state? := by
  apply state?_loadFile_of_patched (FileTree.patched_of_write h) hnew
  intro found r hread hdecode
  obtain ⟨d, n, rfl, hwalk, hroom, hpassable⟩ := FileTree.write_spec h
  apply FileTree.read_of_kept hread (FileTree.workingDir_put ..)
  intro l hl
  rw [FileTree.entry?_put hroom, if_neg]
  rintro rfl
  rcases hl with hl | hl
  · exact hpassable hl
  · rw [hold found (FileTree.read_of_walk hwalk hl)] at hdecode
    cases hdecode

/-- More directories leave a unit its state. -/
theorem state?_loadFile_of_grown (h : t.Grown t')
    (hlinks : t.LinksDown (t.asked true (recordPath root unit)))
    (hroot : t.isDirectory root = true ∨ ['.', '.'] ∉ root.steps) :
    (loadFile t' root unit).state? = (loadFile t root unit).state? := by
  have hread (bytes : List UInt8) : t'.read (recordPath root unit) = .ok bytes ↔
      t.read (recordPath root unit) = .ok bytes := by
    rw [recordPath_eq]
    rcases hroot with hdir | hup
    · exact h.read_join_iff hlinks hdir (plain_recordName unit) (recordName_ne_up unit)
    · apply h.read_iff hlinks
      rw [recordPath_eq, Path.lookupSteps_join (plain_recordName unit)]
      intro hmem
      rcases List.mem_append.mp hmem with hmem | hmem
      · exact hup hmem
      · exact recordName_ne_up unit (List.mem_singleton.mp hmem).symm
  apply Option.ext
  intro s
  simp only [state?_loadFile_eq_some_iff, hread]

end Store

end Recompile
