import Recompile.Proofs.FileTree.Staging
import Recompile.Store.Basic
import Recompile.Verdict

/-!
# Records and header lists are published as a whole

Records and header lists are published in the same way, so what holds of publishing a file
holds of both (`publication_allOrNothing`). Two cases are an exception to what a reader of the
path expects. A path that leads through a link in its own place cannot be read any more when
the file has taken the place of the link. And a temporary file stays where the system allows to
make it, but neither to rename nor to remove it (`not_forall_read_writeHeaders`).
-/

set_option autoImplicit false

namespace Recompile

open FileTree

/-- Storing a record is all or nothing. -/
theorem Store.allOrNothing_saveFile (t : FileTree) (root : Path) (unit : String) (s : State) :
    t.AllOrNothing root (recordPath root unit) (recordBytes unit s) (saveFile t root unit s) := by
  have hpublish := allOrNothing_publish t root (recordPath root unit) (recordBytes unit s)
  unfold saveFile
  generalize t.publish root (recordPath root unit) (recordBytes unit s) = outcome at hpublish ⊢
  obtain ⟨u, f | _⟩ := outcome
  · exact ⟨nofun, fun _ _ => hpublish.failed f rfl⟩
  · exact ⟨fun _ => hpublish.done rfl, nofun⟩

/-- Storing a record and writing a header list are all or nothing, for every tree and every
path. So they are in the steps in which they are done, wherever these may fail: making the
directories, filling a new file and renaming it. Only if that file cannot be removed either, it
is left beside all that there was. Without a fault the steps together do what publishing at once
does, under each name that a temporary file may get. -/
theorem publication_allOrNothing (t : FileTree) :
    (∀ root unit s, t.AllOrNothing root (Store.recordPath root unit) (Store.recordBytes unit s)
      (Store.saveFile t root unit s)) ∧
    (∀ headers p, t.AllOrNothing (headerDirectory p) p (Utf8.encode (renderHeaders headers))
      (writeHeaders t headers p)) ∧
    (∀ temp fault stuck dir p bytes,
      t.AllOrNothing dir p bytes (t.publishThrough temp fault stuck dir p bytes) ∨
        stuck = true ∧ (∃ f, (t.publishThrough temp fault stuck dir p bytes).2 = .error f) ∧
          ∃ made, t.LeftOver made dir (made.temporaryPath dir temp)
            (t.publishThrough temp fault stuck dir p bytes).1) ∧
    ∀ temp dir p bytes, Path.IsProper temp →
      Path.byteSize temp = Path.byteSize temporaryName →
      (∀ d, walk (t.makeDirectories dir).1 false
          (temporaryPath (t.makeDirectories dir).1 dir temp) = .before d temp →
        entry? (t.makeDirectories dir).1 (temp :: d) = none) →
      ((t.publishThrough temp none false dir p bytes).2 = .ok () ↔
          (t.publish dir p bytes).2 = .ok ()) ∧
        ∀ l, entry? (t.publishThrough temp none false dir p bytes).1 l =
          entry? (t.publish dir p bytes).1 l :=
  ⟨Store.allOrNothing_saveFile t, fun _ _ => allOrNothing_publish t _ _ _,
    publishThrough_cases t,
    fun _ _ p bytes hname hsize hfree => publishThrough_agrees hname hsize hfree p bytes⟩

/-- A header list for `/o/h` in an empty tree: written through a temporary file in `/o`, or not
at all. -/
theorem publication_allOrNothing_bare :
    let t := bare []
    let temp := ".tmpa1b2c3".toList
    let dir : Path := ⟨"/o".toList⟩
    let p : Path := ⟨"/o/h".toList⟩
    let bytes := Utf8.encode "/x\n".toList
    (Path.IsProper temp ∧ Path.byteSize temp = Path.byteSize temporaryName ∧
      ∀ d, walk (t.makeDirectories dir).1 false
          (temporaryPath (t.makeDirectories dir).1 dir temp) = .before d temp →
        entry? (t.makeDirectories dir).1 (temp :: d) = none) ∧
    entry? (t.publishThrough temp none false dir p bytes).1 [['h'], ['o']] = some (.file bytes) ∧
    t.AllOrNothing dir p bytes
      (t.publishThrough temp (some (.fill [] .busy)) false dir p bytes) := by
  intro t temp dir p bytes
  obtain ⟨-, -, hstaged, hagrees⟩ := publication_allOrNothing t
  have hname : Path.IsProper temp := by decide
  have hsize : Path.byteSize temp = Path.byteSize temporaryName := by decide
  have hplace : walk (t.makeDirectories dir).1 false
      (temporaryPath (t.makeDirectories dir).1 dir temp) = .before [['o']] temp := by
    decide +kernel
  have hfree : ∀ d, walk (t.makeDirectories dir).1 false
      (temporaryPath (t.makeDirectories dir).1 dir temp) = .before d temp →
        entry? (t.makeDirectories dir).1 (temp :: d) = none := by
    intro d hwalk
    cases hplace.symm.trans hwalk
    decide +kernel
  obtain ⟨-, hentry⟩ := hagrees temp dir p bytes hname hsize hfree
  refine ⟨⟨hname, hsize, hfree⟩, ?_, ?_⟩
  · rw [hentry]
    decide +kernel
  · exact (hstaged temp (some (.fill [] .busy)) false dir p bytes).resolve_right nofun

/-- A header list that takes the place of the link `/l` cannot be read by `/l/../l`. And a
temporary file that can be neither renamed nor removed is left. -/
theorem not_forall_read_writeHeaders :
    (¬ ∀ (t : FileTree) (headers : PathSet) (p : Path), (writeHeaders t headers p).2 = .ok () →
      (writeHeaders t headers p).1.read p = .ok (Utf8.encode (renderHeaders headers))) ∧
    ¬ ∀ (t : FileTree) (temp : Name) (fault : Option Fault) (stuck : Bool) (dir p : Path)
      (bytes : List UInt8),
      t.AllOrNothing dir p bytes (t.publishThrough temp fault stuck dir p bytes) := by
  constructor
  case left =>
    intro h
    let t : FileTree := ((bare []).put [['d']] .directory).put [['l']] (.link ⟨['/', 'd']⟩)
    let p : Path := ⟨"/l/../l".toList⟩
    have hdone : (writeHeaders t .empty p).2 = .ok () := by decide +kernel
    have hread : (writeHeaders t .empty p).1.read p = .error .notDirectory := by decide +kernel
    have hclaim := h t .empty p hdone
    rw [hread] at hclaim
    cases hclaim
  case right =>
    intro h
    let temp := ".tmpa1b2c3".toList
    let fault : Fault := .rename .permissionDenied
    let p : Path := ⟨"/h".toList⟩
    let bytes := Utf8.encode "/x\n".toList
    let outcome := (bare []).publishThrough temp fault true ⟨['/']⟩ p bytes
    have hfailed : outcome.2 = .error ⟨p, .permissionDenied⟩ := by decide +kernel
    have hleft : entry? outcome.1 [temp] = some (.file bytes) := by decide +kernel
    obtain ⟨-, hothers, -⟩ := (h (bare []) temp fault true ⟨['/']⟩ p bytes).failed _ hfailed
    cases (hothers [temp] (.file bytes) (by simp)).mp hleft

end Recompile
