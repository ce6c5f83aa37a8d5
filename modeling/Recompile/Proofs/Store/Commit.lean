import Recompile.Proofs.FileTree.Barren
import Recompile.Proofs.State.RoundTrip
import Recompile.Workspace

/-!
# What a store has after a change

Storing the state of a unit, forgetting it, or destroying its record leaves each unit with
the state it had, with none, or, for the unit that was stored, with the new state. So no
older state of a unit can come back through the store (`Workspace.state?_commit`,
`Workspace.keptOrLost_commit`, `Workspace.state?_forget`). For a directory store this
rests on the name of the unit inside each record, so nothing is assumed of the digests
that name the files.
-/

set_option autoImplicit false

namespace Recompile

/-- A state is kept, or it is lost. -/
def KeptOrLost (before after : Option State) : Prop :=
  after = none ∨ after = before

namespace KeptOrLost

/-- A state is itself, so it is not lost. -/
theorem refl (s : Option State) : KeptOrLost s s :=
  .inr rfl

/-- What was kept or lost and then kept or lost again is kept or lost. -/
theorem trans {a b c : Option State} (hab : KeptOrLost a b) (hbc : KeptOrLost b c) :
    KeptOrLost a c := by
  rcases hbc with rfl | rfl
  · exact .inl rfl
  · exact hab

end KeptOrLost

/-! ## Records in memory -/

namespace Records

variable {rs : Records} {unit other : String} {s : State}

/-- A unit whose record was removed has none. -/
theorem find?_remove_self : (rs.remove unit).find? unit = none := by
  have hnone : List.find? (fun r => r.1 = unit) (rs.remove unit) = none := by
    rw [List.find?_eq_none]
    intro r hr
    simpa using (List.mem_filter.mp hr).2
  rw [find?, hnone]
  rfl

/-- Removing the record of a unit leaves those of others. -/
theorem find?_remove_of_ne (h : other ≠ unit) : (rs.remove unit).find? other = rs.find? other := by
  unfold find? remove
  rw [List.find?_filter]
  congr 2
  funext r
  by_cases hr : r.1 = other
  · simp [hr, h]
  · simp [hr]

/-- A unit has the record that was put for it. -/
theorem find?_put_self : (rs.put unit s).find? unit = some s := by
  simp [find?, put]

/-- Putting a record for a unit leaves those of others. -/
theorem find?_put_of_ne (h : other ≠ unit) : (rs.put unit s).find? other = rs.find? other := by
  have hput : (rs.put unit s).find? other = (rs.remove unit).find? other := by
    simp [find?, put, h.symm]
  rw [hput, find?_remove_of_ne h]

end Records

/-! ## Records in files -/

namespace Store

variable {t t' : FileTree} {root p : Path} {unit other : String} {s : State}
  {bytes : List UInt8}

/-- The bytes that are stored for a unit open as its state. -/
theorem openRecord_recordBytes : openRecord p unit (recordBytes unit s) = .state s := by
  have hversion : Record.currentVersion < UInt32.size := by decide
  rw [openRecord, recordBytes, Record.decode?_encode hversion]
  simp

/-- For another unit the bytes that are stored for a unit are no state. -/
theorem state?_openRecord_of_ne (h : other ≠ unit) :
    (openRecord p other (recordBytes unit s)).state? = none := by
  have hversion : Record.currentVersion < UInt32.size := by decide
  rw [openRecord, recordBytes, Record.decode?_encode hversion]
  simp [h.symm, Loaded.state?]

/-- Bytes that are no record give no state. -/
theorem state?_openRecord_of_undecodable (h : Record.decode? bytes = none) :
    (openRecord p unit bytes).state? = none := by
  rw [openRecord, h]
  rfl

/-- The state that is loaded is the one in the bytes of the record's file. -/
theorem state?_loadFile_of_ok (h : t.read (recordPath root unit) = .ok bytes) :
    (loadFile t root unit).state? = (openRecord (recordPath root unit) unit bytes).state? := by
  simp only [loadFile, h]

/-- Without a record that can be read there is no state. -/
theorem state?_loadFile_of_error {e : OsError} (h : t.read (recordPath root unit) = .error e) :
    (loadFile t root unit).state? = none := by
  cases e <;> simp [loadFile, h, Loaded.state?]

/-- The state that is loaded depends only on what the record's path reads. -/
theorem state?_loadFile_congr (h : t'.read (recordPath root unit) = t.read (recordPath root unit)) :
    (loadFile t' root unit).state? = (loadFile t root unit).state? := by
  simp only [loadFile, h]

/-- A change to one file whose new bytes are no record of a unit leaves the unit its state,
or takes it away. -/
theorem keptOrLost_of_patched (h : t.Patched t' bytes)
    (hbytes : (openRecord (recordPath root unit) unit bytes).state? = none) :
    KeptOrLost (loadFile t root unit).state? (loadFile t' root unit).state? := by
  rcases h.read_cases (recordPath root unit) with hsame | hok | ⟨e, herror⟩
  · exact .inr (state?_loadFile_congr hsame)
  · exact .inl ((state?_loadFile_of_ok hok).trans hbytes)
  · exact .inl (state?_loadFile_of_error herror)

/-- A hexadecimal digit is one byte, and neither a slash nor the zero byte. -/
theorem hexDigit_spec (n : Nat) :
    hexDigit n ≠ '/' ∧ hexDigit n ≠ '\x00' ∧ (hexDigit n).utf8Size = 1 := by
  by_cases hn : n < 16
  · have hdigits : ∀ i : Fin 16,
        hexDigit i ≠ '/' ∧ hexDigit i ≠ '\x00' ∧ (hexDigit i).utf8Size = 1 := by
      decide
    exact hdigits ⟨n, hn⟩
  · have hlong : hexDigit n = '0' := by
      unfold hexDigit
      rw [List.getD_eq_getElem?_getD, List.getElem?_eq_none (Nat.le_of_not_lt hn),
        Option.getD_none]
    rw [hlong]
    decide

/-- A digest is written in hexadecimal digits. -/
theorem exists_hexDigit_of_mem {message : List UInt8} {c : Char}
    (h : c ∈ Sha256.hexDigest message) : ∃ n, c = hexDigit n := by
  obtain ⟨w, -, hw⟩ := List.mem_flatMap.mp h
  obtain ⟨shift, -, hshift⟩ := List.mem_map.mp hw
  exact ⟨_, hshift.symm⟩

/-- The name of the file in which the record of a unit is kept. -/
def recordName (unit : String) : Name :=
  Sha256.hexDigest (Utf8.encode unit.toList) ++ ['.', 'j', 's', 'o', 'n']

/-- The path of a record is the directory with one component joined to it. -/
theorem recordPath_eq (root : Path) (unit : String) :
    recordPath root unit = root.join ⟨(Path.Component.name (recordName unit)).chars⟩ :=
  rfl

/-- The name of a record is a plain component. -/
theorem plain_recordName (unit : String) : (Path.Component.name (recordName unit)).Plain := by
  apply Path.plain_name
  · simp [recordName]
  · intro hmem
    rcases List.mem_append.mp hmem with hmem | hmem
    · obtain ⟨n, hn⟩ := exists_hexDigit_of_mem hmem
      exact (hexDigit_spec n).1 hn.symm
    · revert hmem
      decide

/-- The name of a record is not `..`. -/
theorem recordName_ne_up (unit : String) : recordName unit ≠ ['.', '.'] := by
  intro heq
  have hlength := congrArg List.length heq
  simp [recordName] at hlength

/-- A record is saved by replacing its file after the directory was made, or else nothing
is changed but directories. -/
theorem saveFile_cases (t : FileTree) (root : Path) (unit : String) (s : State) :
    (∃ t', (t.makeDirectories root).1.replace (recordPath root unit) (recordBytes unit s) =
      .ok t' ∧ saveFile t root unit s = (t', .ok ())) ∨
    ∃ e, saveFile t root unit s = ((t.makeDirectories root).1, .error e) := by
  unfold saveFile
  rcases t.publish_cases root (recordPath root unit) (recordBytes unit s) with
    ⟨t', hreplace, hpublish⟩ | ⟨f, hpublish⟩
  · rw [hpublish]
    exact .inl ⟨t', hreplace, rfl⟩
  · rw [hpublish]
    exact .inr ⟨_, rfl⟩

/-- A unit whose record was removed has no state, also if nothing could be removed. -/
theorem state?_forgetFile : (loadFile (forgetFile t root unit).1 root unit).state? = none := by
  unfold forgetFile
  dsimp only
  cases h : t.unlink (recordPath root unit) with
  | ok t' =>
    obtain ⟨e, herror⟩ := FileTree.read_of_unlink h
    exact state?_loadFile_of_error herror
  | error e =>
    obtain ⟨e', herror⟩ := FileTree.read_of_unlink_error h
    cases e <;> exact state?_loadFile_of_error herror

/-- Removing the record of a unit gives no other unit a state. -/
theorem keptOrLost_forgetFile (root : Path) (unit other : String) :
    KeptOrLost (loadFile t root other).state?
      (loadFile (forgetFile t root unit).1 root other).state? := by
  unfold forgetFile
  dsimp only
  cases h : t.unlink (recordPath root unit) with
  | ok t' =>
    have hempty : Record.decode? [] = none := by decide +kernel
    exact keptOrLost_of_patched (FileTree.patched_of_unlink h [])
      (state?_openRecord_of_undecodable hempty)
  | error e => cases e <;> exact .refl _

end Store

/-! ## Changes to a workspace -/

namespace Workspace

variable {w : Workspace} {unit other : String} {s : State}

/-- The state that the store has for a unit. -/
def state? (w : Workspace) (unit : String) : Option State :=
  (w.load unit).state?

/-- A store in memory has the states that were put into it. -/
theorem state?_memory {t : FileTree} {rs : Records} :
    state? ⟨t, .memory rs⟩ unit = rs.find? unit := by
  unfold state? load
  cases h : rs.find? unit <;> simp [h, Loaded.state?]

/-- A full store has the states that are in it. -/
theorem state?_full {t : FileTree} {rs : Records} :
    state? ⟨t, .full rs⟩ unit = rs.find? unit := by
  unfold state? load
  cases h : rs.find? unit <;> simp [h, Loaded.state?]

/-- The directory of a store can be used: making it, where it is missing, brings no record
to light. This is so if each `..` step that leads to it starts at a directory
(`usable_of_backed`). -/
def Usable (w : Workspace) : Prop :=
  match w.store with
  | .memory _ | .full _ => True
  | .directory root => ∀ unit, KeptOrLost (Store.loadFile w.tree root unit).state?
      (Store.loadFile (w.tree.makeDirectories root).1 root unit).state?

/-- The directory of a store can be used, missing or not, if each `..` step that leads to it
starts at a directory. -/
theorem usable_of_backed {t : FileTree} {root : Path} (hbacked : t.Backed root) :
    Usable ⟨t, .directory root⟩ := by
  intro unit
  show KeptOrLost _ (Store.loadFile (t.makeDirectoriesWithin _ root).1 root unit).state?
  rcases hbacked.makeDirectoriesWithin (root.chars.length + 1) with heq | hbarren
  · rw [heq]
    exact .refl _
  · obtain ⟨e, herror⟩ :=
      hbarren.read_join (Store.plain_recordName unit) (Store.recordName_ne_up unit)
    exact .inl (Store.state?_loadFile_of_error herror)

/-- A unit that was forgotten has no state, in any store. -/
theorem state?_forget (w : Workspace) (unit : String) : (w.forget unit).1.state? unit = none := by
  obtain ⟨t, store⟩ := w
  cases store with
  | memory rs => exact state?_memory.trans Records.find?_remove_self
  | full rs => exact state?_full.trans Records.find?_remove_self
  | directory root => exact Store.state?_forgetFile

/-- Forgetting a unit gives no other unit a state. -/
theorem keptOrLost_forget (w : Workspace) (unit other : String) :
    KeptOrLost (w.state? other) ((w.forget unit).1.state? other) := by
  by_cases hne : other = unit
  · subst hne
    exact .inl (w.state?_forget other)
  obtain ⟨t, store⟩ := w
  cases store with
  | memory rs =>
    rw [forget, state?_memory, state?_memory, Records.find?_remove_of_ne hne]
    exact .refl _
  | full rs =>
    rw [forget, state?_full, state?_full, Records.find?_remove_of_ne hne]
    exact .refl _
  | directory root => exact Store.keptOrLost_forgetFile root unit other

/-- A commit either stores the state or ends with forgetting the unit. -/
theorem commit_cases (w : Workspace) (unit : String) (s : State) :
    (w.save unit s).2 = .ok () ∧ (w.commit unit s).1 = (w.save unit s).1 ∨
      (∃ e, (w.save unit s).2 = .error e) ∧
        (w.commit unit s).1 = ((w.save unit s).1.forget unit).1 := by
  unfold commit
  split
  · rename_i heq
    rw [heq]
    exact .inl ⟨rfl, rfl⟩
  · rename_i heq
    rw [heq]
    split <;> rename_i hforget <;> rw [hforget] <;> exact .inr ⟨⟨_, rfl⟩, rfl⟩

/-- A state that could be saved is committed. -/
theorem commit_of_save (h : (w.save unit s).2 = .ok ()) :
    w.commit unit s = ((w.save unit s).1, .stored) := by
  unfold commit
  generalize w.save unit s = saved at h
  obtain ⟨w', result⟩ := saved
  obtain rfl : result = .ok () := h
  rfl

/-- Saving in a directory writes the record's file and leaves the store where it is. -/
theorem save_directory (t : FileTree) (root : Path) (unit : String) (s : State) :
    (Workspace.mk t (.directory root)).save unit s =
      (⟨(Store.saveFile t root unit s).1, .directory root⟩, (Store.saveFile t root unit s).2) :=
  rfl

/-- A stored state is the one that the unit has, if it has any. -/
theorem state?_save (h : (w.save unit s).2 = .ok ()) :
    (w.save unit s).1.state? unit = none ∨ (w.save unit s).1.state? unit = some s := by
  obtain ⟨t, store⟩ := w
  cases store with
  | memory rs => exact .inr (state?_memory.trans Records.find?_put_self)
  | full rs => cases h
  | directory root =>
    rw [save_directory] at h ⊢
    rcases Store.saveFile_cases t root unit s with ⟨t', hreplace, heq⟩ | ⟨e, heq⟩
    · rw [heq]
      rcases FileTree.read_of_replace hreplace with hok | ⟨e, herror⟩
      · right
        refine (Store.state?_loadFile_of_ok hok).trans ?_
        rw [Store.openRecord_recordBytes]
        rfl
      · exact .inl (Store.state?_loadFile_of_error herror)
    · rw [heq] at h
      cases h

/-- Storing the state of a unit gives no other unit a state. -/
theorem keptOrLost_save (husable : w.Usable) (hne : other ≠ unit) :
    KeptOrLost (w.state? other) ((w.save unit s).1.state? other) := by
  obtain ⟨t, store⟩ := w
  cases store with
  | memory rs =>
    rw [save, state?_memory, state?_memory, Records.find?_put_of_ne hne]
    exact .refl _
  | full rs => exact .refl _
  | directory root =>
    have hmade : KeptOrLost (state? ⟨t, .directory root⟩ other)
        (Store.loadFile (t.makeDirectories root).1 root other).state? := husable other
    rw [save_directory]
    rcases Store.saveFile_cases t root unit s with ⟨t', hreplace, heq⟩ | ⟨e, heq⟩
    · rw [heq]
      exact hmade.trans (Store.keptOrLost_of_patched (FileTree.patched_of_replace hreplace)
        (Store.state?_openRecord_of_ne hne))
    · rw [heq]
      exact hmade

/-- After a commit the unit has the new state or none, and no older one. -/
theorem state?_commit (w : Workspace) (unit : String) (s : State) :
    (w.commit unit s).1.state? unit = none ∨ (w.commit unit s).1.state? unit = some s := by
  rcases w.commit_cases unit s with ⟨hok, heq⟩ | ⟨-, heq⟩
  · rw [heq]
    exact state?_save hok
  · rw [heq]
    exact .inl (state?_forget _ unit)

/-- A commit gives no other unit a state. -/
theorem keptOrLost_commit (husable : w.Usable) (hne : other ≠ unit) :
    KeptOrLost (w.state? other) ((w.commit unit s).1.state? other) := by
  have hsave := keptOrLost_save (s := s) husable hne
  rcases w.commit_cases unit s with ⟨-, heq⟩ | ⟨-, heq⟩
  · rw [heq]
    exact hsave
  · rw [heq]
    exact hsave.trans (keptOrLost_forget _ unit other)

end Workspace

end Recompile
