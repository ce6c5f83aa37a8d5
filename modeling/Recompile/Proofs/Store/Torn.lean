import Recompile.Proofs.Json.Cut
import Recompile.Proofs.Store.Order

/-!
# Records that were written in part

The bytes that are saved for a unit read back as its state, and no proper beginning of them
counts as a state (`Store.loadFile_of_cut`): a record is an object, and what is left of its
bytes after a cut misses the closing brace.
-/

set_option autoImplicit false

namespace Recompile

/-- No proper beginning of the bytes of a record is a record. -/
theorem Record.decode?_cut {r : Record} {bytes more : List UInt8}
    (h : bytes ++ more = Record.encode r) (hmore : more ≠ []) : Record.decode? bytes = none := by
  obtain ⟨body, hbody⟩ : ∃ body, r.toJson.compact = body ++ ['\x7d'] := by
    rw [toJson, Json.record, Json.compact]
    exact ⟨_, rfl⟩
  have hread := Json.ofText?_compact r.plain_toJson
  rw [hbody] at hread
  rw [encode, hbody] at h
  rw [decode?, Json.ofBytes?_cut h hmore (by simp) hread]
  rfl

namespace Store

open FileTree

variable {t t' : FileTree} {root : Path} {unit : String} {s : State} {bytes : List UInt8}

/-- What is in the place of a record that was saved is what is stored for the unit. -/
theorem read_of_saveFile (h : saveFile t root unit s = (t', .ok ()))
    (hread : t'.read (recordPath root unit) = .ok bytes) : bytes = recordBytes unit s := by
  rcases saveFile_cases t root unit s with ⟨made, hreplace, heq⟩ | ⟨e, heq⟩
  · rw [heq] at h
    cases h
    rcases read_of_replace hreplace with hok | ⟨e, herror⟩
    · rw [hok] at hread
      cases hread
      rfl
    · rw [herror] at hread
      cases hread
  · rw [heq] at h
    cases h

/-- The bytes that are saved for a unit load as its state, and after a loss of bytes at
their end the unit has no state. -/
theorem loadFile_of_cut (root : Path) (unit : String) (s : State) :
    (∀ t t', saveFile t root unit s = (t', .ok ()) →
      ∀ bytes, t'.read (recordPath root unit) = .ok bytes → bytes = recordBytes unit s) ∧
    (∀ t : FileTree, t.read (recordPath root unit) = .ok (recordBytes unit s) →
      loadFile t root unit = .state s) ∧
    ∀ (t : FileTree) (bytes more : List UInt8), bytes ++ more = recordBytes unit s → more ≠ [] →
      t.read (recordPath root unit) = .ok bytes → (loadFile t root unit).state? = none := by
  refine ⟨?_, ?_, ?_⟩
  · intro t t' hsave bytes hread
    exact read_of_saveFile hsave hread
  · intro t hread
    simp only [loadFile, hread, openRecord_recordBytes]
  · intro t bytes more hcut hmore hread
    rw [state?_loadFile_of_ok hread]
    exact state?_openRecord_of_undecodable (Record.decode?_cut hcut hmore)

/-- A tree with some bytes in the place of a unit's record. -/
def treeWithRecord (unit : String) (bytes : List UInt8) : FileTree :=
  (bare []).put [recordName unit] (.file bytes)

/-- The tree of the example has the bytes in the record of the unit. -/
theorem read_treeWithRecord (unit : String) (bytes : List UInt8) :
    (treeWithRecord unit bytes).read (recordPath ⟨['/']⟩ unit) = .ok bytes := by
  have hentry : entry? (treeWithRecord unit bytes) [recordName unit] = some (.file bytes) := by
    rw [treeWithRecord, entry?_put (hasRoom_of_missing rfl rfl), if_pos rfl]
  have hfree := not_passable_of_free (.inr ⟨bytes, hentry⟩)
  have hfits := @refusal?_recordPath ⟨['/']⟩ (by decide) (by decide) unit
  rw [read_recordPath rfl hfits hfree, hentry]

/-- The record of a unit on its own is loaded, and is not once the last byte is lost. -/
theorem loadFile_of_cut_last :
    let root : Path := ⟨['/']⟩
    let s : State := ⟨.ofList [⟨['s']⟩], ∅, true⟩
    let bytes := recordBytes "u" s
    saveFile (bare []) root "u" s = (treeWithRecord "u" bytes, .ok ()) ∧
      loadFile (treeWithRecord "u" bytes) root "u" = .state s ∧
      (loadFile (treeWithRecord "u" bytes.dropLast) root "u").state? = none := by
  intro root s bytes
  have hlast : bytes ≠ [] := by decide +kernel
  obtain ⟨-, hwhole, hcut⟩ := loadFile_of_cut root "u" s
  have hfits := @refusal?_recordPath root (by decide) (by decide)
  have horder : InOrder (bare []) root [] := .of_found hfits rfl rfl fun unit => .inl rfl
  refine ⟨?_, ?_, ?_⟩
  · rw [saveFile_of_inOrder horder]
    rfl
  · exact hwhole _ (read_treeWithRecord "u" bytes)
  · exact hcut _ bytes.dropLast [bytes.getLast hlast] (List.dropLast_append_getLast hlast)
      (List.cons_ne_nil _ _) (read_treeWithRecord "u" bytes.dropLast)

end Store

end Recompile
