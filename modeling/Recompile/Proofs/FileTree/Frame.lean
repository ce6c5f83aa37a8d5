import Recompile.Proofs.FileTree.Standing

/-!
# What a change to one file leaves alone

Putting a file somewhere, or removing one, can break the access to other paths, since a
path may lead through the changed location. It never shows other content: afterwards a
path reads as before, or it reads the new bytes, or it cannot be read
(`FileTree.Patched.read_cases`). For the path of the change itself the first of these
cases is excluded (`FileTree.read_of_replace`, `FileTree.read_of_unlink`).
-/

set_option autoImplicit false

namespace Recompile.FileTree

variable {t t' : FileTree} {bytes : List UInt8} {last : Bool} {dir d : Location} {n : Name}
  {steps : List Name} {links : Nat} {p : Path}

/-! ## Trees that differ in what is missing and in files of one content -/

/-- A tree is another one in which some entries are gone and some are files with the given
bytes now. -/
structure Patched (t t' : FileTree) (bytes : List UInt8) : Prop where
  workingDir : t'.workingDir = t.workingDir
  entry : ∀ loc, t'.entry? loc = t.entry? loc ∨ t'.entry? loc = none ∨
    t'.entry? loc = some (.file bytes)

/-- A halt that reads the given bytes or nothing at all. -/
def Halt.Settled (t : FileTree) (bytes : List UInt8) : Halt → Prop
  | .failed _ => True
  | .before dir n => t.entry? (n :: dir) = none ∨ t.entry? (n :: dir) = some (.file bytes)
  | _ => False

namespace Patched

/-- A tree is itself with nothing patched. -/
theorem refl (t : FileTree) (bytes : List UInt8) : Patched t t bytes :=
  ⟨rfl, fun _ => .inl rfl⟩

/-- A file with the given bytes has been put somewhere, if there was room. -/
theorem put (t : FileTree) (bytes : List UInt8) (place : Location) :
    Patched t (t.put place (.file bytes)) bytes := by
  refine ⟨workingDir_put .., fun loc => ?_⟩
  rcases entry?_put_cases t place (.file bytes) loc with heq | ⟨-, hnew⟩
  · exact .inl heq
  · exact .inr (.inr hnew)

/-- Something that is no directory has been erased. -/
theorem erase {place : Location} (h : t.entry? place ≠ some .directory) (bytes : List UInt8) :
    Patched t (t.erase place) bytes := by
  refine ⟨workingDir_erase .., fun loc => ?_⟩
  rw [entry?_erase h]
  split
  · exact .inr (.inl rfl)
  · exact .inl rfl

/-- A way comes to an end where an entry is gone or is a file now. -/
theorem failed_of_changed {rest : List Name} (hn : IsName n)
    (hshort : ¬ Path.nameByteLimit < Path.byteSize n) (hrest : rest ≠ [])
    (hentry : t'.entry? (n :: dir) = none ∨ t'.entry? (n :: dir) = some (.file bytes)) :
    ∃ e, t'.advance last dir (n :: rest) = .failed e := by
  rcases hentry with hnone | hfile
  · exact ⟨_, advance_missing hn hshort hrest hnone⟩
  · exact ⟨_, advance_blocked hn hshort hrest hfile rfl⟩

/-- Where an entry is gone or is a file now, it reads the given bytes or nothing. -/
theorem settled_of_changed {rest : List Name} (hn : IsName n)
    (hshort : ¬ Path.nameByteLimit < Path.byteSize n)
    (hentry : t'.entry? (n :: dir) = none ∨ t'.entry? (n :: dir) = some (.file bytes)) :
    (t'.advance last dir (n :: rest)).Settled t' bytes := by
  by_cases hrest : rest = []
  · have hnot (target : Path) : t'.entry? (n :: dir) ≠ some (.link target) := by
      rcases hentry with h | h <;> simp [h]
    rw [hrest, advance_single_of_not_link hn hshort fun _ => hnot]
    exact hentry
  · obtain ⟨e, hfailed⟩ := failed_of_changed hn hshort hrest hentry
    rw [hfailed]
    trivial

/-- Up to the first link the steps lead to the same halt, or to one that is settled by the
change. -/
theorem advance (h : Patched t t' bytes) (last : Bool) (dir : Location) (steps : List Name) :
    t'.advance last dir steps = t.advance last dir steps ∨
      (t'.advance last dir steps).Settled t' bytes := by
  have hway := t.way_advance last dir steps
  generalize t.advance last dir steps = halt at hway ⊢
  induction hway with
  | nil => exact .inl advance_nil
  | dot _ ih => rwa [advance_dot]
  | up _ ih => rwa [advance_up]
  | long hn hlong => exact .inl (advance_long hn hlong)
  | @stops dir n hn hshort hnot =>
    rcases h.entry (n :: dir) with heq | hchanged
    · exact .inl (advance_single_of_not_link hn hshort (heq ▸ hnot))
    · exact .inr (settled_of_changed hn hshort hchanged)
  | @link dir n _ _ hn hshort hthrough hentry =>
    rcases h.entry (n :: dir) with heq | hchanged
    · exact .inl (advance_link hn hshort hthrough (heq.trans hentry))
    · exact .inr (settled_of_changed hn hshort hchanged)
  | @missing dir n _ hn hshort hrest hentry =>
    rcases h.entry (n :: dir) with heq | hchanged
    · exact .inl (advance_missing hn hshort hrest (heq.trans hentry))
    · exact .inr (settled_of_changed hn hshort hchanged)
  | @blocked dir n _ _ hn hshort hrest hentry hfile =>
    rcases h.entry (n :: dir) with heq | hchanged
    · exact .inl (advance_blocked hn hshort hrest (heq.trans hentry) hfile)
    · exact .inr (settled_of_changed hn hshort hchanged)
  | @down dir n _ _ hn hshort hrest hentry _ ih =>
    rcases h.entry (n :: dir) with heq | hchanged
    · rwa [advance_down hn hshort hrest (heq.trans hentry)]
    · exact .inr (settled_of_changed hn hshort hchanged)

/-- Where going on halts at the given bytes or at nothing, there is no link to follow. -/
theorem follow_of_settled (h : (t'.advance last dir steps).Settled t' bytes) :
    t'.follow last links dir steps = t'.advance last dir steps := by
  refine follow_of_advance fun d target rest heq => ?_
  rw [heq] at h
  exact h

/-- Through links as well the steps lead to the same halt or to a settled one. -/
theorem follow (h : Patched t t' bytes) (last : Bool) (links : Nat) (dir : Location)
    (steps : List Name) :
    t'.follow last links dir steps = t.follow last links dir steps ∨
      (t'.follow last links dir steps).Settled t' bytes := by
  induction links generalizing dir steps with
  | zero =>
    rcases h.advance last dir steps with heq | hsettled
    · left
      unfold FileTree.follow
      rw [heq]
    · right
      rw [follow_of_settled hsettled]
      exact hsettled
  | succ links ih =>
    rcases h.advance last dir steps with heq | hsettled
    · cases hadv : t.advance last dir steps with
      | link d target rest =>
        rw [follow_succ_of_link (heq.trans hadv), follow_succ_of_link hadv]
        exact ih _ _
      | _ =>
        left
        rw [follow_of_advance (by simp [heq, hadv]), follow_of_advance (by simp [hadv]), heq]
    · right
      rw [follow_of_settled hsettled]
      exact hsettled

/-- What a settled halt reads. -/
theorem read_of_settled (h : (t'.walk true p).Settled t' bytes) :
    t'.read p = .ok bytes ∨ ∃ e, t'.read p = .error e := by
  unfold read find
  cases hwalk : t'.walk true p with
  | before dir n =>
    rw [hwalk] at h
    rcases h with hnone | hfile
    · exact .inr ⟨.notFound, by simp only [hnone]⟩
    · exact .inl (by simp only [hfile])
  | failed e => exact .inr ⟨e, rfl⟩
  | inside | link =>
    rw [hwalk] at h
    exact absurd h id

/-- A path reads as before, or it reads the new bytes, or it cannot be read. -/
theorem read_cases (h : Patched t t' bytes) (p : Path) :
    t'.read p = t.read p ∨ t'.read p = .ok bytes ∨ ∃ e, t'.read p = .error e := by
  have hwalk : t'.walk true p = t.walk true p ∨ (t'.walk true p).Settled t' bytes := by
    unfold walk
    rw [h.workingDir]
    cases p.refusal? with
    | some e => exact .inl rfl
    | none => exact h.follow true linkLimit _ _
  rcases hwalk with hwalk | hsettled
  · cases hhalt : t.walk true p with
    | before dir n =>
      rcases h.entry (n :: dir) with heq | hchanged
      · left
        unfold read find
        rw [hwalk, hhalt]
        simp only [heq]
      · right
        refine read_of_settled ?_
        rw [hwalk, hhalt]
        exact hchanged
    | _ =>
      left
      unfold read find
      rw [hwalk, hhalt]
  · exact .inr (read_of_settled hsettled)

/-! ## The place of the change -/

/-- Steps up to a last name that is no link afterwards lead to the same halt, links at the
end being followed or not, or they fail. -/
theorem advance_last (h : Patched t t' bytes) (dir : Location) (steps : List Name)
    (hlast : ∀ d n target, t.advance false dir steps = .before d n →
      t'.entry? (n :: d) ≠ some (.link target)) :
    t'.advance true dir steps = t.advance false dir steps ∨
      ∃ e, t'.advance true dir steps = .failed e := by
  have hway := t.way_advance false dir steps
  generalize t.advance false dir steps = halt at hlast hway ⊢
  induction hway with
  | nil => exact .inl advance_nil
  | dot _ ih =>
    rw [advance_dot]
    exact ih hlast
  | up _ ih =>
    rw [advance_up]
    exact ih hlast
  | long hn hlong => exact .inl (advance_long hn hlong)
  | @stops dir n hn hshort =>
    exact .inl (advance_single_of_not_link hn hshort fun _ target => hlast dir n target rfl)
  | @link dir n rest _ hn hshort hthrough hentry =>
    have hrest : rest ≠ [] := fun hnil => nomatch hthrough hnil
    rcases h.entry (n :: dir) with heq | hchanged
    · exact .inl (advance_link hn hshort (fun hnil => absurd hnil hrest) (heq.trans hentry))
    · exact .inr (failed_of_changed hn hshort hrest hchanged)
  | @missing dir n _ hn hshort hrest hentry =>
    rcases h.entry (n :: dir) with heq | hchanged
    · exact .inl (advance_missing hn hshort hrest (heq.trans hentry))
    · exact .inr (failed_of_changed hn hshort hrest hchanged)
  | @blocked dir n _ _ hn hshort hrest hentry hfile =>
    rcases h.entry (n :: dir) with heq | hchanged
    · exact .inl (advance_blocked hn hshort hrest (heq.trans hentry) hfile)
    · exact .inr (failed_of_changed hn hshort hrest hchanged)
  | @down dir n _ _ hn hshort hrest hentry _ ih =>
    rcases h.entry (n :: dir) with heq | hchanged
    · rw [advance_down hn hshort hrest (heq.trans hentry)]
      exact ih hlast
    · exact .inr (failed_of_changed hn hshort hrest hchanged)

/-- Without a link on the way or at the end, following through the last name is following up
to it, or fails. -/
theorem follow_last_of_not_link (h : Patched t t' bytes)
    (hlink : ∀ d target rest, t.advance false dir steps ≠ .link d target rest)
    (hlast : ∀ d n target, t.follow false links dir steps = .before d n →
      t'.entry? (n :: d) ≠ some (.link target)) :
    t'.follow true links dir steps = t.follow false links dir steps ∨
      ∃ e, t'.follow true links dir steps = .failed e := by
  rw [follow_of_advance hlink] at hlast ⊢
  rcases h.advance_last dir steps hlast with heq | ⟨e, hfailed⟩
  · left
    rw [← heq] at hlink ⊢
    exact follow_of_advance hlink
  · exact .inr ⟨e, follow_of_failed hfailed⟩

/-- Through links as well the steps lead to the same halt or fail. -/
theorem follow_last (h : Patched t t' bytes) (links : Nat) (dir : Location) (steps : List Name)
    (hlast : ∀ d n target, t.follow false links dir steps = .before d n →
      t'.entry? (n :: d) ≠ some (.link target)) :
    t'.follow true links dir steps = t.follow false links dir steps ∨
      ∃ e, t'.follow true links dir steps = .failed e := by
  induction links generalizing dir steps with
  | zero =>
    by_cases hlink : ∃ d target rest, t.advance false dir steps = .link d target rest
    · obtain ⟨d, target, rest, hadv⟩ := hlink
      rw [follow_zero_of_link hadv]
      rcases h.advance_last dir steps (by simp [hadv]) with heq | ⟨e, hfailed⟩
      · exact .inl (follow_zero_of_link (heq.trans hadv))
      · exact .inr ⟨e, follow_of_failed hfailed⟩
    · simp only [not_exists] at hlink
      exact h.follow_last_of_not_link hlink hlast
  | succ links ih =>
    by_cases hlink : ∃ d target rest, t.advance false dir steps = .link d target rest
    · obtain ⟨d, target, rest, hadv⟩ := hlink
      rw [follow_succ_of_link hadv] at hlast ⊢
      rcases h.advance_last dir steps (by simp [hadv]) with heq | ⟨e, hfailed⟩
      · rw [follow_succ_of_link (heq.trans hadv)]
        exact ih _ _ hlast
      · exact .inr ⟨e, follow_of_failed hfailed⟩
    · simp only [not_exists] at hlink
      exact h.follow_last_of_not_link hlink hlast

/-- A path leads to the place of its own last name before and after the change, unless the
change cut it off. -/
theorem walk_last (h : Patched t t' bytes) (p : Path)
    (hlast : ∀ d n target, t.walk false p = .before d n →
      t'.entry? (n :: d) ≠ some (.link target)) :
    t'.walk true p = t.walk false p ∨ ∃ e, t'.walk true p = .failed e := by
  unfold walk at hlast ⊢
  rw [h.workingDir]
  cases hrefusal : p.refusal? with
  | some e => exact .inl rfl
  | none =>
    simp only [hrefusal] at hlast
    exact h.follow_last linkLimit _ _ hlast

/-- A path that led to a last name which now is missing or has the new bytes reads no other
bytes. -/
theorem read_of_walk_last (h : Patched t t' bytes) (hwalk : t.walk false p = .before dir n)
    (hentry : t'.entry? (n :: dir) = none ∨ t'.entry? (n :: dir) = some (.file bytes)) :
    t'.read p = .ok bytes ∧ t'.entry? (n :: dir) = some (.file bytes) ∨
      ∃ e, t'.read p = .error e := by
  have hlast : ∀ d m target, t.walk false p = .before d m →
      t'.entry? (m :: d) ≠ some (.link target) := by
    intro d m target heq
    cases hwalk.symm.trans heq
    rcases hentry with hnone | hfile
    · simp [hnone]
    · simp [hfile]
  rcases h.walk_last p hlast with heq | ⟨e, hfailed⟩
  · unfold read find
    rw [heq, hwalk]
    rcases hentry with hnone | hfile
    · exact .inr ⟨.notFound, by simp only [hnone]⟩
    · exact .inl ⟨by simp only [hfile], hfile⟩
  · right
    unfold read find
    rw [hfailed]
    exact ⟨e, rfl⟩

end Patched

/-! ## Operations on one file -/

/-- A file is written at the place that its path leads to, where there is room for it. -/
theorem write_eq_ok (h : t.write p bytes = .ok t') :
    ∃ dir n, t.walk true p = .before dir n ∧ t.HasRoom (n :: dir) ∧
      t' = t.put (n :: dir) (.file bytes) := by
  unfold write at h
  split at h
  · cases h
  · rename_i dir n hwalk
    split at h
    · cases h
    · cases h
    · rename_i hdirectory _
      cases h
      exact ⟨dir, n, hwalk, hasRoom_of_walk hwalk hdirectory, rfl⟩
  · cases h
  · cases h

/-- A file is replaced at the place of the last name of its path, where there is room for
it. -/
theorem replace_eq_ok (h : t.replace p bytes = .ok t') :
    ∃ dir n, t.walk false p = .before dir n ∧ t.HasRoom (n :: dir) ∧
      t' = t.put (n :: dir) (.file bytes) := by
  unfold replace at h
  split at h
  · cases h
  · split at h
    · cases h
    · rename_i dir n hwalk
      split at h
      · cases h
      · rename_i hslash
        split at h
        · cases h
        · rename_i hdirectory
          cases h
          refine ⟨dir, n, ?_, hasRoom_of_walkToLast hwalk hdirectory, rfl⟩
          rw [← hwalk]
          simp [walk, walkToLast, Path.lookupSteps, hslash]
    · cases h
    · cases h

/-- A file is removed at the place of the last name of its path, if that is no directory. -/
theorem unlink_eq_ok (h : t.unlink p = .ok t') :
    ∃ dir n, t.walk false p = .before dir n ∧ t.entry? (n :: dir) ≠ some .directory ∧
      t' = t.erase (n :: dir) := by
  unfold unlink at h
  split at h
  · cases h
  · rename_i dir n hwalk
    split at h
    · cases h
    · rename_i entry hdirectory hentry
      cases h
      refine ⟨dir, n, hwalk, fun heq => ?_, rfl⟩
      exact hdirectory (Option.some.inj (hentry.symm.trans heq))
    · cases h
  · cases h
  · cases h

/-- Writing a file patches the tree with its content. -/
theorem patched_of_write (h : t.write p bytes = .ok t') : Patched t t' bytes := by
  obtain ⟨dir, n, -, -, rfl⟩ := write_eq_ok h
  exact .put t bytes (n :: dir)

/-- Replacing a file patches the tree with its content. -/
theorem patched_of_replace (h : t.replace p bytes = .ok t') : Patched t t' bytes := by
  obtain ⟨dir, n, -, -, rfl⟩ := replace_eq_ok h
  exact .put t bytes (n :: dir)

/-- Removing a file patches the tree: one entry is gone. -/
theorem patched_of_unlink (h : t.unlink p = .ok t') (bytes : List UInt8) :
    Patched t t' bytes := by
  obtain ⟨dir, n, -, hdirectory, rfl⟩ := unlink_eq_ok h
  exact .erase hdirectory bytes

/-- A file that was replaced has the new content, if it can be read at all: its path may
have led through what was there before. -/
theorem read_of_replace (h : t.replace p bytes = .ok t') :
    t'.read p = .ok bytes ∨ ∃ e, t'.read p = .error e := by
  obtain ⟨dir, n, hwalk, hroom, rfl⟩ := replace_eq_ok h
  have hentry : entry? (t.put (n :: dir) (.file bytes)) (n :: dir) = some (.file bytes) := by
    rw [entry?_put hroom, if_pos rfl]
  rcases (Patched.put t bytes (n :: dir)).read_of_walk_last hwalk (.inr hentry) with
    ⟨hread, -⟩ | herror
  · exact .inl hread
  · exact .inr herror

/-- Nothing is found under the path of a file that was removed. -/
theorem find_of_unlink (h : t.unlink p = .ok t') : ∃ e, t'.find p = .error e := by
  obtain ⟨dir, n, hwalk, hdirectory, rfl⟩ := unlink_eq_ok h
  have hentry : entry? (t.erase (n :: dir)) (n :: dir) = none := by
    rw [entry?_erase hdirectory, if_pos rfl]
  have hlast : ∀ d m target, t.walk false p = .before d m →
      entry? (t.erase (n :: dir)) (m :: d) ≠ some (.link target) := by
    intro d m target heq
    cases hwalk.symm.trans heq
    simp [hentry]
  unfold find
  rcases (Patched.erase hdirectory []).walk_last p hlast with heq | ⟨e, hfailed⟩
  · rw [heq, hwalk]
    exact ⟨.notFound, by simp only [hentry]⟩
  · rw [hfailed]
    exact ⟨e, rfl⟩

/-- A file that has been removed cannot be read by its path. -/
theorem read_of_unlink (h : t.unlink p = .ok t') : ∃ e, t'.read p = .error e := by
  obtain ⟨e, hfind⟩ := find_of_unlink h
  unfold read
  rw [hfind]
  exact ⟨e, rfl⟩

/-- What cannot be removed as a file cannot be read either. -/
theorem read_of_unlink_error {e : OsError} (h : t.unlink p = .error e) :
    ∃ e', t.read p = .error e' := by
  have hlast : ∀ d n target, t.walk false p = .before d n →
      t.entry? (n :: d) ≠ some (.link target) := by
    intro d n target hwalk hlink
    unfold unlink at h
    rw [hwalk] at h
    simp [hlink] at h
  unfold read find
  rcases (Patched.refl t []).walk_last p hlast with heq | ⟨e', hfailed⟩
  · rw [heq]
    cases hwalk : t.walk false p with
    | before dir n =>
      cases hentry : t.entry? (n :: dir) with
      | none => exact ⟨.notFound, by simp only [hentry]⟩
      | some entry =>
        cases entry with
        | directory => exact ⟨.isDirectory, by simp only [hentry]⟩
        | file | locked | link => simp [unlink, hwalk, hentry] at h
    | inside => exact ⟨.isDirectory, rfl⟩
    | link => exact ⟨.tooManyLinks, rfl⟩
    | failed e' => exact ⟨e', rfl⟩
  · rw [hfailed]
    exact ⟨e', rfl⟩

/-- A file is published by replacing it after its directory was made, if the path of a
temporary file in the directory is not refused, or else nothing is changed but directories. -/
theorem publish_cases (t : FileTree) (dir p : Path) (bytes : List UInt8) :
    (∃ t', (t.makeDirectories dir).1.replace p bytes = .ok t' ∧
      t.publish dir p bytes = (t', .ok ())) ∨
    ∃ f, t.publish dir p bytes = ((t.makeDirectories dir).1, .error f) := by
  unfold publish
  rcases t.makeDirectories dir with ⟨made, e | _⟩
  · exact .inr ⟨_, rfl⟩
  · dsimp only
    cases (made.temporaryPath dir temporaryName).refusal? with
    | some e => exact .inr ⟨_, rfl⟩
    | none =>
      cases h : made.replace p bytes with
      | ok t' => exact .inl ⟨t', rfl, rfl⟩
      | error e => exact .inr ⟨_, rfl⟩

end Recompile.FileTree
