import Recompile.Proofs.FileTree.Growth

/-!
# What stands where no way goes on

A look-up goes on at directories and links only. So a tree that differs from another one
in places where that has neither leads a path to the same halt, or the path failed there
(`FileTree.EndsAltered.walk`). A file that is put where none can be gone through makes no
difference to the ways that did not fail, and if the place is not needed for a directory, a
chain of directories is made as it was without the file (`FileTree.Filed.makeDirectories`).
-/

set_option autoImplicit false

namespace Recompile.FileTree

variable {t t' u u' : FileTree} {last : Bool} {links levels : Nat} {dir loc : Location}
  {n : Name} {steps : List Name} {p : Path} {bytes : List UInt8}

/-! ## Other ends -/

/-- Another tree has something else only where nothing can be gone through, and has no link
there. -/
structure EndsAltered (t u : FileTree) : Prop where
  workingDir : u.workingDir = t.workingDir
  entry : ∀ loc, u.entry? loc = t.entry? loc ∨
    ¬ t.Passable loc ∧ ∀ target, u.entry? loc ≠ some (.link target)

/-- A way fails, at something missing or at an entry that the other tree does not have. -/
def FailsAtEnd (t u : FileTree) (halt : Halt) : Prop :=
  ∃ e, halt = .failed e ∧ (e = .notFound ∨
    ∃ loc entry, t.entry? loc = some entry ∧ u.entry? loc ≠ t.entry? loc)

namespace EndsAltered

/-- What can be gone through is as it was. -/
theorem entry_of_passable {loc : Location} (h : t.EndsAltered u) (hpassable : t.Passable loc) :
    u.entry? loc = t.entry? loc :=
  (h.entry loc).resolve_right fun hend => hend.1 hpassable

/-- Going on is the same in a tree with other ends, or it failed at an end. -/
theorem advance (h : t.EndsAltered u) (last : Bool) (dir : Location) (steps : List Name) :
    u.advance last dir steps = t.advance last dir steps ∨
      t.FailsAtEnd u (t.advance last dir steps) := by
  have hway := t.way_advance last dir steps
  generalize t.advance last dir steps = halt at hway ⊢
  induction hway with
  | nil => exact .inl advance_nil
  | dot _ ih => rwa [advance_dot]
  | up _ ih => rwa [advance_up]
  | long hn hlong => exact .inl (advance_long hn hlong)
  | @stops dir n hn hshort hnot =>
    -- The last name is come to whatever stands there, if that is no link.
    refine .inl (advance_single_of_not_link hn hshort fun hlast target => ?_)
    rcases h.entry (n :: dir) with heq | ⟨-, hlink⟩
    · rw [heq]
      exact hnot hlast target
    · exact hlink target
  | link hn hshort hthrough hentry =>
    have heq := h.entry_of_passable (.inr ⟨_, hentry⟩)
    exact .inl (advance_link hn hshort hthrough (heq.trans hentry))
  | missing => exact .inr ⟨.notFound, rfl, .inl rfl⟩
  | @blocked dir n rest held hn hshort hrest hentry hfile =>
    by_cases heq : u.entry? (n :: dir) = t.entry? (n :: dir)
    · exact .inl (advance_blocked hn hshort hrest (heq.trans hentry) hfile)
    · exact .inr ⟨.notDirectory, rfl, .inr ⟨n :: dir, held, hentry, heq⟩⟩
  | down hn hshort hrest hentry _ ih =>
    have heq := h.entry_of_passable (.inl hentry)
    rwa [advance_down hn hshort hrest (heq.trans hentry)]

/-- Following is the same in a tree with other ends, or it failed at an end. -/
theorem follow (h : t.EndsAltered u) (last : Bool) (links : Nat) (dir : Location)
    (steps : List Name) :
    u.follow last links dir steps = t.follow last links dir steps ∨
      t.FailsAtEnd u (t.follow last links dir steps) := by
  have hfails {links : Nat} {dir : Location} {steps : List Name}
      (hhalt : t.FailsAtEnd u (t.advance last dir steps)) :
      t.FailsAtEnd u (t.follow last links dir steps) := by
    obtain ⟨e, hfailed, hend⟩ := hhalt
    exact ⟨e, follow_of_failed hfailed, hend⟩
  induction links generalizing dir steps with
  | zero =>
    rcases h.advance last dir steps with heq | hhalt
    · left
      unfold FileTree.follow
      rw [heq]
    · exact .inr (hfails hhalt)
  | succ links ih =>
    rcases h.advance last dir steps with heq | hhalt
    · cases hadv : t.advance last dir steps with
      | link d target rest =>
        rw [follow_succ_of_link (heq.trans hadv), follow_succ_of_link hadv]
        exact ih _ _
      | inside | before | failed =>
        left
        rw [follow_of_advance (by simp [heq, hadv]), follow_of_advance (by simp [hadv]), heq]
    · exact .inr (hfails hhalt)

/-- A path leads to the same halt, or it failed where the trees differ. -/
theorem walk (h : t.EndsAltered u) (last : Bool) (p : Path) :
    u.walk last p = t.walk last p ∨ t.FailsAtEnd u (t.walk last p) := by
  unfold FileTree.walk
  rw [h.workingDir]
  cases p.refusal? with
  | some e => exact .inl rfl
  | none => exact h.follow last linkLimit _ _

/-- A walk to the last name is the same in a tree with other ends, or it failed at an end. -/
theorem walkToLast (h : t.EndsAltered u) (p : Path) :
    u.walkToLast p = t.walkToLast p ∨ t.FailsAtEnd u (t.walkToLast p) := by
  unfold FileTree.walkToLast
  rw [h.workingDir]
  cases p.refusal? with
  | some e => exact .inl rfl
  | none => exact h.follow false linkLimit _ _

/-- A path that leads somewhere leads there in the other tree as well. -/
theorem walk_of_before {d : Location} (h : t.EndsAltered u)
    (hwalk : t.walk last p = .before d n) : u.walk last p = .before d n := by
  rcases h.walk last p with heq | ⟨e, hfailed, -⟩
  · exact heq.trans hwalk
  · rw [hwalk] at hfailed
    cases hfailed

/-- A walk to the last name that halts before one does so in a tree with other ends too. -/
theorem walkToLast_of_before {d : Location} (h : t.EndsAltered u)
    (hwalk : t.walkToLast p = .before d n) : u.walkToLast p = .before d n := by
  rcases h.walkToLast p with heq | ⟨e, hfailed, -⟩
  · exact heq.trans hwalk
  · rw [hwalk] at hfailed
    cases hfailed

end EndsAltered

/-- A tree with more directories has other ends only: nothing was in their places. -/
theorem Grown.altered (h : t.Grown t') : t.EndsAltered t' := by
  refine ⟨h.workingDir, fun loc => ?_⟩
  rcases h.entry loc with heq | ⟨hnone, hdir⟩
  · exact .inl heq
  · right
    simp [Passable, hnone, hdir]

/-- With more directories a way leads to the same halt, or something was missing. -/
theorem Grown.walkToLast (h : t.Grown t') (p : Path) :
    t'.walkToLast p = t.walkToLast p ∨ t.walkToLast p = .failed .notFound := by
  rcases h.altered.walkToLast p with heq | ⟨e, hfailed, hmissing | ⟨loc, entry, hheld, hother⟩⟩
  · exact .inl heq
  · exact .inr (hmissing ▸ hfailed)
  · exact absurd ((h.entry?_of_some hheld).trans hheld.symm) hother

/-! ## One more file -/

/-- Another tree has a file in a place through which no way goes. -/
structure Filed (t u : FileTree) (loc : Location) (bytes : List UInt8) : Prop where
  workingDir : u.workingDir = t.workingDir
  entry : ∀ l, u.entry? l = if l = loc then some (.file bytes) else t.entry? l
  impassable : ¬ t.Passable loc

namespace Filed

/-- The place of the file holds it. -/
theorem entry_self (h : t.Filed u loc bytes) : u.entry? loc = some (.file bytes) := by
  rw [h.entry, if_pos rfl]

/-- All other places are as before. -/
theorem entry_of_ne {l : Location} (h : t.Filed u loc bytes) (hne : l ≠ loc) :
    u.entry? l = t.entry? l := by
  rw [h.entry, if_neg hne]

/-- A tree with one more file has another end only. -/
theorem altered (h : t.Filed u loc bytes) : t.EndsAltered u := by
  refine ⟨h.workingDir, fun l => ?_⟩
  by_cases heq : l = loc
  · subst heq
    exact .inr ⟨h.impassable, by simp [h.entry_self]⟩
  · exact .inl (h.entry_of_ne heq)

/-- Seen from the tree with the file, the one without it has another end only. -/
theorem altered_symm (h : t.Filed u loc bytes) : u.EndsAltered t := by
  refine ⟨h.workingDir.symm, fun l => ?_⟩
  by_cases heq : l = loc
  · subst heq
    refine .inr ⟨by simp [Passable, h.entry_self], fun target hentry => ?_⟩
    exact h.impassable (.inr ⟨target, hentry⟩)
  · exact .inl (h.entry_of_ne heq).symm

/-- The file is no hindrance on the way to a directory. -/
theorem find_directory {d : Location} (h : t.Filed u loc bytes)
    (hfind : t.find p = .ok (d, .directory)) : u.find p = .ok (d, .directory) := by
  refine find_of_kept hfind h.workingDir fun l hl => h.entry_of_ne ?_
  rintro rfl
  rcases hl with hpassable | hdirectory
  · exact h.impassable hpassable
  · exact h.impassable (.inl hdirectory)

/-- A directory is one in the tree with the file as well. -/
theorem isDirectory (h : t.Filed u loc bytes) (hdirectory : t.isDirectory p = true) :
    u.isDirectory p = true := by
  obtain ⟨d, hfind⟩ := isDirectory_eq_true hdirectory
  unfold FileTree.isDirectory
  rw [h.find_directory hfind]

/-- One directory is made as it was, if the file does not take its place. -/
theorem makeDirectory (h : t.Filed u loc bytes) (hmade : t.makeDirectory p = .ok t')
    (hloc : t'.entry? loc ≠ some .directory) :
    ∃ u', u.makeDirectory p = .ok u' ∧ t'.Filed u' loc bytes := by
  obtain ⟨d, n, hwalk, hmissing, hroom, rfl⟩ := makeDirectory_eq_ok hmade
  have hne : n :: d ≠ loc := by
    rintro rfl
    apply hloc
    rw [entry?_put hroom, if_pos rfl]
  have hwalk' : u.walkToLast p = .before d n := h.altered.walkToLast_of_before hwalk
  have hmissing' : u.entry? (n :: d) = none := (h.entry_of_ne hne).trans hmissing
  have hroom' : u.HasRoom (n :: d) := hasRoom_of_walkToLast hwalk' (by simp [hmissing'])
  refine ⟨u.put (n :: d) .directory, ?_, by simp [h.workingDir], fun l => ?_, ?_⟩
  · unfold FileTree.makeDirectory
    simp only [hwalk', hmissing']
  · rw [entry?_put hroom', entry?_put hroom, h.entry]
    by_cases heq : l = n :: d
    · rw [if_pos heq, if_neg (heq ▸ hne), if_pos heq]
    · rw [if_neg heq, if_neg heq]
  · rw [Passable, entry?_put hroom, if_neg hne.symm]
    exact h.impassable

/-- What was missing on the way to a directory still is, if the directory is there in the
end: the file is not on the way. -/
theorem makeDirectory_notFound (h : t.Filed u loc bytes) (hgrown : u.Grown u')
    (hmissing : t.makeDirectory p = .error .notFound) (hthere : ∀ e, u'.walkToLast p ≠ .failed e) :
    u.makeDirectory p = .error .notFound := by
  have hfailed : t.walkToLast p = .failed .notFound := by
    unfold FileTree.makeDirectory at hmissing
    split at hmissing
    · cases hmissing
    · split at hmissing <;> cases hmissing
    · cases hmissing
    · rename_i hfailed
      cases hmissing
      exact hfailed
  obtain ⟨e, hfailed'⟩ : ∃ e, u.walkToLast p = .failed e := by
    rcases h.altered_symm.walkToLast p with heq | ⟨e, he, -⟩
    · exact ⟨.notFound, heq ▸ hfailed⟩
    · exact ⟨e, he⟩
  rcases hgrown.walkToLast p with heq | hnotFound
  · exact absurd (heq.trans hfailed') (hthere e)
  · unfold FileTree.makeDirectory
    rw [hnotFound]

/-- What can be made of a directory can be made beside the file, unless it is wanted in its place.
-/
theorem made (h : t.Filed u loc bytes) (hmade : t.Made p t')
    (hloc : t'.entry? loc ≠ some .directory) : ∃ u', u.Made p u' ∧ t'.Filed u' loc bytes := by
  rcases hmade with hmake | ⟨hdirectory, rfl⟩
  · obtain ⟨u', hu', hfiled⟩ := h.makeDirectory hmake hloc
    exact ⟨u', .inl hu', hfiled⟩
  · exact ⟨u, .inr ⟨h.isDirectory hdirectory, rfl⟩, h⟩

/-- A chain of directories is made as it was, if the file does not take the place of one. -/
theorem makeDirectoriesWithin (h : t.Filed u loc bytes)
    (hmade : t.makeDirectoriesWithin levels p = (t', .ok ()))
    (hloc : t'.entry? loc ≠ some .directory) :
    ∃ u', u.makeDirectoriesWithin levels p = (u', .ok ()) ∧ t'.Filed u' loc bytes := by
  induction levels generalizing p t' with
  | zero =>
    cases hmade
    exact ⟨u, rfl, h⟩
  | succ levels ih =>
    by_cases hnil : p.chars = []
    · unfold FileTree.makeDirectoriesWithin at hmade ⊢
      rw [if_pos hnil] at hmade ⊢
      cases hmade
      exact ⟨u, rfl, h⟩
    · rw [makeDirectoriesWithin_eq_ok_iff hnil] at hmade
      rcases hmade with hlast | ⟨hmissing, above, t₁, hparent, habove, hlast⟩
      · obtain ⟨u', hlast', hfiled⟩ := h.made hlast hloc
        exact ⟨u', (makeDirectoriesWithin_eq_ok_iff hnil).mpr (.inl hlast'), hfiled⟩
      · have hloc₁ : t₁.entry? loc ≠ some .directory := by
          intro hdirectory
          rcases hlast with hmake | ⟨-, rfl⟩
          · exact hloc ((grown_makeDirectory hmake).entry?_of_some hdirectory)
          · exact hloc hdirectory
        obtain ⟨u₁, habove', hfiled₁⟩ := ih habove hloc₁
        obtain ⟨u', hlast', hfiled⟩ := hfiled₁.made hlast hloc
        have hgrown : u.Grown u₁ := by
          have hgrown := grown_makeDirectoriesWithin u levels above
          rwa [habove'] at hgrown
        have hmissing' := h.makeDirectory_notFound hgrown hmissing hlast'.walkToLast_ne_failed
        exact ⟨u', (makeDirectoriesWithin_eq_ok_iff hnil).mpr
          (.inr ⟨hmissing', above, u₁, hparent, habove', hlast'⟩), hfiled⟩

/-- Directories that can be made down to a path can be made beside the file, and the trees still
differ in the file only. -/
theorem makeDirectories (h : t.Filed u loc bytes) (hmade : (t.makeDirectories p).2 = .ok ())
    (hloc : entry? (t.makeDirectories p).1 loc ≠ some .directory) :
    (u.makeDirectories p).2 = .ok () ∧
      (t.makeDirectories p).1.Filed (u.makeDirectories p).1 loc bytes := by
  obtain ⟨u', hmade', hfiled⟩ := h.makeDirectoriesWithin (Prod.ext rfl hmade) hloc
  unfold FileTree.makeDirectories
  rw [hmade']
  exact ⟨rfl, hfiled⟩

end Filed

end Recompile.FileTree
