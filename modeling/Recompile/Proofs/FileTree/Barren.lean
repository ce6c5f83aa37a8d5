import Recompile.Proofs.FileTree.Growth

/-!
# New directories

Nothing is found behind a directory that is missing (`FileTree.walk_join_of_missing`), and
one that was made has nothing in it (`FileTree.barren_of_makeDirectory`). When directories above
are made too, a `..` step that followed a missing name may come to lead to a directory that
has been there all along. If each `..` step of a path starts at a directory
(`FileTree.Backed`), then making the directory of the path changes nothing, or it leaves
that directory with nothing in it (`FileTree.Backed.makeDirectoriesWithin`).
-/

set_option autoImplicit false

namespace Recompile.FileTree

open Recompile.Path (withoutDots)

variable {t t' : FileTree} {last : Bool} {links : Nat} {dir d : Location} {n : Name}
  {steps extra : List Name} {p above : Path}

/-! ## Directories with nothing in them -/

/-- Nothing can be read below a directory by steps that do not lead out of it. -/
def Barren (t : FileTree) (p : Path) : Prop :=
  ∀ extra, ['.', '.'] ∉ extra → ∀ d n bytes,
    t.follow true linkLimit (origin t.workingDir p) (p.steps ++ extra) = .before d n →
      t.entry? (n :: d) ≠ some (.file bytes)

/-- Steps into an empty directory lead nowhere. -/
theorem advance_of_empty (last : Bool) (hempty : ∀ n, t.entry? (n :: dir) = none)
    (hup : ['.', '.'] ∉ steps) :
    t.advance last dir steps = .inside dir ∨ (∃ e, t.advance last dir steps = .failed e) ∨
      ∃ n, t.advance last dir steps = .before dir n := by
  have hway := t.way_advance last dir steps
  generalize t.advance last dir steps = halt at hway ⊢
  induction hway with
  | nil => exact .inl rfl
  | dot _ ih => exact ih hempty fun hmem => hup (List.mem_cons_of_mem _ hmem)
  | up => exact absurd List.mem_cons_self hup
  | long | missing | blocked => exact .inr (.inl ⟨_, rfl⟩)
  | stops => exact .inr (.inr ⟨_, rfl⟩)
  | link _ _ _ hentry | down _ _ _ hentry => simp [hempty] at hentry

/-- By steps that lead into an empty directory and not out of it no file is found. -/
theorem not_file_of_follow {m : Name} {bytes : List UInt8}
    (hentry : t.entry? (n :: dir) = some .directory)
    (hempty : ∀ m, t.entry? (m :: n :: dir) = none) (hn : IsName n)
    (hshort : ¬ Path.nameByteLimit < Path.byteSize n) (hup : ['.', '.'] ∉ extra)
    (h : t.follow true links dir (n :: extra) = .before d m) :
    t.entry? (m :: d) ≠ some (.file bytes) := by
  by_cases hextra : extra = []
  · subst hextra
    have hadv : t.advance true dir [n] = .before dir n :=
      advance_single_of_not_link hn hshort (by simp [hentry])
    rw [follow_of_advance (by simp [hadv]), hadv] at h
    cases h
    simp [hentry]
  · rw [follow_congr (advance_down hn hshort hextra hentry)] at h
    rcases advance_of_empty true hempty hup with hinside | ⟨e, hfailed⟩ | ⟨m', hlast⟩
    · rw [follow_of_advance (by simp [hinside]), hinside] at h
      cases h
    · rw [follow_of_failed hfailed] at h
      cases h
    · rw [follow_of_advance (by simp [hlast]), hlast] at h
      cases h
      simp [hempty]

/-- A new directory has nothing in it. -/
theorem barren_of_makeDirectory (hmade : t.makeDirectory p = .ok t') : t'.Barren p := by
  obtain ⟨dir, n, hwalk, hmissing, hroom, rfl⟩ := makeDirectory_eq_ok hmade
  have hlast := follow_of_walkToLast hwalk
  obtain ⟨hn, hshort⟩ := isName_of_follow hlast
  have hentry : entry? (t.put (n :: dir) .directory) (n :: dir) = some .directory := by
    rw [entry?_put hroom, if_pos rfl]
  have hempty (m : Name) : entry? (t.put (n :: dir) .directory) (m :: n :: dir) = none := by
    rw [entry?_put hroom, if_neg (by simp)]
    exact entry?_below hmissing m
  intro extra hup d m bytes hbefore
  rw [workingDir_put] at hbefore
  obtain ⟨links, hfollow⟩ := follow_append_of_before (.put .directory hmissing) true extra hlast
  exact not_file_of_follow hentry hempty hn hshort hup (hfollow.symm.trans hbefore)

/-- What is below a directory with nothing in it has nothing in it either. -/
theorem Barren.of_steps {more : List Name} (h : t.Barren above)
    (habs : above.isAbsolute = p.isAbsolute) (hsteps : above.steps ++ more = p.steps)
    (hup : ['.', '.'] ∉ more) : t.Barren p := by
  intro extra hextra d n bytes hbefore
  have hmore : ['.', '.'] ∉ more ++ extra := by
    intro hmem
    rcases List.mem_append.mp hmem with hmem | hmem
    · exact hup hmem
    · exact hextra hmem
  refine h (more ++ extra) hmore d n bytes ?_
  have horigin : origin t.workingDir above = origin t.workingDir p := by
    unfold origin
    rw [habs]
  rw [horigin, ← List.append_assoc, hsteps]
  exact hbefore

/-- No file that is named in a directory with nothing in it can be read. -/
theorem Barren.read_join {c : Path.Component} (h : t.Barren p) (hc : c.Plain)
    (hname : c.chars ≠ ['.', '.']) : ∃ e, t.read (p.join ⟨c.chars⟩) = .error e := by
  have horigin : origin t.workingDir (p.join ⟨c.chars⟩) = origin t.workingDir p := by
    unfold origin
    rw [Path.isAbsolute_join hc]
  have hup : ['.', '.'] ∉ [c.chars] := by
    simpa using hname.symm
  cases hread : t.read (p.join ⟨c.chars⟩) with
  | error e => exact ⟨e, rfl⟩
  | ok bytes =>
    obtain ⟨d, n, hwalk, hentry⟩ := walk_of_read hread
    have hfollow := follow_of_walk hwalk
    rw [Path.lookupSteps_join hc, horigin] at hfollow
    exact absurd hentry (h [c.chars] hup d n bytes hfollow)

/-! ## Directories that are missing -/

/-- Nothing is found behind a directory that is missing but can be made. -/
theorem walk_join_of_missing {c : Path.Component} (hc : c.Plain) (last : Bool)
    (hrefusal : p.refusal? = none) (hmade : (t.makeDirectories p).2 = .ok ())
    (hmissing : ¬ t.isDirectory p = true) (hjoin : (p.join ⟨c.chars⟩).refusal? = none) :
    t.walk last (p.join ⟨c.chars⟩) = .failed .notFound := by
  have hne : p.chars ≠ [] := (Path.refusal?_eq_none_iff.mp hrefusal).2.1
  have horigin : origin t.workingDir (p.join ⟨c.chars⟩) = origin t.workingDir p := by
    unfold origin
    rw [Path.isAbsolute_join hc]
  unfold walk
  rw [hjoin, Path.lookupSteps_join hc, horigin]
  dsimp only
  cases hresult : t.makeDirectory p with
  | ok t' =>
    obtain ⟨dir, n, hwalk, hentry, -⟩ := makeDirectory_eq_ok hresult
    have hlast := follow_of_walkToLast hwalk
    obtain ⟨hn, hshort⟩ := isName_of_follow hlast
    obtain ⟨links, hfollow⟩ := follow_append_of_before (.refl t) last [c.chars] hlast
    have hadv : t.advance last dir (n :: [c.chars]) = .failed .notFound :=
      advance_missing hn hshort (List.cons_ne_nil _ _) hentry
    rw [hfollow, follow_of_failed hadv]
  | error e =>
    -- Any other error would be the answer, as there is no directory.
    have hnotFound : e = .notFound := by
      unfold makeDirectories makeDirectoriesWithin at hmade
      rw [if_neg hne, hresult] at hmade
      cases e <;> first | rfl | simp [hmissing] at hmade
    subst hnotFound
    apply follow_append_of_failed
    unfold makeDirectory walkToLast at hresult
    rw [hrefusal] at hresult
    dsimp only at hresult
    split at hresult
    · cases hresult
    · split at hresult <;> cases hresult
    · cases hresult
    · rename_i hfailed
      cases hresult
      exact hfailed

/-! ## Paths that lead up -/

/-- Each `..` step of a path starts at a directory that is there. -/
def Backed (t : FileTree) (p : Path) : Prop :=
  ∀ before, before ++ [['.', '.']] <+: p.steps →
    ∃ D, (t.follow true linkLimit (origin t.workingDir p) before).At t D

/-- A path to a directory that is there may have `..` steps. -/
theorem backed_of_isDirectory (h : t.isDirectory p = true) : t.Backed p := by
  obtain ⟨loc, hfind⟩ := isDirectory_eq_true h
  obtain ⟨-, extra, -, hwalk⟩ := walk_of_find hfind
  have hat := at_of_find hfind
  rw [hwalk] at hat
  rintro before ⟨rest, hsteps⟩
  have hreached : ∃ D, (t.follow true linkLimit (origin t.workingDir p) (before ++ [])).At t D := by
    apply exists_at_of_follow_append rfl (List.cons_ne_nil ['.', '.'] (rest ++ extra))
    intro e hfailed
    rw [← hsteps, List.append_assoc, List.append_assoc, List.singleton_append, hfailed] at hat
    exact hat
  rwa [List.append_nil] at hreached

/-- A path without `..` steps has none that could start at nothing. -/
theorem backed_of_not_mem (hup : ['.', '.'] ∉ p.steps) : t.Backed p := by
  intro before hfirst
  exact absurd (hfirst.subset (by simp)) hup

namespace Backed

/-- Every `..` step of the path above is one of the path, so it starts at a directory too. -/
theorem parent? (h : t.Backed p) (hparent : p.parent? = some above) : t.Backed above := by
  obtain ⟨habs, hsteps⟩ := Path.steps_of_parent? hparent
  intro before hfirst
  have hreached := h before (hfirst.trans hsteps)
  unfold origin at hreached ⊢
  rwa [habs]

/-- A path whose last step that counts is a `..` step leads to a directory. -/
theorem makeDirectory_ne_notFound (h : t.Backed p) {before dots : List Name}
    (hdots : withoutDots dots = []) (hsteps : before ++ ['.', '.'] :: dots = p.steps) :
    t.makeDirectory p ≠ .error .notFound := by
  have hne : p.chars ≠ [] := by
    intro hnil
    rw [Path.steps, hnil] at hsteps
    simp [Path.pieces] at hsteps
  obtain ⟨D, hat⟩ := h before ⟨dots, by rw [← hsteps]; simp⟩
  rw [← List.append_nil before] at hat
  obtain ⟨links', hlinks'⟩ := leadsOnto_of_at false rfl hat
  have hinside : t.advance false D (['.', '.'] :: dots) = .inside D.tail := by
    rw [advance_up, advance_of_withoutDots_nil hdots]
  have hlast : t.follow false linkLimit (origin t.workingDir p) p.steps = .inside D.tail := by
    rw [← hsteps, (hlinks' _ (List.cons_ne_nil _ _)).1 t (.refl t),
      follow_of_advance (by simp [hinside]), hinside]
  unfold makeDirectory walkToLast
  rw [hlast]
  cases hrefusal : p.refusal? with
  | none => simp
  | some e =>
    rintro heq
    cases heq
    unfold Path.refusal? at hrefusal
    rw [if_neg hne] at hrefusal
    split at hrefusal
    · cases hrefusal
    · split at hrefusal <;> cases hrefusal

/-- A directory that is missing differs from the one above it by steps that do not lead up. -/
theorem exists_steps_append (h : t.Backed p) (hparent : p.parent? = some above)
    (hmissing : t.makeDirectory p = .error .notFound) :
    ∃ more, above.steps ++ more = p.steps ∧ ['.', '.'] ∉ more := by
  obtain ⟨more, hmore⟩ := (Path.steps_of_parent? hparent).2
  refine ⟨more, hmore, fun hup => ?_⟩
  have hcount := Path.length_withoutDots_of_parent? hparent
  obtain ⟨dots, dots', rfl⟩ := List.append_of_mem hup
  -- The `..` step is the only one of those below the parent that counts.
  have hdots : withoutDots dots' = [] := by
    rw [← hmore, Path.withoutDots_append, Path.withoutDots_append,
      Path.withoutDots_cons (by decide)] at hcount
    simp only [List.length_append, List.length_cons] at hcount
    apply List.eq_nil_of_length_eq_zero
    omega
  have hlast : above.steps ++ dots ++ ['.', '.'] :: dots' = p.steps := by
    rw [← hmore, List.append_assoc]
  exact h.makeDirectory_ne_notFound hdots hlast hmissing

end Backed

/-- Making a directory by a path each of whose `..` steps starts at a directory changes
nothing, or it leaves the directory with nothing in it. -/
theorem Backed.makeDirectoriesWithin (h : t.Backed p) (levels : Nat) :
    (t.makeDirectoriesWithin levels p).1 = t ∨
      (t.makeDirectoriesWithin levels p).1.Barren p := by
  induction levels generalizing p with
  | zero => exact .inl rfl
  | succ levels ih =>
    unfold FileTree.makeDirectoriesWithin
    split
    · exact .inl rfl
    · split
      · rename_i t' hmade
        exact .inr (barren_of_makeDirectory hmade)
      · rename_i hmissing
        cases hparent : p.parent? with
        | none => exact .inl rfl
        | some above =>
          obtain ⟨more, hsteps, hup⟩ := h.exists_steps_append hparent hmissing
          -- What is new or unchanged above is so below, should nothing more be made.
          have hbelow : (t.makeDirectoriesWithin levels above).1 = t ∨
              (t.makeDirectoriesWithin levels above).1.Barren p :=
            (ih (h.parent? hparent)).imp_right fun hbarren =>
              hbarren.of_steps (Path.steps_of_parent? hparent).1 hsteps hup
          dsimp only
          generalize t.makeDirectoriesWithin levels above = made at hbelow ⊢
          obtain ⟨t', e | _⟩ := made
          · exact hbelow
          · dsimp only
            split
            · rename_i t'' hlast
              exact .inr (barren_of_makeDirectory hlast)
            · exact hbelow
      · exact .inl rfl

end Recompile.FileTree
