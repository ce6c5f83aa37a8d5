import Mathlib.Logic.Relation
import Recompile.Proofs.FileTree.Growth

/-!
# Publishing a file

A file is published in two steps: missing directories are made, and the content takes the
place of the last name of the path. The first step makes directories on the way and nothing
else (`FileTree.Furnished`); the second one changes what one place has, and that is no
directory (`FileTree.PublishedAt`). So a file that cannot be published leaves all files as
they are (`FileTree.AllOrNothing`).

The path of a published file can be read, unless it leads through the very place of the
file: `l/../l` goes through a link `l` to a directory, and no further when a file has taken
the place of that link (`FileTree.read_of_blocked`).
-/

set_option autoImplicit false

namespace Recompile

/-- A path is another one or a directory above it, as the paths are written. -/
def Path.AtOrAbove (p q : Path) : Prop :=
  Relation.ReflTransGen (fun a b => a.parent? = some b) p q

namespace FileTree

variable {t t' made : FileTree} {levels : Nat} {d : Location} {n : Name} {loc : Location}
  {dir p q : Path} {bytes : List UInt8}

/-! ## The directories that are made -/

/-- A new directory is what its path leads to. -/
theorem find_of_makeDirectory (hwalk : t.walkToLast p = .before d n)
    (hmissing : t.entry? (n :: d) = none) :
    find (t.put (n :: d) .directory) p = .ok (n :: d, .directory) := by
  have hroom : t.HasRoom (n :: d) := hasRoom_of_walkToLast hwalk (by simp [hmissing])
  have hentry : entry? (t.put (n :: d) .directory) (n :: d) = some .directory := by
    rw [entry?_put hroom, if_pos rfl]
  have hbefore := follow_of_walkToLast hwalk
  obtain ⟨hn, hshort⟩ := isName_of_follow hbefore
  have hrefusal := refusal?_of_walkToLast hwalk
  obtain ⟨extra, hextra, hsteps⟩ := lookupSteps_eq_append p
  obtain ⟨links, hfollow⟩ :=
    follow_append_of_before (Extends.put .directory hmissing) true extra hbefore
  have hpath : walk (t.put (n :: d) .directory) true p =
      follow (t.put (n :: d) .directory) true links d (n :: extra) := by
    unfold walk
    rw [hrefusal, hsteps, workingDir_put]
    exact hfollow
  unfold find
  rw [hpath]
  rcases hextra with rfl | rfl
  · have hadv : advance (t.put (n :: d) .directory) true d [n] = .before d n :=
      advance_single_of_not_link hn hshort (by simp [hentry])
    rw [follow_of_advance (by simp [hadv]), hadv]
    simp only [hentry]
  · have hadv : advance (t.put (n :: d) .directory) true d [n, ['.']] = .inside (n :: d) := by
      rw [advance_down hn hshort (by simp) hentry, advance_dot, advance_nil]
    rw [follow_of_advance (by simp [hadv]), hadv]

/-- A place is kept, or a directory has been made there to which a path leads that is at or
above the given one. -/
def KeptOrMade (t : FileTree) (p : Path) (made : FileTree) (loc : Location) : Prop :=
  made.entry? loc = t.entry? loc ∨ t.entry? loc = none ∧ made.entry? loc = some .directory ∧
    ∃ q, p.AtOrAbove q ∧ made.find q = .ok (loc, .directory)

/-- Making one directory keeps every place or makes the directory in it. -/
theorem keptOrMade_makeDirectory (h : t.makeDirectory p = .ok t') (loc : Location) :
    t.KeptOrMade p t' loc := by
  obtain ⟨d, n, hwalk, hmissing, hroom, rfl⟩ := makeDirectory_eq_ok h
  unfold KeptOrMade
  rw [entry?_put hroom]
  split
  · rename_i heq
    subst heq
    exact .inr ⟨hmissing, rfl, p, .refl, find_of_makeDirectory hwalk hmissing⟩
  · exact .inl rfl

/-- A directory is found by the same path in a grown tree. -/
theorem Grown.find_directory (h : t.Grown t') (hfind : t.find q = .ok (loc, .directory)) :
    t'.find q = .ok (loc, .directory) := by
  apply find_of_kept hfind h.workingDir
  rintro l ((hdir | ⟨target, hlink⟩) | hdir)
  · rw [hdir, h.entry?_of_some hdir]
  · rw [hlink, h.entry?_of_some hlink]
  · rw [hdir, h.entry?_of_some hdir]

/-- The last directory of a chain is made after those above it. -/
theorem KeptOrMade.last {above : Path} (h : t.KeptOrMade above made loc)
    (hp : p.parent? = some above) (hlast : made.makeDirectory p = .ok t') :
    t.KeptOrMade p t' loc := by
  rcases keptOrMade_makeDirectory hlast loc with hsame | ⟨hmissing, hdir, hway⟩
  · rcases h with hkept | ⟨hmissing, hdir, q, hq, hfind⟩
    · exact .inl (hsame.trans hkept)
    · exact .inr ⟨hmissing, hsame.trans hdir, q, .head hp hq,
        (grown_makeDirectory hlast).find_directory hfind⟩
  · rcases h with hkept | ⟨-, hheld, -⟩
    · exact .inr ⟨hkept ▸ hmissing, hdir, hway⟩
    · rw [hmissing] at hheld
      cases hheld

/-- What is at or above the directory above a path is at or above the path. -/
theorem KeptOrMade.below {above : Path} (h : t.KeptOrMade above made loc)
    (hp : p.parent? = some above) : t.KeptOrMade p made loc :=
  h.imp_right fun ⟨hmissing, hdir, q, hq, hfind⟩ => ⟨hmissing, hdir, q, .head hp hq, hfind⟩

/-- Making a chain of directories makes no others. -/
theorem keptOrMade_makeDirectoriesWithin (t : FileTree) (levels : Nat) (p : Path)
    (loc : Location) : t.KeptOrMade p (t.makeDirectoriesWithin levels p).1 loc := by
  induction levels generalizing p with
  | zero => exact .inl rfl
  | succ levels ih =>
    unfold makeDirectoriesWithin
    split
    · exact .inl rfl
    · split
      · rename_i hmade
        exact keptOrMade_makeDirectory hmade loc
      · cases hparent : p.parent? with
        | none => exact .inl rfl
        | some above =>
          have habove := ih above
          dsimp only
          generalize t.makeDirectoriesWithin levels above = result at habove ⊢
          obtain ⟨made, e | _⟩ := result
          · exact habove.below hparent
          · dsimp only
            split
            · rename_i hlast
              exact habove.last hparent hlast
            · exact habove.below hparent
      · exact .inl rfl

/-- Another tree has directories that were missing on the way to one, and all that there
was. -/
structure Furnished (t : FileTree) (dir : Path) (made : FileTree) : Prop where
  workingDir : made.workingDir = t.workingDir
  entry : ∀ loc, t.KeptOrMade dir made loc

/-- Making directories down to a path furnishes the tree on the way to it, also if it fails. -/
theorem furnished_makeDirectories (t : FileTree) (p : Path) :
    t.Furnished p (t.makeDirectories p).1 :=
  ⟨(grown_makeDirectories t p).workingDir, keptOrMade_makeDirectoriesWithin t _ p⟩

namespace Furnished

/-- A furnished tree is a grown one. -/
theorem grown (h : t.Furnished p made) : t.Grown made :=
  ⟨h.workingDir, fun loc => (h.entry loc).imp_right fun ⟨hmissing, hdir, _⟩ => ⟨hmissing, hdir⟩⟩

/-- What is no directory has been there before. -/
theorem entry?_eq_some_iff {entry : Entry} (h : t.Furnished p made) (hentry : entry ≠ .directory) :
    made.entry? loc = some entry ↔ t.entry? loc = some entry := by
  refine ⟨fun hmade => ?_, h.grown.entry?_of_some⟩
  rcases h.grown.entry loc with hkept | ⟨-, hdir⟩
  · exact hkept ▸ hmade
  · rw [hdir] at hmade
    exact absurd (Option.some.inj hmade).symm hentry

/-- Nothing else can make a difference to a tree. -/
theorem congr {u : FileTree} (h : t.Furnished p made) (hdir : u.workingDir = made.workingDir)
    (hentry : ∀ loc, u.entry? loc = made.entry? loc) : t.Furnished p u := by
  refine ⟨hdir.trans h.workingDir, fun loc => ?_⟩
  rcases h.entry loc with hkept | ⟨hmissing, hmade, q, hq, hfind⟩
  · exact .inl ((hentry loc).trans hkept)
  · refine .inr ⟨hmissing, (hentry loc).trans hmade, q, hq, ?_⟩
    rw [find_of_agree hdir fun l _ => hentry l]
    exact hfind

end Furnished

/-! ## The way to a place that has been taken -/

/-- A path whose last name is no link leads to it. -/
theorem walk_true_of_not_link (hwalk : t.walk false p = .before d n)
    (hlink : ∀ target, t.entry? (n :: d) ≠ some (.link target)) :
    t.walk true p = .before d n := by
  have hfollow := follow_of_walk hwalk
  obtain ⟨hn, hshort⟩ := isName_of_follow hfollow
  obtain ⟨links, hlast⟩ := follow_append_of_before (.refl t) true [] hfollow
  have hadv : t.advance true d [n] = .before d n :=
    advance_single_of_not_link hn hshort fun _ => hlink
  rw [List.append_nil] at hlast
  unfold walk
  simp only [refusal?_of_walk hwalk]
  rw [hlast, follow_of_advance (by simp [hadv]), hadv]

section Blocked

variable {u : FileTree} {links : Nat} {start : Location} {steps : List Name}

/-- Steps that went through a place come to an end there once it is a file. -/
theorem advance_of_blocked (hfile : u.entry? loc = some (.file bytes))
    (hsame : ∀ l ≠ loc, u.entry? l = t.entry? l) (last : Bool)
    (hasked : loc ∈ t.askedAlong false start steps) :
    ∃ e, u.advance last start steps = .failed e := by
  have hway := u.way_advance last start steps
  generalize u.advance last start steps = halt at hway ⊢
  induction hway with
  | nil => simp [askedAlong] at hasked
  | dot _ ih | up _ ih => exact ih (by simpa using hasked)
  | long | missing | blocked => exact ⟨_, rfl⟩
  | stops hn => simp [askedAlong_single hn] at hasked
  | @link dir m rest _ hn _ _ hentry =>
    have hplace : m :: dir ≠ loc := fun heq => by simp [heq, hfile] at hentry
    rw [hsame _ hplace] at hentry
    by_cases hrest : rest = []
    · simp [hrest, askedAlong_single hn] at hasked
    · rw [askedAlong_stop hn hrest (by simp [hentry]), List.mem_singleton] at hasked
      exact absurd hasked.symm hplace
  | @down dir m _ _ hn _ hrest hentry _ ih =>
    have hplace : m :: dir ≠ loc := fun heq => by simp [heq, hfile] at hentry
    rw [hsame _ hplace] at hentry
    rw [askedAlong_down hn hrest hentry] at hasked
    exact ih ((List.mem_cons.mp hasked).resolve_left hplace.symm)

/-- With a file in a place that following asks for on the way, following fails. -/
theorem follow_of_blocked (hfile : u.entry? loc = some (.file bytes))
    (hsame : ∀ l ≠ loc, u.entry? l = t.entry? l) (last : Bool)
    (hasked : loc ∈ t.askedThrough false links start steps) :
    ∃ e, u.follow last links start steps = .failed e := by
  induction links generalizing start steps with
  | zero =>
    obtain ⟨e, hfailed⟩ := advance_of_blocked hfile hsame last hasked
    exact ⟨e, follow_of_failed hfailed⟩
  | succ links ih =>
    by_cases hfirst : loc ∈ t.askedAlong false start steps
    · obtain ⟨e, hfailed⟩ := advance_of_blocked hfile hsame last hfirst
      exact ⟨e, follow_of_failed hfailed⟩
    · rw [askedThrough] at hasked
      have hlater := (List.mem_append.mp hasked).resolve_left hfirst
      cases hadv : t.advance false start steps with
      | link e target rest =>
        rw [hadv] at hlater
        have hagree : t.Agree u (t.askedAlong false start steps) :=
          fun l hl => hsame l fun heq => hfirst (heq ▸ hl)
        have hlink : u.advance last start steps = .link e target rest := by
          have hwhole : u.advance last start (steps ++ []) = _ := advance_append_self start steps
          rw [advance_of_agree hagree, hadv] at hwhole
          simpa [Halt.resume] using hwhole
        rw [follow_succ_of_link hlink]
        exact ih hlater
      | inside | before | failed =>
        rw [hadv] at hlater
        cases hlater

/-- A path that led through a place cannot be read once that is a file. -/
theorem read_of_blocked (hdir : u.workingDir = t.workingDir)
    (hfile : u.entry? loc = some (.file bytes)) (hsame : ∀ l ≠ loc, u.entry? l = t.entry? l)
    (hasked : loc ∈ t.asked false p) : ∃ e, u.read p = .error e := by
  have hwalk : ∃ e, u.walk true p = .failed e := by
    unfold asked at hasked
    unfold walk
    rw [hdir]
    cases hrefusal : p.refusal? with
    | some e => exact ⟨e, rfl⟩
    | none =>
      rw [hrefusal] at hasked
      exact follow_of_blocked hfile hsame true hasked
  obtain ⟨e, hfailed⟩ := hwalk
  unfold read find
  rw [hfailed]
  exact ⟨e, rfl⟩

end Blocked

/-- A file can still be read where directories are new and one place has changed, if the
path does not lead there. -/
theorem Grown.read_of_not_asked {u : FileTree} (h : t.Grown made)
    (hdir : u.workingDir = t.workingDir) (hsame : ∀ l ≠ loc, u.entry? l = made.entry? l)
    (hasked : loc ∉ t.asked true p) (hread : t.read p = .ok bytes) : u.read p = .ok bytes := by
  obtain ⟨d, n, hwalk, hfile⟩ := walk_of_read hread
  have hagree : t.Agree u (t.asked true p) := by
    intro l hl
    obtain ⟨entry, hentry⟩ : ∃ entry, t.entry? l = some entry := by
      rcases mem_asked (by simp [hwalk]) hl with (hheld | ⟨target, hheld⟩) | ⟨-, e, m, hlast, rfl⟩
      · exact ⟨_, hheld⟩
      · exact ⟨_, hheld⟩
      · cases hwalk.symm.trans hlast
        exact ⟨_, hfile⟩
    rw [hsame l fun heq => hasked (heq ▸ hl), hentry, h.entry?_of_some hentry]
  unfold read
  rw [find_of_agree hdir hagree]
  exact hread

/-! ## A file that has been published -/

/-- A tree with a published file. Directories have been made on the way, and then the place
of the last name of the path has got the content, whatever file or link was there. The path
reads the content, unless it led through that place itself: then there was a link, and
the file in its stead is the end of the way. -/
structure PublishedAt (t made : FileTree) (dir p : Path) (bytes : List UInt8) (place : Location)
    (u : FileTree) : Prop where
  furnished : t.Furnished dir made
  leads : ∃ d n, place = n :: d ∧ made.walk false p = .before d n
  workingDir : u.workingDir = t.workingDir
  entry : ∀ loc, u.entry? loc = if loc = place then some (.file bytes) else made.entry? loc
  no_directory : t.entry? place ≠ some .directory
  others : ∀ loc ≠ place, ∀ held ≠ .directory,
    u.entry? loc = some held ↔ t.entry? loc = some held
  read : place ∉ made.asked false p → u.read p = .ok bytes
  cut : place ∈ made.asked false p →
    (∃ target, t.entry? place = some (.link target)) ∧ ∃ e, u.read p = .error e
  read_other : ∀ q b, place ∉ t.asked true q → t.read q = .ok b → u.read q = .ok b

/-- A file is published by putting it in the place of the last name of its path, after
directories have been made. -/
theorem Furnished.publishedAt {u : FileTree} {n : Name} (h : t.Furnished dir made)
    (hwalk : made.walk false p = .before d n) (hplace : made.entry? (n :: d) ≠ some .directory)
    (hdir : u.workingDir = made.workingDir)
    (hentry : ∀ loc, u.entry? loc = if loc = n :: d then some (.file bytes)
      else made.entry? loc) : PublishedAt t made dir p bytes (n :: d) u := by
  have hfile : u.entry? (n :: d) = some (.file bytes) := by
    rw [hentry, if_pos rfl]
  have hsame (loc : Location) (hne : loc ≠ n :: d) : u.entry? loc = made.entry? loc := by
    rw [hentry, if_neg hne]
  have hnot : t.entry? (n :: d) ≠ some .directory := fun heq =>
    hplace (h.grown.entry?_of_some heq)
  refine ⟨h, ⟨d, n, rfl, hwalk⟩, hdir.trans h.workingDir, hentry, hnot, ?others, ?read, ?cut,
    ?other⟩
  case others =>
    intro loc hne held hheld
    rw [hsame loc hne]
    exact h.entry?_eq_some_iff hheld
  case read =>
    intro hasked
    have hwalk' : u.walk false p = .before d n := by
      rw [← hwalk]
      exact walk_of_agree hdir fun l hl => hsame l fun heq => hasked (heq ▸ hl)
    exact read_of_walk (walk_true_of_not_link hwalk' (by simp [hfile])) hfile
  case cut =>
    intro hasked
    refine ⟨?_, read_of_blocked hdir hfile hsame hasked⟩
    rcases mem_asked (by simp [hwalk]) hasked with (hdirectory | ⟨target, hlink⟩) | ⟨hlast, -⟩
    · exact absurd hdirectory hplace
    · exact ⟨target, (h.entry?_eq_some_iff (by simp)).mp hlink⟩
    · cases hlast
  case other =>
    intro q b hasked hread
    exact h.grown.read_of_not_asked (hdir.trans h.workingDir) hsame hasked hread

/-- Publishing a file is all or nothing: either it has got its content and all other files
are as before, or all files are. Directories may have been made either way. -/
structure AllOrNothing {ε : Type} (t : FileTree) (dir p : Path) (bytes : List UInt8)
    (outcome : FileTree × Except ε Unit) : Prop where
  done : outcome.2 = .ok () → ∃ made place, PublishedAt t made dir p bytes place outcome.1
  failed : ∀ e, outcome.2 = .error e → t.Furnished dir outcome.1 ∧
    (∀ loc, ∀ held ≠ .directory, entry? outcome.1 loc = some held ↔ t.entry? loc = some held) ∧
    ∀ q b, t.read q = .ok b → outcome.1.read q = .ok b

/-- A failure that leaves only directories behind is all or nothing. -/
theorem Furnished.allOrNothing_of_error {ε : Type} {f : ε} {u : FileTree} (h : t.Furnished dir u)
    (p : Path) (bytes : List UInt8) : AllOrNothing t dir p bytes (u, .error f) := by
  refine ⟨nofun, fun _ _ => ⟨h, fun _ _ => h.entry?_eq_some_iff, fun q b hread => ?_⟩⟩
  exact h.grown.read_of_ok hread

end FileTree

end Recompile
