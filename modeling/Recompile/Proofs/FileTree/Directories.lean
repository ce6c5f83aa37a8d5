import Recompile.Proofs.FileTree.Frame
import Recompile.Proofs.Path.Steps

/-!
# Making a directory

What lies below a directory is found by going to the directory first: the steps that lead
to it can be followed on their own, and further steps are followed from where they end
(`FileTree.follow_append_of_before`). So a directory that is there is not made again
(`FileTree.makeDirectories_of_isDirectory`), and a directory that is made stands where
nothing has been (`FileTree.makeDirectory_eq_ok`).
-/

set_option autoImplicit false

namespace Recompile

namespace FileTree

variable {t t' : FileTree} {last : Bool} {links : Nat} {dir d : Location} {n : Name}
  {steps extra : List Name} {p : Path}

/-! ## Steps in two parts -/

/-- A tree has all that another one has. -/
def Extends (t' t : FileTree) : Prop :=
  ∀ loc entry, t.entry? loc = some entry → t'.entry? loc = some entry

/-- A tree has all that it has. -/
theorem Extends.refl (t : FileTree) : t.Extends t :=
  fun _ _ => id

/-- Putting an entry where there was none loses nothing. -/
theorem Extends.put (entry : Entry) (h : t.entry? (n :: dir) = none) :
    (t.put (n :: dir) entry).Extends t := by
  intro loc e hloc
  rcases entry?_put_cases t (n :: dir) entry loc with heq | ⟨rfl, -⟩
  · exact heq.trans hloc
  · rw [h] at hloc
    cases hloc

/-- Where further steps lead from where some steps came to a halt. -/
def Halt.resume (t : FileTree) (last : Bool) (extra : List Name) : Halt → Halt
  | .inside dir => t.advance last dir extra
  | .before dir n => t.advance last dir (n :: extra)
  | .link dir target rest => .link dir target (rest ++ extra)
  | .failed e => .failed e

/-- Steps can be followed in two parts, the second one also in a tree with more entries if
the first one does not fail. -/
theorem advance_append (h : t'.Extends t) (dir : Location) (steps : List Name)
    (hfailed : ∀ e, t.advance false dir steps = .failed e → t' = t) :
    t'.advance last dir (steps ++ extra) =
      (t.advance false dir steps).resume t' last extra := by
  have hway := t.way_advance false dir steps
  generalize t.advance false dir steps = halt at hfailed hway ⊢
  induction hway with
  | nil | stops => rfl
  | dot _ ih =>
    rw [List.cons_append, advance_dot]
    exact ih hfailed
  | up _ ih =>
    rw [List.cons_append, advance_up]
    exact ih hfailed
  | long hn hlong => exact advance_long hn hlong
  | link hn hshort hthrough hentry =>
    refine advance_link hn hshort (fun hnil => ?_) (h _ _ hentry)
    exact absurd (hthrough (List.append_eq_nil_iff.mp hnil).1) Bool.false_ne_true
  | missing hn hshort hrest hentry =>
    -- The name may be there in the larger tree, so this case needs one tree.
    rw [hfailed _ rfl]
    exact advance_missing hn hshort (List.append_ne_nil_of_left_ne_nil hrest extra) hentry
  | blocked hn hshort hrest hentry hfile =>
    have hmore := List.append_ne_nil_of_left_ne_nil hrest extra
    exact advance_blocked hn hshort hmore (h _ _ hentry) hfile
  | down hn hshort hrest hentry _ ih =>
    have hmore := List.append_ne_nil_of_left_ne_nil hrest extra
    rw [List.cons_append, advance_down hn hshort hmore (h _ _ hentry)]
    exact ih hfailed

/-- Following depends only on how far going on comes up to the first link. -/
theorem follow_congr {dir' : Location} {steps' : List Name}
    (h : t.advance last dir steps = t.advance last dir' steps') :
    t.follow last links dir steps = t.follow last links dir' steps' := by
  cases links <;> rw [follow, follow, h]

/-- Steps that follow a name are followed from the directory in which the name stands. -/
theorem follow_append_of_before (h : t'.Extends t) (last : Bool) (extra : List Name)
    (hbefore : t.follow false links dir steps = .before d n) :
    ∃ links', t'.follow last links dir (steps ++ extra) = t'.follow last links' d (n :: extra) := by
  induction links generalizing dir steps with
  | zero =>
    rcases follow_eq_before hbefore with hadv | ⟨links', -, -, -, hzero, -⟩
    · refine ⟨0, follow_congr ?_⟩
      rw [advance_append h dir steps (by simp [hadv]), hadv]
      rfl
    · cases hzero
  | succ links ih =>
    rcases follow_eq_before hbefore with hadv | ⟨links', e, target, rest, hsucc, hadv, hrest⟩
    · refine ⟨links + 1, follow_congr ?_⟩
      rw [advance_append h dir steps (by simp [hadv]), hadv]
      rfl
    · cases hsucc
      have hlink : t'.advance last dir (steps ++ extra) = .link e target (rest ++ extra) := by
        rw [advance_append h dir steps (by simp [hadv]), hadv]
        rfl
      rw [follow_succ_of_link hlink, ← List.append_assoc]
      exact ih hrest

/-- Going on with more steps behind is going on from where the first ones halted. -/
theorem advance_append_self (dir : Location) (steps : List Name) :
    t.advance last dir (steps ++ extra) = (t.advance false dir steps).resume t last extra :=
  advance_append (.refl t) dir steps fun _ _ => rfl

/-- A failure that comes before any link is still there with more steps behind. -/
theorem follow_append_of_not_link {e : OsError}
    (hlink : ∀ d target rest, t.advance false dir steps ≠ .link d target rest)
    (hfailed : t.follow false links dir steps = .failed e) :
    t.follow last links dir (steps ++ extra) = .failed e := by
  rw [follow_of_advance hlink] at hfailed
  refine follow_of_failed ?_
  rw [advance_append_self, hfailed]
  rfl

/-- Steps that fail do so whatever follows them. -/
theorem follow_append_of_failed {e : OsError}
    (hfailed : t.follow false links dir steps = .failed e) :
    t.follow last links dir (steps ++ extra) = .failed e := by
  induction links generalizing dir steps with
  | zero =>
    by_cases hlink : ∃ d target rest, t.advance false dir steps = .link d target rest
    · obtain ⟨d, target, rest, hadv⟩ := hlink
      have happend : t.advance last dir (steps ++ extra) = .link d target (rest ++ extra) := by
        rw [advance_append_self, hadv]
        rfl
      rw [follow_zero_of_link happend, ← hfailed, follow_zero_of_link hadv]
    · simp only [not_exists] at hlink
      exact follow_append_of_not_link hlink hfailed
  | succ links ih =>
    by_cases hlink : ∃ d target rest, t.advance false dir steps = .link d target rest
    · obtain ⟨d, target, rest, hadv⟩ := hlink
      have happend : t.advance last dir (steps ++ extra) = .link d target (rest ++ extra) := by
        rw [advance_append_self, hadv]
        rfl
      rw [follow_succ_of_link hadv] at hfailed
      rw [follow_succ_of_link happend, ← List.append_assoc]
      exact ih hfailed
    · simp only [not_exists] at hlink
      exact follow_append_of_not_link hlink hfailed

/-! ## A directory that is there -/

/-- A path that passes the test for a directory leads to one. -/
theorem isDirectory_eq_true (h : t.isDirectory p = true) :
    ∃ loc, t.find p = .ok (loc, .directory) := by
  unfold isDirectory at h
  split at h
  · exact ⟨_, by assumption⟩
  · cases h

/-- A trailing slash is one more `.` step. -/
theorem lookupSteps_eq_append (p : Path) :
    ∃ extra, (extra = [] ∨ extra = [['.']]) ∧ p.lookupSteps = p.steps ++ extra := by
  unfold Path.lookupSteps
  split
  · exact ⟨_, .inr rfl, rfl⟩
  · exact ⟨[], .inl rfl, by rw [List.append_nil]⟩

/-- A look-up that leads to something is one of the steps of the path, with or without a
`.` step after them. -/
theorem walk_of_find {loc : Location} {entry : Entry} (h : t.find p = .ok (loc, entry)) :
    p.refusal? = none ∧ ∃ extra, (extra = [] ∨ extra = [['.']]) ∧
      t.walk true p = t.follow true linkLimit (origin t.workingDir p) (p.steps ++ extra) := by
  cases hrefusal : p.refusal? with
  | some e => simp [find, walk, hrefusal] at h
  | none =>
    obtain ⟨extra, hextra, hsteps⟩ := lookupSteps_eq_append p
    refine ⟨rfl, extra, hextra, ?_⟩
    unfold walk
    simp only [hrefusal, hsteps]

/-- There is a way to the last name of a directory. -/
theorem walkToLast_ne_failed (h : t.isDirectory p = true) (e : OsError) :
    t.walkToLast p ≠ .failed e := by
  obtain ⟨loc, hfind⟩ := isDirectory_eq_true h
  obtain ⟨hrefusal, extra, -, hwalk⟩ := walk_of_find hfind
  unfold walkToLast
  simp only [hrefusal]
  intro hfailed
  rw [follow_append_of_failed hfailed] at hwalk
  rw [find, hwalk] at hfind
  cases hfind

/-- A directory cannot be made where one is. -/
theorem makeDirectory_of_isDirectory (h : t.isDirectory p = true) :
    t.makeDirectory p = .error .exists := by
  have hthere := walkToLast_ne_failed h
  obtain ⟨loc, hfind⟩ := isDirectory_eq_true h
  obtain ⟨hrefusal, extra, hextra, hwalk⟩ := walk_of_find hfind
  unfold walkToLast at hthere
  unfold makeDirectory walkToLast
  simp only [hrefusal] at hthere ⊢
  cases hlast : t.follow false linkLimit (origin t.workingDir p) p.steps with
  | inside => rfl
  | link => exact absurd hlast follow_ne_link
  | failed e => exact absurd hlast (hthere e)
  | before d n =>
    cases hentry : t.entry? (n :: d) with
    | some entry => simp only [hentry]
    | none =>
      obtain ⟨hn, hshort⟩ := isName_of_follow hlast
      obtain ⟨links, hfollow⟩ := follow_append_of_before (.refl t) true extra hlast
      rw [hfollow] at hwalk
      rcases hextra with rfl | rfl
      · have hadv : t.advance true d [n] = .before d n :=
          advance_single_of_not_link hn hshort (by simp [hentry])
        rw [follow_of_advance (by simp [hadv]), hadv] at hwalk
        simp [find, hwalk, hentry] at hfind
      · have hadv : t.advance true d [n, ['.']] = .failed .notFound :=
          advance_missing hn hshort (by simp) hentry
        rw [follow_of_failed hadv] at hwalk
        simp [find, hwalk] at hfind

/-- A directory that is there is not made again. -/
theorem makeDirectoriesWithin_of_isDirectory (h : t.isDirectory p = true) (levels : Nat) :
    t.makeDirectoriesWithin levels p = (t, .ok ()) := by
  cases levels with
  | zero => rfl
  | succ levels =>
    unfold makeDirectoriesWithin
    rw [makeDirectory_of_isDirectory h]
    simp [h]

/-- Making the directories down to one that is there does nothing. -/
theorem makeDirectories_of_isDirectory (h : t.isDirectory p = true) :
    t.makeDirectories p = (t, .ok ()) :=
  makeDirectoriesWithin_of_isDirectory h _

/-- A directory is made, or it is there already. -/
def Made (t : FileTree) (p : Path) (t' : FileTree) : Prop :=
  t.makeDirectory p = .ok t' ∨ t.isDirectory p = true ∧ t' = t

/-- The outcome of making one directory, where an error does not count if the directory is there.
-/
theorem made_iff : t.Made p t' ↔
    (match t.makeDirectory p with
      | .ok t'' => (t'', Except.ok ())
      | .error e => (t, if t.isDirectory p then .ok () else .error e)) = (t', .ok ()) := by
  unfold Made
  by_cases hdirectory : t.isDirectory p = true
  · simp [makeDirectory_of_isDirectory hdirectory, hdirectory, eq_comm]
  · cases t.makeDirectory p with
    | ok t'' => simp [hdirectory]
    | error e => simp [hdirectory]

/-- A walk to the last name of a directory that has been made does not fail. -/
theorem Made.walkToLast_ne_failed (h : t.Made p t') (e : OsError) : t.walkToLast p ≠ .failed e := by
  rcases h with hmade | ⟨hdirectory, -⟩
  · intro hfailed
    unfold makeDirectory at hmade
    rw [hfailed] at hmade
    cases hmade
  · exact FileTree.walkToLast_ne_failed hdirectory e

/-- A directory for which something is missing on the way has not been made. -/
theorem not_made_of_notFound (h : t.makeDirectory p = .error .notFound) : ¬ t.Made p t' := by
  rintro (hmade | ⟨hdirectory, -⟩)
  · cases h.symm.trans hmade
  · cases h.symm.trans (makeDirectory_of_isDirectory hdirectory)

/-- A chain of directories is made by making the last one, after those above it where that
is missing a directory. -/
theorem makeDirectoriesWithin_eq_ok_iff {levels : Nat} (hne : p.chars ≠ []) :
    t.makeDirectoriesWithin (levels + 1) p = (t', .ok ()) ↔
      t.Made p t' ∨ t.makeDirectory p = .error .notFound ∧ ∃ above t₁, p.parent? = some above ∧
        t.makeDirectoriesWithin levels above = (t₁, .ok ()) ∧ t₁.Made p t' := by
  rw [makeDirectoriesWithin, if_neg hne]
  cases hfirst : t.makeDirectory p with
  | ok t'' => simp [made_iff, hfirst]
  | error e =>
    by_cases he : e = .notFound
    · subst he
      have hnot : ¬ t.Made p t' := not_made_of_notFound hfirst
      cases hparent : p.parent? with
      | none => simp [hnot]
      | some above =>
        dsimp only
        cases habove : t.makeDirectoriesWithin levels above with
        | mk t₁ result =>
          cases result with
          | error e => simp [hnot, habove]
          | ok => cases hlast : t₁.makeDirectory p <;> simp [hnot, habove, made_iff, hlast]
    · cases e <;> first | exact absurd rfl he | simp [made_iff, hfirst]

/-! ## A new directory -/

/-- A directory is made at the place of the last name of its path, which is missing and where
there is room for it. -/
theorem makeDirectory_eq_ok (h : t.makeDirectory p = .ok t') :
    ∃ dir n, t.walkToLast p = .before dir n ∧ t.entry? (n :: dir) = none ∧
      t.HasRoom (n :: dir) ∧ t' = t.put (n :: dir) .directory := by
  unfold makeDirectory at h
  split at h
  · cases h
  · rename_i dir n hwalk
    split at h
    · cases h
    · rename_i hentry
      cases h
      exact ⟨dir, n, hwalk, hentry, hasRoom_of_walkToLast hwalk (by simp [hentry]), rfl⟩
  · cases h
  · cases h

end FileTree

end Recompile
