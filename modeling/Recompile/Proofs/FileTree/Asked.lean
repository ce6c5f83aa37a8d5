import Recompile.Proofs.FileTree.Steps

/-!
# What a look-up depends on

A look-up asks what some locations hold, and nothing else about the tree. So a tree with
the same entries at these locations leads a path to the same place
(`FileTree.find_of_agree`), whatever has changed elsewhere. A look-up that does not fail
has asked for directories and links only, apart from the place to which it leads
(`FileTree.mem_asked`).
-/

set_option autoImplicit false

namespace Recompile.FileTree

variable {t t' : FileTree} {last : Bool} {links : Nat} {dir loc : Location}
  {steps : List Name} {p : Path}

/-- The locations for which following steps asks up to the first link. -/
def askedAlong (t : FileTree) (last : Bool) : Location → List Name → List Location
  | _, [] => []
  | dir, n :: rest =>
    if n = ['.'] then t.askedAlong last dir rest
    else if n = ['.', '.'] then t.askedAlong last dir.tail rest
    else if rest = [] then if last then [n :: dir] else []
    else (n :: dir) ::
      match t.entry? (n :: dir) with
      | some .directory => t.askedAlong last (n :: dir) rest
      | _ => []

/-- The locations for which following steps asks, through as many links as the number
allows. -/
def askedThrough (t : FileTree) (last : Bool) : Nat → Location → List Name → List Location
  | 0, dir, steps => t.askedAlong last dir steps
  | links + 1, dir, steps =>
    t.askedAlong last dir steps ++
      match t.advance last dir steps with
      | .link d target rest =>
        t.askedThrough last links (origin d target) (target.lookupSteps ++ rest)
      | _ => []

/-- The locations for which a look-up of a path asks. -/
def asked (t : FileTree) (last : Bool) (p : Path) : List Location :=
  match p.refusal? with
  | some _ => []
  | none => t.askedThrough last linkLimit (origin t.workingDir p) p.lookupSteps

/-- Where the system takes a path, what is asked for is what following its steps asks for. -/
theorem asked_of_refusal? (h : p.refusal? = none) : t.asked last p =
    t.askedThrough last linkLimit (origin t.workingDir p) p.lookupSteps := by
  rw [asked, h]

/-! ## What is asked for on the way -/

/-- A `.` step asks for nothing. -/
@[simp] theorem askedAlong_dot :
    t.askedAlong last dir (['.'] :: steps) = t.askedAlong last dir steps := by
  simp [askedAlong]

/-- A `..` step asks for nothing. -/
@[simp] theorem askedAlong_up :
    t.askedAlong last dir (['.', '.'] :: steps) = t.askedAlong last dir.tail steps := by
  simp [askedAlong]

/-- The last name is asked for if links at the end are gone through. -/
theorem askedAlong_single {n : Name} (hn : IsName n) :
    t.askedAlong last dir [n] = if last then [n :: dir] else [] := by
  simp [askedAlong, hn.ne_dot, hn.ne_up]

/-- Any other name is asked for, and what comes after it only below a directory. -/
theorem askedAlong_cons {n : Name} {rest : List Name} (hn : IsName n) (hrest : rest ≠ []) :
    t.askedAlong last dir (n :: rest) = (n :: dir) ::
      match t.entry? (n :: dir) with
      | some .directory => t.askedAlong last (n :: dir) rest
      | _ => [] := by
  rw [askedAlong, if_neg hn.ne_dot, if_neg hn.ne_up, if_neg hrest]

/-- Below a directory what comes after a name is asked for as well. -/
theorem askedAlong_down {n : Name} {rest : List Name} (hn : IsName n) (hrest : rest ≠ [])
    (hentry : t.entry? (n :: dir) = some .directory) :
    t.askedAlong last dir (n :: rest) = (n :: dir) :: t.askedAlong last (n :: dir) rest := by
  rw [askedAlong_cons hn hrest, hentry]

/-- Where there is no directory nothing more is asked for. -/
theorem askedAlong_stop {n : Name} {rest : List Name} (hn : IsName n) (hrest : rest ≠ [])
    (hentry : t.entry? (n :: dir) ≠ some .directory) :
    t.askedAlong last dir (n :: rest) = [n :: dir] := by
  rw [askedAlong_cons hn hrest]
  split
  · exact absurd ‹_› hentry
  · rfl

/-- A link that is gone through is the last place that is asked for. -/
theorem askedAlong_link {n : Name} {rest : List Name} {target : Path} (hn : IsName n)
    (hthrough : rest = [] → last = true) (hentry : t.entry? (n :: dir) = some (.link target)) :
    t.askedAlong last dir (n :: rest) = [n :: dir] := by
  by_cases hrest : rest = []
  · rw [hthrough hrest, hrest, askedAlong_single hn]
    rfl
  · exact askedAlong_stop hn hrest (by simp [hentry])

/-- A name on the way is asked for, and so is the last one if links there are gone through. -/
theorem mem_askedAlong_cons {n : Name} {rest : List Name} (hn : IsName n)
    (hthrough : rest = [] → last = true) : n :: dir ∈ t.askedAlong last dir (n :: rest) := by
  by_cases hrest : rest = []
  · rw [hthrough hrest, hrest, askedAlong_single hn]
    exact List.mem_singleton_self _
  · rw [askedAlong_cons hn hrest]
    exact List.mem_cons_self

/-- The first link that following steps meets is asked for, and the steps that are left after
it are some of the last ones. -/
theorem link_of_advance {d : Location} {target : Path} {rest : List Name}
    (h : t.advance last dir steps = .link d target rest) :
    (∃ n, t.entry? (n :: d) = some (.link target) ∧ n :: d ∈ t.askedAlong last dir steps) ∧
      rest ⊆ steps := by
  have hway := t.way_advance last dir steps
  generalize t.advance last dir steps = halt at h hway
  induction hway with
  | nil | long | stops | missing | blocked => cases h
  | dot _ ih =>
    obtain ⟨hlink, hsub⟩ := ih h
    exact ⟨by simpa using hlink, List.subset_cons_of_subset _ hsub⟩
  | up _ ih =>
    obtain ⟨hlink, hsub⟩ := ih h
    exact ⟨by simpa using hlink, List.subset_cons_of_subset _ hsub⟩
  | @link dir n _ _ hn _ hthrough hentry =>
    cases h
    exact ⟨⟨n, hentry, mem_askedAlong_cons hn hthrough⟩, List.subset_cons_self n rest⟩
  | down hn _ hmore hentry _ ih =>
    obtain ⟨⟨m, hlink, hmem⟩, hsub⟩ := ih h
    rw [askedAlong_down hn hmore hentry]
    exact ⟨⟨m, hlink, List.mem_cons_of_mem _ hmem⟩, List.subset_cons_of_subset _ hsub⟩

/-- What further steps ask for from where others come to a halt. -/
def Halt.askedOnward (t : FileTree) (last : Bool) (extra : List Name) : Halt → List Location
  | .inside dir => t.askedAlong last dir extra
  | .before dir n => t.askedAlong last dir (n :: extra)
  | .link _ _ _ | .failed _ => []

/-- All steps together ask for what the last of them ask for. -/
theorem askedOnward_subset (t : FileTree) (last : Bool) (dir : Location)
    (steps extra : List Name) :
    (t.advance false dir steps).askedOnward t last extra ⊆
      t.askedAlong last dir (steps ++ extra) := by
  have hway := t.way_advance false dir steps
  generalize t.advance false dir steps = halt at hway
  induction hway with
  | nil | stops => exact List.Subset.refl _
  | dot _ ih | up _ ih => simpa using ih
  | long | link | missing | blocked => exact List.nil_subset _
  | @down _ _ rest _ hn _ hrest hentry _ ih =>
    have hmore : rest ++ extra ≠ [] := by simp [hrest]
    rw [List.cons_append, askedAlong_down hn hmore hentry]
    exact List.subset_cons_of_subset _ ih

/-- Steps that come to the same halt as others, and before that ask for no more, ask for no
more through links. -/
theorem askedThrough_subset {dir' : Location} {steps' : List Name}
    (hhalt : t.advance last dir' steps' = t.advance last dir steps)
    (hsub : t.askedAlong last dir' steps' ⊆ t.askedAlong last dir steps) :
    t.askedThrough last links dir' steps' ⊆ t.askedThrough last links dir steps := by
  cases links with
  | zero => exact hsub
  | succ links =>
    rw [askedThrough, askedThrough, hhalt]
    exact List.append_subset.mpr
      ⟨List.Subset.trans hsub (List.subset_append_left _ _), List.subset_append_right _ _⟩

/-! ## Trees that agree on what is asked for -/

/-- Another tree has the same entries at some locations. -/
def Agree (t t' : FileTree) (locs : List Location) : Prop :=
  ∀ loc ∈ locs, t'.entry? loc = t.entry? loc

/-- Trees that agree at some locations agree at fewer of them. -/
theorem Agree.mono {locs locs' : List Location} (h : t.Agree t' locs) (hsub : locs' ⊆ locs) :
    t.Agree t' locs' :=
  fun loc hloc => h loc (hsub hloc)

/-- Going on to the first link is the same in trees that agree on what it asks for. -/
theorem advance_of_agree (h : t.Agree t' (t.askedAlong last dir steps)) :
    t'.advance last dir steps = t.advance last dir steps := by
  have hway := t.way_advance last dir steps
  generalize t.advance last dir steps = halt at hway
  apply Way.advance_eq
  induction hway with
  | nil => exact .nil
  | dot _ ih => exact .dot (ih (by simpa using h))
  | up _ ih => exact .up (ih (by simpa using h))
  | long hn hlong => exact .long hn hlong
  | stops hn hshort hnot =>
    refine .stops hn hshort fun hlast target => ?_
    rw [h _ (mem_askedAlong_cons hn fun _ => hlast)]
    exact hnot hlast target
  | link hn hshort hthrough hentry =>
    exact .link hn hshort hthrough ((h _ (mem_askedAlong_cons hn hthrough)).trans hentry)
  | missing hn hshort hrest hentry =>
    have heq := h _ (mem_askedAlong_cons hn fun hnil => absurd hnil hrest)
    exact .missing hn hshort hrest (heq.trans hentry)
  | blocked hn hshort hrest hentry hfile =>
    have heq := h _ (mem_askedAlong_cons hn fun hnil => absurd hnil hrest)
    exact .blocked hn hshort hrest (heq.trans hentry) hfile
  | down hn hshort hrest hentry _ ih =>
    rw [askedAlong_down hn hrest hentry] at h
    have heq := h _ List.mem_cons_self
    exact .down hn hshort hrest (heq.trans hentry) (ih (h.mono (List.subset_cons_self _ _)))

/-- Following steps is the same in trees that agree on what it asks for. -/
theorem follow_of_agree (h : t.Agree t' (t.askedThrough last links dir steps)) :
    t'.follow last links dir steps = t.follow last links dir steps := by
  induction links generalizing dir steps with
  | zero =>
    unfold follow
    rw [advance_of_agree h]
  | succ links ih =>
    have hadvance : t'.advance last dir steps = t.advance last dir steps :=
      advance_of_agree (h.mono (List.subset_append_left _ _))
    unfold follow
    rw [hadvance]
    cases hhalt : t.advance last dir steps with
    | link d target rest =>
      apply ih
      rw [askedThrough, hhalt] at h
      exact h.mono (List.subset_append_right _ _)
    | inside | before | failed => rfl

/-- Walking along a path is the same in trees that agree on what it asks for. -/
theorem walk_of_agree (hdir : t'.workingDir = t.workingDir) (h : t.Agree t' (t.asked last p)) :
    t'.walk last p = t.walk last p := by
  unfold asked at h
  unfold walk
  rw [hdir]
  cases hrefusal : p.refusal? with
  | some e => rfl
  | none =>
    rw [hrefusal] at h
    exact follow_of_agree h

/-! ## The place to which a look-up leads -/

/-- A path is read if it may be followed and a file with these bytes stands at its end. -/
theorem read_eq_ok_iff {bytes : List UInt8} : t.read p = .ok bytes ↔
    p.refusal? = none ∧ ∃ dir n,
      t.follow true linkLimit (origin t.workingDir p) p.lookupSteps = .before dir n ∧
        t.entry? (n :: dir) = some (.file bytes) := by
  constructor
  · intro hread
    obtain ⟨dir, n, hwalk, hentry⟩ := walk_of_read hread
    exact ⟨refusal?_of_walk hwalk, dir, n, follow_of_walk hwalk, hentry⟩
  · rintro ⟨hrefusal, dir, n, hfollow, hentry⟩
    have hwalk : t.walk true p = .before dir n := by
      unfold walk
      rw [hrefusal]
      exact hfollow
    exact read_of_walk hwalk hentry

/-- A path leads to a file if it may be followed and one stands at its end. -/
theorem isFile_eq_true_iff : t.isFile p = true ↔
    p.refusal? = none ∧ ∃ dir n entry,
      t.follow true linkLimit (origin t.workingDir p) p.lookupSteps = .before dir n ∧
        t.entry? (n :: dir) = some entry ∧ entry.isFile = true := by
  constructor
  · intro hfile
    obtain ⟨dir, n, entry, hwalk, hentry, hkind⟩ := walk_of_isFile hfile
    exact ⟨refusal?_of_walk hwalk, dir, n, entry, follow_of_walk hwalk, hentry, hkind⟩
  · rintro ⟨hrefusal, dir, n, entry, hfollow, hentry, hkind⟩
    have hwalk : t.walk true p = .before dir n := by
      unfold walk
      rw [hrefusal]
      exact hfollow
    exact isFile_of_walk hwalk hentry hkind

/-- The place at which going on halts was asked for. -/
theorem mem_askedAlong_of_before {n : Name} (h : t.advance true dir steps = .before loc n) :
    n :: loc ∈ t.askedAlong true dir steps := by
  have hway := t.way_advance true dir steps
  generalize t.advance true dir steps = halt at h hway
  induction hway with
  | nil | long | link | missing | blocked => cases h
  | dot _ ih | up _ ih => simpa using ih h
  | stops hn =>
    cases h
    exact mem_askedAlong_cons hn fun _ => rfl
  | down hn _ hrest hentry _ ih =>
    rw [askedAlong_down hn hrest hentry]
    exact List.mem_cons_of_mem _ (ih h)

/-- The place at which following halts was asked for. -/
theorem mem_askedThrough_of_before {n : Name}
    (h : t.follow true links dir steps = .before loc n) :
    n :: loc ∈ t.askedThrough true links dir steps := by
  induction links generalizing dir steps with
  | zero =>
    rcases follow_eq_before h with hadv | ⟨links', -, -, -, hzero, -⟩
    · exact mem_askedAlong_of_before hadv
    · cases hzero
  | succ links ih =>
    rw [askedThrough]
    apply List.mem_append.mpr
    rcases follow_eq_before h with hadv | ⟨links', e, target, rest, hsucc, hadv, hrest⟩
    · exact .inl (mem_askedAlong_of_before hadv)
    · cases hsucc
      rw [hadv]
      exact .inr (ih hrest)

/-- The place at which a walk halts was asked for. -/
theorem mem_asked_of_before {n : Name} (h : t.walk true p = .before loc n) :
    n :: loc ∈ t.asked true p := by
  unfold asked
  unfold walk at h
  revert h
  cases p.refusal? with
  | some e =>
    intro h
    cases h
  | none =>
    intro h
    exact mem_askedThrough_of_before h

/-- A path leads to the same entry in a tree that has the same entries where the look-up
asks. -/
theorem find_of_agree (hdir : t'.workingDir = t.workingDir) (h : t.Agree t' (t.asked true p)) :
    t'.find p = t.find p := by
  unfold find
  rw [walk_of_agree hdir h]
  cases hwalk : t.walk true p with
  | before dir n =>
    have hentry : t'.entry? (n :: dir) = t.entry? (n :: dir) := h _ (mem_asked_of_before hwalk)
    simp only [hentry]
  | inside | link | failed => rfl

/-! ## The locations for which a look-up asks that does not fail -/

/-- A location through which a look-up can go. -/
def Passable (t : FileTree) (loc : Location) : Prop :=
  t.entry? loc = some .directory ∨ ∃ target, t.entry? loc = some (.link target)

/-- Going on that does not fail asks for places it can go through, and last for the place at which
it halts. -/
theorem mem_askedAlong (hfailed : ∀ e, t.advance last dir steps ≠ .failed e)
    (h : loc ∈ t.askedAlong last dir steps) :
    t.Passable loc ∨
      last = true ∧ ∃ d n, t.advance last dir steps = .before d n ∧ loc = n :: d := by
  have hway := t.way_advance last dir steps
  generalize t.advance last dir steps = halt at hfailed hway ⊢
  induction hway with
  | nil => simp [askedAlong] at h
  | dot _ ih | up _ ih => exact ih (by simpa using h) hfailed
  | long | missing | blocked => exact absurd rfl (hfailed _)
  | @stops dir n hn =>
    rw [askedAlong_single hn] at h
    cases last with
    | false => simp at h
    | true =>
      obtain rfl : loc = n :: dir := by simpa using h
      exact .inr ⟨rfl, dir, n, rfl, rfl⟩
  | @link dir n _ target hn _ hthrough hentry =>
    rw [askedAlong_link hn hthrough hentry] at h
    obtain rfl : loc = n :: dir := by simpa using h
    exact .inl (.inr ⟨target, hentry⟩)
  | down hn _ hrest hentry _ ih =>
    rw [askedAlong_down hn hrest hentry] at h
    rcases List.mem_cons.mp h with rfl | h
    · exact .inl (.inl hentry)
    · exact ih h hfailed

/-- The same places of another tree can be gone through, with the same entries. -/
def SamePassages (t t' : FileTree) : Prop :=
  ∀ loc, t.Passable loc ∨ t'.Passable loc → t'.entry? loc = t.entry? loc

/-- Having the same passages is symmetric. -/
theorem SamePassages.symm (h : t.SamePassages t') : t'.SamePassages t :=
  fun loc hloc => (h loc hloc.symm).symm

/-- Trees with the same passages have the same directories. -/
theorem SamePassages.directory_iff (h : t.SamePassages t') (loc : Location) :
    t'.entry? loc = some .directory ↔ t.entry? loc = some .directory :=
  ⟨fun hdir => (h loc (.inr (.inl hdir))).symm.trans hdir,
    fun hdir => (h loc (.inl (.inl hdir))).trans hdir⟩

/-- Going on asks for the same locations in trees with the same passages. -/
theorem SamePassages.askedAlong_eq (h : t.SamePassages t') (last : Bool) (dir : Location)
    (steps : List Name) : t'.askedAlong last dir steps = t.askedAlong last dir steps := by
  induction steps generalizing dir with
  | nil => rfl
  | cons n rest ih =>
    have hbelow : (match t'.entry? (n :: dir) with
          | some .directory => t'.askedAlong last (n :: dir) rest
          | _ => []) =
        match t.entry? (n :: dir) with
          | some .directory => t.askedAlong last (n :: dir) rest
          | _ => [] := by
      split
      · rename_i hdirectory
        rw [(h.directory_iff _).mp hdirectory, ih]
      · rename_i hnot
        split
        · rename_i hdirectory
          exact absurd ((h.directory_iff _).mpr hdirectory) hnot
        · rfl
    unfold askedAlong
    rw [ih, ih, hbelow]

/-- Steps that meet a link in one tree meet it in the other. -/
theorem SamePassages.advance_of_link (h : t.SamePassages t') {d : Location} {target : Path}
    {rest : List Name} (hlink : t.advance last dir steps = .link d target rest) :
    t'.advance last dir steps = .link d target rest := by
  rw [← hlink]
  apply advance_of_agree
  intro loc hloc
  apply h
  rcases mem_askedAlong (by simp [hlink]) hloc with hpassable | ⟨-, e, n, hbefore, -⟩
  · exact .inl hpassable
  · rw [hlink] at hbefore
    cases hbefore

/-- A look-up asks for the same locations in both trees. -/
theorem SamePassages.askedThrough_eq (h : t.SamePassages t') (last : Bool) (links : Nat)
    (dir : Location) (steps : List Name) :
    t'.askedThrough last links dir steps = t.askedThrough last links dir steps := by
  induction links generalizing dir steps with
  | zero => exact h.askedAlong_eq last dir steps
  | succ links ih =>
    rw [askedThrough, askedThrough, h.askedAlong_eq]
    congr 1
    cases hhalt : t.advance last dir steps with
    | link d target rest =>
      rw [h.advance_of_link hhalt]
      exact ih ..
    | inside | before | failed =>
      split
      · rename_i hhalt'
        rw [h.symm.advance_of_link hhalt'] at hhalt
        cases hhalt
      · rfl

/-- Walking along a path asks for the same locations in trees with the same passages. -/
theorem SamePassages.asked_eq (h : t.SamePassages t') (hdir : t'.workingDir = t.workingDir)
    (last : Bool) (p : Path) : t'.asked last p = t.asked last p := by
  unfold asked
  rw [hdir]
  split
  · rfl
  · exact h.askedThrough_eq ..

/-- Following that does not fail asks for places it can go through, and last for the place at
which it halts. -/
theorem mem_askedThrough (hfailed : ∀ e, t.follow last links dir steps ≠ .failed e)
    (h : loc ∈ t.askedThrough last links dir steps) :
    t.Passable loc ∨
      last = true ∧ ∃ d n, t.follow last links dir steps = .before d n ∧ loc = n :: d := by
  induction links generalizing dir steps with
  | zero =>
    have hlink : ∀ d target rest, t.advance last dir steps ≠ .link d target rest := by
      intro d target rest hlink
      exact hfailed _ (follow_zero_of_link hlink)
    rw [follow_of_advance hlink] at hfailed ⊢
    exact mem_askedAlong hfailed h
  | succ links ih =>
    rw [askedThrough] at h
    cases hhalt : t.advance last dir steps with
    | failed e => exact absurd (follow_of_failed hhalt) (hfailed e)
    | link d target rest =>
      rw [follow_succ_of_link hhalt] at hfailed ⊢
      rw [hhalt] at h
      rcases List.mem_append.mp h with h | h
      · rcases mem_askedAlong (by simp [hhalt]) h with hpassable | ⟨-, e, n, hbefore, -⟩
        · exact .inl hpassable
        · rw [hhalt] at hbefore
          cases hbefore
      · exact ih hfailed h
    | inside | before =>
      rw [hhalt, List.append_nil] at h
      rw [follow_of_advance (by simp [hhalt])]
      exact mem_askedAlong (by simp [hhalt]) h

/-- A look-up that does not fail has asked for places through which it went, and for the
one to which it leads if links at the end are gone through. -/
theorem mem_asked (hfailed : ∀ e, t.walk last p ≠ .failed e) (h : loc ∈ t.asked last p) :
    t.Passable loc ∨
      last = true ∧ ∃ d n, t.walk last p = .before d n ∧ loc = n :: d := by
  unfold asked at h
  unfold walk at hfailed ⊢
  cases hrefusal : p.refusal? with
  | some e => simp [hrefusal] at h
  | none =>
    rw [hrefusal] at h
    simp only [hrefusal] at hfailed ⊢
    exact mem_askedThrough hfailed h

/-- A path leads to the same entry where that is kept and all directories and links are. -/
theorem find_of_kept {entry : Entry} (hfind : t.find p = .ok (loc, entry))
    (hdir : t'.workingDir = t.workingDir)
    (hkept : ∀ l, t.Passable l ∨ t.entry? l = some entry → t'.entry? l = t.entry? l) :
    t'.find p = .ok (loc, entry) := by
  rw [← hfind]
  apply find_of_agree hdir
  intro l hl
  apply hkept
  unfold find at hfind
  cases hwalk : t.walk true p with
  | inside dir =>
    rcases mem_asked (by simp [hwalk]) hl with hpassable | ⟨-, d, n, hbefore, -⟩
    · exact .inl hpassable
    · rw [hwalk] at hbefore
      cases hbefore
  | before dir n =>
    rw [hwalk] at hfind
    dsimp only at hfind
    split at hfind
    · rename_i hentry
      cases hfind
      rcases mem_asked (by simp [hwalk]) hl with hpassable | ⟨-, d, m, hbefore, rfl⟩
      · exact .inl hpassable
      · cases hwalk.symm.trans hbefore
        exact .inr hentry
    · cases hfind
  | link | failed =>
    rw [hwalk] at hfind
    cases hfind

/-- A file can still be read where all directories and links are kept, and all files with
its bytes. -/
theorem read_of_kept {bytes : List UInt8} (hread : t.read p = .ok bytes)
    (hdir : t'.workingDir = t.workingDir)
    (hkept : ∀ l, t.Passable l ∨ t.entry? l = some (.file bytes) →
      t'.entry? l = t.entry? l) : t'.read p = .ok bytes := by
  obtain ⟨d, n, hwalk, hentry⟩ := walk_of_read hread
  unfold read
  rw [find_of_kept (find_of_walk hwalk hentry) hdir hkept]

end Recompile.FileTree
