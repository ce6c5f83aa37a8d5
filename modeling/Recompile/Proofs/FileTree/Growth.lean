import Recompile.Proofs.FileTree.Asked
import Recompile.Proofs.FileTree.Directories
import Recompile.Proofs.FileTree.Spelling

/-!
# Trees with more directories

Making directories adds directories and changes nothing else (`FileTree.grown_makeDirectories`).
What could be read still can, and as a rule nothing else can be read: a new directory is
empty. The exception are `..` steps, in the path or in the target of a link, since `x/..`
only leads somewhere once there is a directory `x`. Without them a path reads the same
before and after (`FileTree.Grown.read_iff`), and below a directory that has been there
before it is enough that the rest of the path has none (`FileTree.Grown.read_join_iff`).
-/

set_option autoImplicit false

namespace Recompile.FileTree

open Recompile.Path (withoutDots)

variable {t t' t'' : FileTree} {last : Bool} {links : Nat} {dir d D : Location} {n : Name}
  {steps extra : List Name} {p : Path} {bytes : List UInt8}

/-- A tree with more directories. -/
structure Grown (t t' : FileTree) : Prop where
  workingDir : t'.workingDir = t.workingDir
  entry : ∀ loc, t'.entry? loc = t.entry? loc ∨
    t.entry? loc = none ∧ t'.entry? loc = some .directory

namespace Grown

/-- A tree is itself with no directory more. -/
theorem refl (t : FileTree) : t.Grown t :=
  ⟨rfl, fun _ => .inl rfl⟩

/-- Growing twice is growing. -/
theorem trans (h : t.Grown t') (h' : t'.Grown t'') : t.Grown t'' := by
  refine ⟨h'.workingDir.trans h.workingDir, fun loc => ?_⟩
  rcases h.entry loc with heq | ⟨hnone, hdir⟩
  · rw [← heq]
    exact h'.entry loc
  · right
    rcases h'.entry loc with heq | ⟨hnone', -⟩
    · exact ⟨hnone, heq.trans hdir⟩
    · rw [hdir] at hnone'
      cases hnone'

/-- What is in a tree is in the grown one, in its place. -/
theorem entry?_of_some {loc : Location} {entry : Entry} (h : t.Grown t')
    (hentry : t.entry? loc = some entry) : t'.entry? loc = some entry := by
  rcases h.entry loc with heq | ⟨hnone, -⟩
  · exact heq.trans hentry
  · rw [hentry] at hnone
    cases hnone

/-- What can be gone through can be gone through in the grown tree. -/
theorem passable {loc : Location} (h : t.Grown t') (hpassable : t.Passable loc) :
    t'.Passable loc :=
  hpassable.imp h.entry?_of_some fun ⟨target, hlink⟩ => ⟨target, h.entry?_of_some hlink⟩

/-- A grown tree has all that the first one has. -/
theorem keeps (h : t.Grown t') : t'.Extends t :=
  fun _ _ => h.entry?_of_some

/-- What could be read can still be read. -/
theorem read_of_ok (h : t.Grown t') (hread : t.read p = .ok bytes) : t'.read p = .ok bytes := by
  apply read_of_kept hread h.workingDir
  intro loc hkept
  rcases h.entry loc with heq | ⟨hnone, -⟩
  · exact heq
  · simp [Passable, hnone] at hkept

end Grown

/-! ## Making directories -/

/-- Making a directory grows the tree. -/
theorem grown_makeDirectory (h : t.makeDirectory p = .ok t') : t.Grown t' := by
  obtain ⟨dir, n, -, hmissing, hroom, rfl⟩ := makeDirectory_eq_ok h
  refine ⟨workingDir_put .., fun loc => ?_⟩
  rw [entry?_put hroom]
  split
  · rename_i heq
    exact .inr ⟨heq ▸ hmissing, rfl⟩
  · exact .inl rfl

/-- What making one directory does, over and over, making a chain of them does. -/
theorem makeDirectoriesWithin_induct {R : FileTree → FileTree → Prop} (hrefl : ∀ t, R t t)
    (htrans : ∀ t t' t'', R t t' → R t' t'' → R t t'')
    (hmake : ∀ t t' p, t.makeDirectory p = .ok t' → R t t') (t : FileTree) (levels : Nat)
    (p : Path) : R t (t.makeDirectoriesWithin levels p).1 := by
  induction levels generalizing p with
  | zero => exact hrefl t
  | succ levels ih =>
    unfold makeDirectoriesWithin
    split
    · exact hrefl t
    · split
      · rename_i hmade
        exact hmake _ _ _ hmade
      · cases hparent : p.parent? with
        | none => exact hrefl t
        | some above =>
          have habove := ih above
          dsimp only
          generalize t.makeDirectoriesWithin levels above = made at habove ⊢
          obtain ⟨t', e | _⟩ := made
          · exact habove
          · dsimp only
            split
            · rename_i hlast
              exact htrans _ _ _ habove (hmake _ _ _ hlast)
            · exact habove
      · exact hrefl t

/-- Making directories down to a path grows the tree, with any limit and also if it fails. -/
theorem grown_makeDirectoriesWithin (t : FileTree) (levels : Nat) (p : Path) :
    t.Grown (t.makeDirectoriesWithin levels p).1 :=
  makeDirectoriesWithin_induct .refl (fun _ _ _ => .trans) (fun _ _ _ => grown_makeDirectory)
    t levels p

/-- Making directories down to a path grows the tree, also if it fails. -/
theorem grown_makeDirectories (t : FileTree) (p : Path) : t.Grown (t.makeDirectories p).1 :=
  grown_makeDirectoriesWithin t _ p

/-! ## Steps below new directories -/

/-- No link at some locations leads up by its target. -/
def LinksDown (t : FileTree) (locs : List Location) : Prop :=
  ∀ loc ∈ locs, ∀ target, t.entry? loc = some (.link target) → ['.', '.'] ∉ target.steps

/-- Links that lead up at none of some locations do so at none of fewer. -/
theorem LinksDown.mono {locs locs' : List Location} (h : t.LinksDown locs) (hsub : locs' ⊆ locs) :
    t.LinksDown locs' :=
  fun loc hloc => h loc (hsub hloc)

/-- A halt at which there is no file. -/
def Halt.Fruitless (t : FileTree) : Halt → Prop
  | .inside _ | .failed _ => True
  | .before dir n => ∀ bytes, t.entry? (n :: dir) ≠ some (.file bytes)
  | .link _ _ _ => False

namespace Grown

/-- Below a new directory there are only new directories. -/
theorem fruitless_of_missing (h : t.Grown t') (hmissing : t.entry? dir = none)
    (hup : ['.', '.'] ∉ steps) : (t'.advance last dir steps).Fruitless t' := by
  have hnew (n : Name) {dir : Location} (hmissing : t.entry? dir = none) :
      t'.entry? (n :: dir) = none ∨ t'.entry? (n :: dir) = some .directory :=
    (h.entry (n :: dir)).imp (fun heq => heq.trans (entry?_below hmissing n)) And.right
  have hway := t'.way_advance last dir steps
  generalize t'.advance last dir steps = halt at hway
  induction hway with
  | nil | long | missing | blocked => trivial
  | dot _ ih => exact ih hmissing fun hmem => hup (List.mem_cons_of_mem _ hmem)
  | up => exact absurd List.mem_cons_self hup
  | @stops dir n =>
    intro bytes
    rcases hnew n hmissing with hentry | hentry <;> simp [hentry]
  | @link dir n _ _ _ _ _ hlink =>
    rcases hnew n hmissing with hentry | hentry <;> simp [hentry] at hlink
  | @down dir n _ _ _ _ _ _ _ ih =>
    exact ih (entry?_below hmissing n) fun hmem => hup (List.mem_cons_of_mem _ hmem)

/-- Up to the first link steps lead to the same halt, or to no file where they failed. -/
theorem advance (h : t.Grown t') (last : Bool) (dir : Location)
    (hup : ['.', '.'] ∉ steps) :
    t'.advance last dir steps = t.advance last dir steps ∨
      (∃ e, t.advance last dir steps = .failed e) ∧ (t'.advance last dir steps).Fruitless t' := by
  have hway := t.way_advance last dir steps
  generalize t.advance last dir steps = halt at hway ⊢
  induction hway with
  | nil => exact .inl advance_nil
  | dot _ ih =>
    rw [advance_dot]
    exact ih fun hmem => hup (List.mem_cons_of_mem _ hmem)
  | up => exact absurd List.mem_cons_self hup
  | long hn hlong => exact .inl (advance_long hn hlong)
  | @stops dir n hn hshort hnot =>
    refine .inl (advance_single_of_not_link hn hshort fun hlast target => ?_)
    rcases h.entry (n :: dir) with heq | ⟨-, hdirectory⟩
    · rw [heq]
      exact hnot hlast target
    · simp [hdirectory]
  | link hn hshort hthrough hentry =>
    exact .inl (advance_link hn hshort hthrough (h.entry?_of_some hentry))
  | @missing dir n rest hn hshort hrest hentry =>
    rcases h.entry (n :: dir) with heq | ⟨-, hdirectory⟩
    · exact .inl (advance_missing hn hshort hrest (heq.trans hentry))
    · refine .inr ⟨⟨_, rfl⟩, ?_⟩
      rw [advance_down hn hshort hrest hdirectory]
      exact h.fruitless_of_missing hentry fun hmem => hup (List.mem_cons_of_mem _ hmem)
  | blocked hn hshort hrest hentry hfile =>
    exact .inl (advance_blocked hn hshort hrest (h.entry?_of_some hentry) hfile)
  | down hn hshort hrest hentry _ ih =>
    rw [advance_down hn hshort hrest (h.entry?_of_some hentry)]
    exact ih fun hmem => hup (List.mem_cons_of_mem _ hmem)

/-- Through links as well steps lead to the same halt, or to no file where they failed. -/
theorem follow (h : t.Grown t') (hlinks : t.LinksDown (t.askedThrough last links dir steps))
    (hup : ['.', '.'] ∉ steps) :
    t'.follow last links dir steps = t.follow last links dir steps ∨
      (∃ e, t.follow last links dir steps = .failed e) ∧
        (t'.follow last links dir steps).Fruitless t' := by
  have hfruitless {links : Nat} {dir : Location} {steps : List Name}
      (hhalt : (t'.advance last dir steps).Fruitless t') :
      (t'.follow last links dir steps).Fruitless t' := by
    rw [follow_of_advance fun d target rest heq => by rw [heq] at hhalt; exact hhalt]
    exact hhalt
  induction links generalizing dir steps with
  | zero =>
    rcases h.advance last dir hup with heq | ⟨⟨e, hfailed⟩, hhalt⟩
    · left
      unfold FileTree.follow
      rw [heq]
    · exact .inr ⟨⟨e, follow_of_failed hfailed⟩, hfruitless hhalt⟩
  | succ links ih =>
    rcases h.advance last dir hup with heq | ⟨⟨e, hfailed⟩, hhalt⟩
    · cases hadv : t.advance last dir steps with
      | link d target rest =>
        rw [follow_succ_of_link (heq.trans hadv), follow_succ_of_link hadv]
        rw [askedThrough, hadv] at hlinks
        obtain ⟨⟨n, hentry, hasked⟩, hsub⟩ := link_of_advance hadv
        -- The invariant of the induction: neither the target nor what is left of the steps leads
        -- up.
        have htarget : ['.', '.'] ∉ target.lookupSteps := by
          have hdown := hlinks _ (List.mem_append_left _ hasked) _ hentry
          unfold Path.lookupSteps
          split <;> simp [hdown]
        apply ih (hlinks.mono (List.subset_append_right _ _))
        intro hmem
        rcases List.mem_append.mp hmem with hmem | hmem
        · exact htarget hmem
        · exact hup (hsub hmem)
      | inside | before | failed =>
        left
        rw [follow_of_advance (by simp [heq, hadv]), follow_of_advance (by simp [hadv]), heq]
    · exact .inr ⟨⟨e, follow_of_failed hfailed⟩, hfruitless hhalt⟩

/-- What is new by steps that do not lead up is no file. -/
theorem not_file_of_follow (h : t.Grown t')
    (hlinks : t.LinksDown (t.askedThrough last links dir steps)) (hup : ['.', '.'] ∉ steps)
    (hbefore : t'.follow last links dir steps = .before d n)
    (hentry : t'.entry? (n :: d) = some (.file bytes)) :
    t.follow last links dir steps = .before d n ∧ t.entry? (n :: d) = some (.file bytes) := by
  rcases h.follow hlinks hup with heq | ⟨-, hhalt⟩
  · refine ⟨heq ▸ hbefore, ?_⟩
    rcases h.entry (n :: d) with heq | ⟨-, hdir⟩
    · exact heq ▸ hentry
    · rw [hentry] at hdir
      cases hdir
  · rw [hbefore] at hhalt
    exact absurd hentry (hhalt bytes)

/-- A path without `..` steps reads the same before and after, if no link on its way leads
up. -/
theorem read_iff (h : t.Grown t') (hlinks : t.LinksDown (t.asked true p))
    (hup : ['.', '.'] ∉ p.lookupSteps) : t'.read p = .ok bytes ↔ t.read p = .ok bytes := by
  refine ⟨fun hread => ?_, h.read_of_ok⟩
  obtain ⟨hrefusal, d, n, hfollow, hentry⟩ := read_eq_ok_iff.mp hread
  rw [h.workingDir] at hfollow
  rw [asked_of_refusal? hrefusal] at hlinks
  obtain ⟨hbefore, hfile⟩ := h.not_file_of_follow hlinks hup hfollow hentry
  exact read_eq_ok_iff.mpr ⟨hrefusal, d, n, hbefore, hfile⟩

end Grown

/-! ## Below a directory that is there -/

/-- A halt at a directory. -/
def Halt.At (t : FileTree) (D : Location) : Halt → Prop
  | .inside dir => dir = D
  | .before dir n => n :: dir = D ∧ t.entry? D = some .directory
  | _ => False

/-- Where a name with `.` steps after it leads: the steps ask for a directory. -/
theorem advance_name_dots (t : FileTree) (dir : Location) {dots : List Name} (hn : IsName n)
    (hshort : ¬ Path.nameByteLimit < Path.byteSize n) (hdots : withoutDots dots = []) :
    t.advance true dir (n :: dots) =
      match t.entry? (n :: dir) with
      | some (.link target) => .link dir target dots
      | some .directory => if dots = [] then .before dir n else .inside (n :: dir)
      | some _ => if dots = [] then .before dir n else .failed .notDirectory
      | none => if dots = [] then .before dir n else .failed .notFound := by
  by_cases hnone : dots = []
  · subst hnone
    rw [advance_single hn, if_neg hshort]
    rcases t.entry? (n :: dir) with _ | entry
    · rfl
    · cases entry <;> rfl
  · rw [advance_cons hn hnone, if_neg hshort, advance_of_withoutDots_nil hdots]
    rcases t.entry? (n :: dir) with _ | entry
    · exact (if_neg hnone).symm
    · cases entry with
      | file | locked | directory => exact (if_neg hnone).symm
      | link target => rfl

/-- Steps that halt before a name with `.` steps behind lead to a directory only if the name is
one. -/
theorem directory_of_at {dots : List Name} (hn : IsName n)
    (hshort : ¬ Path.nameByteLimit < Path.byteSize n) (hdots : withoutDots dots = [])
    (hlink : ¬ ∃ target, t.entry? (n :: d) = some (.link target))
    (hsteps : t.advance true dir steps = t.advance true d (n :: dots))
    (hat : (t.follow true links dir steps).At t D) :
    n :: d = D ∧ t.entry? (n :: d) = some .directory := by
  rw [follow_congr hsteps] at hat
  have hstep := advance_name_dots t d hn hshort hdots
  have hnotLink : ∀ e target rest, t.advance true d (n :: dots) ≠ .link e target rest := by
    intro e target rest heq
    rw [hstep] at heq
    split at heq
    · rename_i hentry
      exact hlink ⟨_, hentry⟩
    all_goals split at heq <;> cases heq
  rw [follow_of_advance hnotLink, hstep] at hat
  split at hat
  · exact absurd hat id
  · rename_i hentry
    split at hat
    · exact ⟨hat.1, hentry⟩
    · exact ⟨hat, hentry⟩
  all_goals
    split at hat
    · obtain ⟨rfl, hdir⟩ := hat
      exact ⟨rfl, hdir⟩
    · exact absurd hat id

/-- Steps lead onto a directory: whatever follows them starts there, in every tree that has all
of this one, and asks for nothing else. -/
def LeadsOnto (t : FileTree) (last : Bool) (links : Nat) (dir : Location) (steps : List Name)
    (D : Location) : Prop :=
  ∃ links', ∀ extra ≠ [],
    (∀ t' : FileTree, t'.Extends t →
      t'.follow last links dir (steps ++ extra) = t'.follow last links' D extra) ∧
    t.askedThrough last links' D extra ⊆ t.askedThrough last links dir (steps ++ extra)

/-- Steps that meet no link lead onto the directory to which they go on. -/
theorem leadsOnto_of_advance
    (h : ∀ t' : FileTree, t'.Extends t → ∀ extra ≠ [],
      t'.advance last dir (steps ++ extra) = t'.advance last D extra)
    (hasked : ∀ extra ≠ [], t.askedAlong last D extra ⊆ t.askedAlong last dir (steps ++ extra)) :
    t.LeadsOnto last links dir steps D :=
  ⟨links, fun extra hextra => ⟨fun t' ht' => follow_congr (h t' ht' extra hextra),
    askedThrough_subset (h t (.refl t) extra hextra).symm (hasked extra hextra)⟩⟩

/-- A link that is met on the way leads on with one link less. -/
theorem leadsOnto_of_link {target : Path} {rest : List Name}
    (h : ∀ t' : FileTree, t'.Extends t → ∀ extra ≠ [],
      t'.advance last dir (steps ++ extra) = .link d target (rest ++ extra))
    (honward : t.LeadsOnto last links (origin d target) (target.lookupSteps ++ rest) D) :
    t.LeadsOnto last (links + 1) dir steps D := by
  obtain ⟨links', hlinks'⟩ := honward
  refine ⟨links', fun extra hextra => ?_⟩
  obtain ⟨hfollow, hasked⟩ := hlinks' extra hextra
  constructor
  · intro t' ht'
    rw [follow_succ_of_link (h t' ht' extra hextra), ← List.append_assoc]
    exact hfollow t' ht'
  · rw [askedThrough, h t (.refl t) extra hextra]
    rw [List.append_assoc] at hasked
    exact List.Subset.trans hasked (List.subset_append_right _ _)

/-- Steps that lead to a directory, with `.` steps after them, lead onto it on their own. -/
theorem leadsOnto_of_at (last : Bool) {dots : List Name} (hdots : withoutDots dots = [])
    (hat : (t.follow true links dir (steps ++ dots)).At t D) :
    t.LeadsOnto last links dir steps D := by
  induction links using Nat.strong_induction_on generalizing dir steps with
  | _ links ih =>
    have hwhole : t.advance true dir (steps ++ dots) =
        (t.advance false dir steps).resume t true dots :=
      advance_append_self dir steps
    have hfailed : ∀ e, t.advance false dir steps ≠ .failed e := by
      intro e heq
      rw [heq] at hwhole
      rw [follow_of_failed hwhole] at hat
      exact hat
    have hsplit (t' : FileTree) (h : t'.Extends t) (extra : List Name) :
        t'.advance last dir (steps ++ extra) =
          (t.advance false dir steps).resume t' last extra :=
      advance_append h dir steps fun e heq => absurd heq (hfailed e)
    have hasked (extra : List Name) := askedOnward_subset t last dir steps extra
    have honward (d : Location) (target : Path) (rest : List Name)
        (hlink : t.advance true dir (steps ++ dots) = .link d target (rest ++ dots))
        (hmore : ∀ t' : FileTree, t'.Extends t → ∀ extra ≠ [],
          t'.advance last dir (steps ++ extra) = .link d target (rest ++ extra)) :
        t.LeadsOnto last links dir steps D := by
      cases links with
      | zero =>
        rw [follow_zero_of_link hlink] at hat
        exact absurd hat id
      | succ links =>
        rw [follow_succ_of_link hlink, ← List.append_assoc] at hat
        exact leadsOnto_of_link hmore (ih links (Nat.lt_succ_self links) hat)
    cases hhalt : t.advance false dir steps with
    | failed e => exact absurd hhalt (hfailed e)
    | inside e =>
      rw [hhalt] at hwhole hsplit hasked
      rw [Halt.resume, advance_of_withoutDots_nil hdots] at hwhole
      rw [follow_of_advance (by simp [hwhole]), hwhole] at hat
      obtain rfl : e = D := hat
      exact leadsOnto_of_advance (fun t' h extra _ => hsplit t' h extra) fun extra _ =>
        hasked extra
    | link e target rest =>
      rw [hhalt] at hwhole hsplit
      exact honward e target rest hwhole fun t' h extra _ => hsplit t' h extra
    | before e n =>
      obtain ⟨hn, hshort, -⟩ := stops_of_advance hhalt
      rw [hhalt] at hwhole hsplit hasked
      have hmore (t' : FileTree) (h : t'.Extends t) (extra : List Name) :
          t'.advance last dir (steps ++ extra) = t'.advance last e (n :: extra) :=
        hsplit t' h extra
      by_cases hlink : ∃ target, t.entry? (n :: e) = some (.link target)
      · obtain ⟨target, hentry⟩ := hlink
        rw [Halt.resume, advance_name_dots t e hn hshort hdots, hentry] at hwhole
        apply honward e target [] hwhole
        intro t' h extra hextra
        rw [hmore t' h]
        exact advance_link hn hshort (fun hnil => absurd hnil hextra) (h _ _ hentry)
      · obtain ⟨rfl, hentry⟩ := directory_of_at hn hshort hdots hlink hwhole hat
        refine leadsOnto_of_advance (fun t' h extra hextra => ?_) fun extra hextra => ?_
        · rw [hmore t' h, advance_down hn hshort hextra (h _ _ hentry)]
        · have hbelow : t.askedAlong last e (n :: extra) ⊆ t.askedAlong last dir (steps ++ extra) :=
            hasked extra
          rw [askedAlong_down hn hextra hentry] at hbelow
          exact List.Subset.trans (List.subset_cons_self _ _) hbelow

/-- Steps lead to a directory if further steps behind them do not fail. -/
theorem exists_at_of_follow_append {dots more : List Name} (hdots : withoutDots dots = [])
    (hmore : more ≠ []) (hhalt : ∀ e, t.follow true links dir (steps ++ more) ≠ .failed e) :
    ∃ D, (t.follow true links dir (steps ++ dots)).At t D := by
  induction links using Nat.strong_induction_on generalizing dir steps with
  | _ links ih =>
    have hsplit (extra : List Name) : t.advance true dir (steps ++ extra) =
        (t.advance false dir steps).resume t true extra :=
      advance_append_self dir steps
    -- A link that is met before the last step leads on with one link less.
    have honward (d : Location) (target : Path) (rest : List Name)
        (hlink : ∀ extra ≠ [],
          t.advance true dir (steps ++ extra) = .link d target (rest ++ extra))
        (hlast : t.advance true dir (steps ++ dots) = .link d target (rest ++ dots)) :
        ∃ D, (t.follow true links dir (steps ++ dots)).At t D := by
      have hname := hlink more hmore
      cases links with
      | zero => exact absurd (follow_zero_of_link hname) (hhalt _)
      | succ links =>
        rw [follow_succ_of_link hlast, ← List.append_assoc]
        apply ih links (Nat.lt_succ_self links)
        intro e
        rw [List.append_assoc, ← follow_succ_of_link hname]
        exact hhalt e
    cases hadv : t.advance false dir steps with
    | failed e =>
      have hfailed : t.advance true dir (steps ++ more) = .failed e := by rw [hsplit, hadv]; rfl
      exact absurd (follow_of_failed hfailed) (hhalt e)
    | inside d =>
      have hinside : t.advance true dir (steps ++ dots) = .inside d := by
        rw [hsplit, hadv, Halt.resume, advance_of_withoutDots_nil hdots]
      rw [follow_of_advance (by simp [hinside]), hinside]
      exact ⟨d, rfl⟩
    | link d target rest =>
      have hlink (extra : List Name) :
          t.advance true dir (steps ++ extra) = .link d target (rest ++ extra) := by
        rw [hsplit, hadv]
        rfl
      exact honward d target rest (fun extra _ => hlink extra) (hlink dots)
    | before d m =>
      obtain ⟨hm, hshort, -⟩ := stops_of_advance hadv
      have honto (extra : List Name) :
          t.advance true dir (steps ++ extra) = t.advance true d (m :: extra) := by
        rw [hsplit, hadv]
        rfl
      have hname := honto more
      have hlast := honto dots
      rw [advance_name_dots t d hm hshort hdots] at hlast
      cases hentry : t.entry? (m :: d) with
      | none =>
        rw [advance_missing hm hshort hmore hentry] at hname
        exact absurd (follow_of_failed hname) (hhalt _)
      | some entry =>
        rw [hentry] at hlast
        cases entry with
        | file | locked =>
          rw [advance_blocked hm hshort hmore hentry rfl] at hname
          exact absurd (follow_of_failed hname) (hhalt _)
        | link target =>
          apply honward d target [] _ hlast
          intro extra hextra
          rw [honto]
          exact advance_link hm hshort (fun hnil => absurd hnil hextra) hentry
        | directory =>
          refine ⟨m :: d, ?_⟩
          dsimp only at hlast
          split at hlast <;> rw [follow_of_advance (by simp [hlast]), hlast]
          · exact ⟨rfl, hentry⟩
          · rfl

/-- A path that leads to a directory halts there. -/
theorem at_of_find (hfind : t.find p = .ok (D, .directory)) : (t.walk true p).At t D := by
  unfold find at hfind
  cases hwalk : t.walk true p with
  | inside d =>
    rw [hwalk] at hfind
    cases hfind
    rfl
  | before d n =>
    rw [hwalk] at hfind
    dsimp only at hfind
    split at hfind
    · rename_i hentry
      cases hfind
      exact ⟨rfl, hentry⟩
    · cases hfind
  | link | failed =>
    rw [hwalk] at hfind
    cases hfind

/-- A path that halts at a directory leads to it. -/
theorem find_of_at (hat : (t.walk true p).At t D) :
    t.find p = .ok (D, .directory) := by
  unfold find
  cases hwalk : t.walk true p with
  | inside d =>
    rw [hwalk] at hat
    obtain rfl : d = D := hat
    rfl
  | before d m =>
    rw [hwalk] at hat
    obtain ⟨rfl, hentry⟩ := hat
    simp only [hentry]
  | link | failed =>
    rw [hwalk] at hat
    exact absurd hat id

/-- The way to what is named in a directory that is there leads through the directory, in
every tree that has all of this one, and what is asked for behind it is asked for. -/
theorem follow_join_of_find {c : Path.Component} (hc : c.Plain) (last : Bool)
    (hfind : t.find p = .ok (D, .directory)) :
    ∃ links', (∀ t' : FileTree, t'.Extends t → t'.workingDir = t.workingDir →
      t'.follow last linkLimit (origin t'.workingDir (p.join ⟨c.chars⟩))
        (p.join ⟨c.chars⟩).lookupSteps = t'.follow last links' D [c.chars]) ∧
      t.askedThrough last links' D [c.chars] ⊆
        t.askedThrough last linkLimit (origin t.workingDir (p.join ⟨c.chars⟩))
          (p.join ⟨c.chars⟩).lookupSteps := by
  have hat := at_of_find hfind
  obtain ⟨-, dots, hdots, hwalk⟩ := walk_of_find hfind
  have hidle : withoutDots dots = [] := by
    rcases hdots with rfl | rfl <;> rfl
  rw [hwalk] at hat
  obtain ⟨links', hlinks'⟩ := leadsOnto_of_at last hidle hat
  obtain ⟨hfollow, hasked⟩ := hlinks' [c.chars] (List.cons_ne_nil _ _)
  have horigin : origin t.workingDir (p.join ⟨c.chars⟩) = origin t.workingDir p := by
    unfold origin
    rw [Path.isAbsolute_join hc]
  rw [Path.lookupSteps_join hc, horigin]
  refine ⟨links', fun t' h hdir => ?_, hasked⟩
  rw [hdir, horigin]
  exact hfollow t' h

/-- What is named in a directory that has been there before reads the same before and
after. -/
theorem Grown.read_join_iff {c : Path.Component} (h : t.Grown t')
    (hlinks : t.LinksDown (t.asked true (p.join ⟨c.chars⟩))) (hfind : t.isDirectory p = true)
    (hc : c.Plain)
    (hname : c.chars ≠ ['.', '.']) :
    t'.read (p.join ⟨c.chars⟩) = .ok bytes ↔ t.read (p.join ⟨c.chars⟩) = .ok bytes := by
  refine ⟨fun hread => ?_, h.read_of_ok⟩
  obtain ⟨D, hfind⟩ := isDirectory_eq_true hfind
  obtain ⟨links', hfollows, hasked⟩ := follow_join_of_find hc true hfind
  obtain ⟨hrefusal, d, n, hfollow, hentry⟩ := read_eq_ok_iff.mp hread
  rw [hfollows t' h.keeps h.workingDir] at hfollow
  rw [asked_of_refusal? hrefusal] at hlinks
  have hup : ['.', '.'] ∉ [c.chars] := by
    simpa using hname.symm
  obtain ⟨hbefore, hfile⟩ := h.not_file_of_follow (hlinks.mono hasked) hup hfollow hentry
  refine read_eq_ok_iff.mpr ⟨hrefusal, d, n, ?_, hfile⟩
  rw [hfollows t (.refl t) rfl]
  exact hbefore

end Recompile.FileTree
