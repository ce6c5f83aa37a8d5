import Recompile.Proofs.Store.Places

/-!
# The records of other units

A commit changes the tree in the place of the unit's record and nowhere else, once the
directory of the store is made (`Store.commit_directory`), whether it stores the state or
removes the old record instead. So every other unit keeps its state whose record is looked
up without asking for that place, and none gets another one (`Workspace.state?_commit_aside`).
Two records with different digests are looked up so if no link stands in their places
(`Workspace.aside_of_found`).

Neither of the two conditions can be left out (`Workspace.not_forall_state?_commit_aside`).
Where a `..` step leads through a missing directory, the first commit makes that directory
and so brings the records to light that have been on the other side. And a record that is a
link to the record of another unit is lost when that one is replaced.
-/

set_option autoImplicit false

namespace Recompile

namespace Store

open FileTree

variable {t t' : FileTree} {root : Path} {dir place : Location} {unit other : String} {s : State}

/-- The location in which the record of a unit belongs, if there is a way to it. -/
def recordPlace? (t : FileTree) (root : Path) (unit : String) : Option Location :=
  match t.walk false (recordPath root unit) with
  | .before d n => some (n :: d)
  | _ => none

/-- The place of a record is where the walk along its path halts. -/
theorem recordPlace?_of_before {d : Location} {n : Name}
    (h : t.walk false (recordPath root unit) = .before d n) :
    recordPlace? t root unit = some (n :: d) := by
  unfold recordPlace?
  rw [h]

/-- Nothing is changed but the place of a unit's record. -/
structure OnlyRecord (t t' : FileTree) (root : Path) (unit : String) : Prop where
  workingDir : t'.workingDir = t.workingDir
  entry : ∀ loc, recordPlace? t root unit ≠ some loc → t'.entry? loc = t.entry? loc

/-- Nothing but the record of a unit differs where nothing does. -/
theorem OnlyRecord.refl (t : FileTree) (root : Path) (unit : String) :
    OnlyRecord t t root unit :=
  ⟨rfl, fun _ _ => rfl⟩

/-- Replacing the record of a unit changes nothing else. -/
theorem onlyRecord_of_replace {bytes : List UInt8}
    (h : t.replace (recordPath root unit) bytes = .ok t') : OnlyRecord t t' root unit := by
  obtain ⟨d, n, hwalk, -, rfl⟩ := replace_eq_ok h
  refine ⟨workingDir_put .., fun loc hloc => entry?_put_of_ne ?_⟩
  rintro rfl
  exact hloc (recordPlace?_of_before hwalk)

/-- Forgetting a unit changes nothing but its record. -/
theorem onlyRecord_forgetFile (root : Path) (unit : String) :
    OnlyRecord t (forgetFile t root unit).1 root unit := by
  unfold forgetFile
  dsimp only
  cases h : t.unlink (recordPath root unit) with
  | ok t' =>
    obtain ⟨d, n, hwalk, hfile, rfl⟩ := unlink_eq_ok h
    refine ⟨workingDir_erase .., fun loc hloc => ?_⟩
    rw [entry?_erase hfile, if_neg]
    rintro rfl
    exact hloc (recordPlace?_of_before hwalk)
  | error e => cases e <;> exact .refl t root unit

/-- A commit makes the directory of the store, and after that it changes nothing but the
place of the unit's record. -/
theorem commit_directory (root : Path) (unit : String) (s : State) :
    ∃ t', ((Workspace.mk t (.directory root)).commit unit s).1 = ⟨t', .directory root⟩ ∧
      OnlyRecord (t.makeDirectories root).1 t' root unit := by
  rcases Workspace.commit_cases ⟨t, .directory root⟩ unit s with ⟨hok, heq⟩ | ⟨⟨e, he⟩, heq⟩
  · rw [Workspace.save_directory] at hok heq
    refine ⟨_, heq, ?_⟩
    rcases saveFile_cases t root unit s with ⟨t', hreplace, hsave⟩ | ⟨e, hsave⟩
    · rw [hsave]
      exact onlyRecord_of_replace hreplace
    · rw [hsave] at hok
      cases hok
  · rw [Workspace.save_directory] at he heq
    refine ⟨_, heq, ?_⟩
    rcases saveFile_cases t root unit s with ⟨t', hreplace, hsave⟩ | ⟨e', hsave⟩
    · rw [hsave] at he
      cases he
    · rw [hsave]
      exact onlyRecord_forgetFile root unit

end Store

namespace Workspace

open FileTree

variable {w : Workspace} {unit other : String} {s : State}

/-- Each `..` step of the path of the store starts at a directory that is there. -/
def Backed (w : Workspace) : Prop :=
  match w.store with
  | .memory _ | .full _ => True
  | .directory root => w.tree.Backed root

/-- The record of another unit is looked up without asking what stands in the place of a
unit's record. -/
def Aside (w : Workspace) (unit other : String) : Prop :=
  match w.store with
  | .memory _ | .full _ => True
  | .directory root => ∀ place ∈ Store.recordPlace? w.prepared root unit,
      place ∉ w.prepared.asked true (Store.recordPath root other)

/-- A store whose directory can be made is usable. -/
theorem Backed.usable (h : w.Backed) : w.Usable := by
  obtain ⟨t, store⟩ := w
  cases store with
  | memory rs => trivial
  | full rs => trivial
  | directory root => exact usable_of_backed h

/-- Making the directory of a store that can be used leaves each unit its state. -/
theorem Usable.state?_prepared (h : w.Usable) (unit : String) :
    state? ⟨w.prepared, w.store⟩ unit = w.state? unit := by
  obtain ⟨t, store⟩ := w
  cases store with
  | memory rs => rfl
  | full rs => rfl
  | directory root =>
    rcases h unit with hnone | hsame
    · -- What could be read still can be, so there was no state before.
      show (Store.loadFile (t.makeDirectories root).1 root unit).state? =
        (Store.loadFile t root unit).state?
      rw [hnone]
      cases hread : t.read (Store.recordPath root unit) with
      | error e => exact (Store.state?_loadFile_of_error hread).symm
      | ok bytes =>
        have hmade := (grown_makeDirectories t root).read_of_ok hread
        rw [Store.state?_loadFile_of_ok hread, ← hnone, Store.state?_loadFile_of_ok hmade]
    · exact hsame

/-- The record of one unit is looked up aside from that of another if they have places of
their own and no link stands in these. -/
theorem aside_of_found {t : FileTree} {root : Path} {dir : Location}
    (found : (t.makeDirectories root).1.find root = .ok (dir, .directory))
    (fits : ∀ unit, (Store.recordPath root unit).refusal? = none)
    (hunit : ¬ (t.makeDirectories root).1.Passable (Store.recordName unit :: dir))
    (hother : ¬ (t.makeDirectories root).1.Passable (Store.recordName other :: dir))
    (hne : Store.recordName other ≠ Store.recordName unit) :
    Aside ⟨t, .directory root⟩ unit other := by
  have hplace := Store.walk_recordPath found (fits unit) false fun target hentry =>
    hunit (.inr ⟨target, hentry⟩)
  have hwalk := Store.walk_recordPath found (fits other) true fun target hentry =>
    hother (.inr ⟨target, hentry⟩)
  show ∀ place ∈ Store.recordPlace? (t.makeDirectories root).1 root unit,
    place ∉ (t.makeDirectories root).1.asked true (Store.recordPath root other)
  rw [Store.recordPlace?_of_before hplace]
  rintro _ ⟨⟩ hasked
  rcases mem_asked (by simp [hwalk]) hasked with hpassable | ⟨-, d, n, hbefore, heq⟩
  · exact hunit hpassable
  · rw [hwalk] at hbefore
    cases hbefore
    exact hne (List.head_eq_of_cons_eq heq).symm

/-- After a commit the unit has the new state or none. Every other unit has its state or
none, and it has its state if its record is looked up without asking for the place of the
unit's record. -/
theorem state?_commit_aside (w : Workspace) (unit : String) (s : State) :
    ((w.commit unit s).1.state? unit = none ∨ (w.commit unit s).1.state? unit = some s) ∧
      ∀ other, other ≠ unit → w.Backed →
        KeptOrLost (w.state? other) ((w.commit unit s).1.state? other) ∧
          (w.Aside unit other → (w.commit unit s).1.state? other = w.state? other) := by
  refine ⟨state?_commit w unit s, fun other hne hbacked => ?_⟩
  have husable := hbacked.usable
  refine ⟨keptOrLost_commit husable hne, fun haside => ?_⟩
  rw [← husable.state?_prepared other]
  obtain ⟨t, store⟩ := w
  cases store with
  | memory rs =>
    rcases commit_cases ⟨t, .memory rs⟩ unit s with ⟨-, heq⟩ | ⟨⟨e, he⟩, -⟩
    · rw [heq, save, state?_memory, state?_memory, Records.find?_put_of_ne hne]
    · cases he
  | full rs =>
    rcases commit_cases ⟨t, .full rs⟩ unit s with ⟨hok, -⟩ | ⟨-, heq⟩
    · cases hok
    · rw [heq]
      show state? ⟨t, .full (rs.remove unit)⟩ other = state? ⟨t, .full rs⟩ other
      rw [state?_full, state?_full, Records.find?_remove_of_ne hne]
  | directory root =>
    obtain ⟨t', hcommit, honly⟩ := Store.commit_directory root unit s
    have hread : t'.read (Store.recordPath root other) =
        (t.makeDirectories root).1.read (Store.recordPath root other) := by
      unfold FileTree.read
      rw [find_of_agree honly.workingDir]
      intro loc hloc
      apply honly.entry
      intro hplace
      exact haside loc hplace hloc
    rw [hcommit]
    exact Store.state?_loadFile_congr hread

/-- The state of one unit stays the same when that of another one is committed. -/
theorem state?_commit_aside_root :
    let root : Path := ⟨['/']⟩
    let t := (bare []).put [Store.recordName "v"] (.file (Store.recordBytes "v" .empty))
    let w : Workspace := ⟨t, .directory root⟩
    "v" ≠ "u" ∧ w.Backed ∧ w.Aside "u" "v" ∧
      (w.commit "u" .empty).1.state? "v" = w.state? "v" := by
  intro root t w
  have hdigest : Store.recordName "v" ≠ Store.recordName "u" := by decide +kernel
  have hname : "v" ≠ "u" := by decide
  have hroom : (bare []).HasRoom [Store.recordName "v"] := hasRoom_of_missing rfl rfl
  have hbacked : w.Backed := backed_of_isDirectory rfl
  have hunit : t.entry? [Store.recordName "u"] = none := by
    rw [entry?_put_of_ne]
    · rfl
    · exact fun heq => hdigest (List.head_eq_of_cons_eq heq).symm
  have hother : t.entry? [Store.recordName "v"] =
      some (.file (Store.recordBytes "v" .empty)) := by
    rw [entry?_put hroom, if_pos rfl]
  have hfound : w.prepared.find root = .ok ([], .directory) := rfl
  have haside : w.Aside "u" "v" := by
    apply aside_of_found hfound (Store.refusal?_recordPath (by decide) (by decide))
    · exact Store.not_passable_of_free (.inl hunit)
    · exact Store.not_passable_of_free (.inr ⟨_, hother⟩)
    · exact hdigest
  obtain ⟨-, hothers⟩ := state?_commit_aside w "u" .empty
  exact ⟨hname, hbacked, haside, (hothers "v" hname hbacked).2 haside⟩

/-- A record comes to light where the directory is named `/s/../t` and `/s` is missing. -/
theorem not_forall_state?_of_aside :
    ¬ ∀ (w : Workspace) (unit other : String) (s : State),
      Store.recordName other ≠ Store.recordName unit → w.Aside unit other →
      (w.commit unit s).1.state? other = w.state? other := by
  have hdigest : Store.recordName "v" ≠ Store.recordName "u" := by decide +kernel
  intro h
  let root : Path := ⟨['/', 's', '/', '.', '.', '/', 't']⟩
  let file : Entry := .file (Store.recordBytes "v" .empty)
  let above := (bare []).put [['t']] .directory
  let t := above.put [Store.recordName "v", ['t']] file
  let w : Workspace := ⟨t, .directory root⟩
  have hmissing : above.entry? [Store.recordName "v", ['t']] = none := by
    have habove : entry? (bare []) [['t']] = none := rfl
    rw [entry?_put_of_ne (List.cons_ne_self _ _)]
    exact entry?_below habove _
  have hroom : above.HasRoom [Store.recordName "v", ['t']] := hasRoom_of_missing hmissing rfl
  let made := (t.makeDirectories root).1
  have hunit : made.entry? [Store.recordName "u", ['t']] = none := by decide +kernel
  have hother : made.entry? [Store.recordName "v", ['t']] = some file := by
    apply (grown_makeDirectories t root).entry?_of_some
    rw [entry?_put hroom, if_pos rfl]
  have hfound : made.find root = .ok ([['t']], .directory) := by decide +kernel
  have hfits := @Store.refusal?_recordPath root (by decide) (by decide)
  have hfree : ¬ made.Passable [Store.recordName "u", ['t']] :=
    Store.not_passable_of_free (.inl hunit)
  have hfree' : ¬ made.Passable [Store.recordName "v", ['t']] :=
    Store.not_passable_of_free (.inr ⟨_, hother⟩)
  have haside : w.Aside "u" "v" := aside_of_found hfound hfits hfree hfree' hdigest
  have hbefore : w.state? "v" = none := by decide +kernel
  have hafter : (w.commit "u" .empty).1.state? "v" = some .empty := by decide +kernel
  rw [h w "u" "v" .empty hdigest haside, hbefore] at hafter
  cases hafter

/-- A state is lost where the record of a unit is a link to that of another one. -/
theorem not_forall_state?_of_backed :
    ¬ ∀ (w : Workspace) (unit other : String) (s : State),
      Store.recordName other ≠ Store.recordName unit → w.Backed →
      (w.commit unit s).1.state? other = w.state? other := by
  have hdigest : Store.recordName "v" ≠ Store.recordName "u" := by decide +kernel
  intro h
  let root : Path := ⟨['/']⟩
  let file : Entry := .file (Store.recordBytes "v" .empty)
  let link : Entry := .link (Store.recordPath root "u")
  let above := (bare []).put [Store.recordName "u"] file
  let w : Workspace := ⟨above.put [Store.recordName "v"] link, .directory root⟩
  have hbacked : w.Backed := backed_of_not_mem (by decide)
  have hbefore : w.state? "v" = some .empty := by decide +kernel
  have hafter : (w.commit "u" .empty).1.state? "v" = none := by decide +kernel
  rw [h w "u" "v" .empty hdigest hbacked, hbefore] at hafter
  cases hafter

/-- Neither of the conditions under which a commit leaves the other units their states can be
left out. -/
theorem not_forall_state?_commit_aside :
    (¬ ∀ (w : Workspace) (unit other : String) (s : State),
      Store.recordName other ≠ Store.recordName unit → w.Aside unit other →
      (w.commit unit s).1.state? other = w.state? other) ∧
    ¬ ∀ (w : Workspace) (unit other : String) (s : State),
      Store.recordName other ≠ Store.recordName unit → w.Backed →
      (w.commit unit s).1.state? other = w.state? other :=
  ⟨not_forall_state?_of_aside, not_forall_state?_of_backed⟩

end Workspace

end Recompile
