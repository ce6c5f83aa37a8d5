import Recompile.Cli.Run
import Recompile.Proofs.History.Staleness
import Recompile.Proofs.Store.Elsewhere
import Recompile.Proofs.Store.Order

/-!
# Invocations that fail

An invocation that fails must leave the states of all units as they were, or the next one
would pass over sources that nobody compiled. Most failures come before anything is
changed: misuse, an impossible configuration, a pending file that cannot be read, decoded
or written. A header list is published last; if that fails, directories may have been made
and a pending file written, which is no record (`Cli.state?_run_of_failed`).

One order of events is the wrong one. If the state is committed at once and a header list
is asked for, a list that cannot be published makes the invocation fail after the commit,
with no verdict printed (`Cli.not_forall_state?_run_of_failed`).
-/

set_option autoImplicit false

namespace Recompile.Cli

open FileTree

variable {t : FileTree} {w w' : Workspace} {o : Options} {f : Failure} {c : Compilation}
  {root : Path} {unit : String}

/-- The directory of a store is there, or no `..` step leads to it. -/
def Straight (t : FileTree) (root : Path) : Prop :=
  t.isDirectory root = true ∨ ['.', '.'] ∉ root.steps

/-- The options ask for nothing that could change a state before the invocation fails: the
state is not committed before a header list is published, the pending file is not put in
the place of a record, and a pending file that can be read and decoded is committed to a store
that is in order. -/
structure Options.Careful (o : Options) (t : FileTree) : Prop where
  headerList : o.commitPending = .none → o.headerList ≠ .none → o.isDeferred = true
  pending : ∀ p bytes, o.pending = some p → t.read p = .ok bytes → Record.decode? bytes = .none
  store : ∀ p bytes s, o.commitPending = some p → t.read p = .ok bytes →
    State.decode? bytes = some s → ∃ dir, Store.InOrder t o.storeRoot dir

/-! ## The steps of an invocation -/

/-- A pending file that cannot be read or decoded changes nothing; one that can is removed
after the commit. -/
theorem commitPending_eq_error {p : Path}
    (horder : ∀ bytes s, t.read p = .ok bytes → State.decode? bytes = some s →
      ∃ dir, Store.InOrder t root dir)
    (h : commitPending ⟨t, .directory root⟩ unit p = (w', .error f)) :
    w'.tree = t := by
  unfold commitPending at h
  dsimp only at h
  split at h
  · cases h
    rfl
  · rename_i bytes hread
    split at h
    · cases h
      rfl
    · rename_i s hdecode
      -- Once it is committed, the file is still there to be removed.
      obtain ⟨dir, horder⟩ := horder bytes s hread hdecode
      have hworking : Workspace.Working ⟨t, .directory root⟩ := ⟨dir, horder⟩
      obtain ⟨t', hunlink⟩ := Store.unlink_of_saved horder unit s hread
      have hcommit := congrArg Prod.fst (hworking.commit_eq unit s)
      rw [hcommit, Workspace.save_directory] at h
      dsimp only at h
      rw [hunlink] at h
      cases h

/-- A verdict that fails leaves the workspace as it was. -/
theorem judge_eq_error (h : judge w o = (w', .error f)) : w' = w := by
  unfold judge at h
  split at h
  · split at h <;> cases h
    rfl
  · cases hexecute : w.execute o.config with
    | mk w'' result =>
      cases result with
      | error e =>
        rw [hexecute] at h
        cases h
        exact Workspace.execute_eq_error hexecute
      | ok result =>
        rw [hexecute] at h
        cases h

/-- A verdict whose state is not to be stored leaves the workspace as it was. -/
theorem judge_eq_ok_of_deferred (hdeferred : o.isDeferred = true)
    (h : judge w o = (w', .ok c)) : w' = w := by
  unfold judge at h
  rw [if_pos hdeferred] at h
  split at h <;> cases h
  rfl

/-- A pending file is only written where the commit is deferred. -/
theorem writePending_eq_error (h : writePending w o c = (w', .error f)) :
    o.isDeferred = true ∧ w' = w := by
  unfold writePending at h
  split at h
  · cases h
  · rename_i p hpending
    split at h <;> cases h
    exact ⟨by simp [Options.isDeferred, hpending], rfl⟩

/-- A pending file that was written has a state in it, which is no record. -/
theorem writePending_eq_ok (h : writePending w o c = (w', .ok ())) :
    w' = w ∨ ∃ p tree, o.pending = some p ∧ w.tree.write p c.finalState.encode = .ok tree ∧
      w' = { w with tree := tree } := by
  unfold writePending at h
  split at h
  · cases h
    exact .inl rfl
  · rename_i p hpending
    split at h
    · rename_i tree hwrite
      cases h
      exact .inr ⟨p, tree, hpending, hwrite, rfl⟩
    · cases h

/-- A header list that is not published leaves at most directories behind. -/
theorem writeHeaderList_eq_error (h : writeHeaderList w o c = (w', .error f)) :
    o.headerList ≠ none ∧ w.tree.Grown w'.tree := by
  unfold writeHeaderList at h
  split at h
  · cases h
  · rename_i p hheader
    refine ⟨by simp [hheader], ?_⟩
    split at h
    · cases h
      exact .refl _
    · rename_i n hn
      rcases publish_cases w.tree (headerDirectory p) p
        (Utf8.encode (renderHeaders (headersOf w.tree c n.roots))) with
        ⟨tree, -, hpublish⟩ | ⟨e, hpublish⟩
      · unfold writeHeaders at h
        rw [hpublish] at h
        cases h
      · unfold writeHeaders at h
        rw [hpublish] at h
        cases h
        exact grown_makeDirectories _ _

/-! ## The whole invocation -/

/-- A run that was asked for fails or prints something. -/
theorem runOptions_outcome (w : Workspace) (o : Options) :
    (∃ f, (runOptions w o).2 = .failed f) ∨ ∃ text, (runOptions w o).2 = .printed text := by
  unfold runOptions
  split
  · split
    · exact .inl ⟨_, rfl⟩
    · exact .inr ⟨_, rfl⟩
  · split
    · exact .inl ⟨_, rfl⟩
    · split
      · exact .inl ⟨_, rfl⟩
      · split
        · exact .inl ⟨_, rfl⟩
        · exact .inr ⟨_, rfl⟩

/-- A run with options that fails leaves a unit the state that it had, under the conditions
under which an invocation does. -/
theorem state?_runOptions_of_failed (hroot : Straight t root)
    (hlinks : t.LinksDown (t.asked true (Store.recordPath root unit))) (hcareful : o.Careful t)
    (h : runOptions ⟨t, .directory o.storeRoot⟩ o = (w', .failed f)) :
    (Store.loadFile w'.tree root unit).state? = (Store.loadFile t root unit).state? := by
  unfold runOptions at h
  split at h
  · rename_i p hcommit
    split at h
    · rename_i hpending
      cases h
      rw [commitPending_eq_error (fun bytes s => hcareful.store p bytes s hcommit) hpending]
    · cases h
  · rename_i hcommit
    split at h
    · rename_i hjudge
      cases h
      rw [judge_eq_error hjudge]
    · rename_i judged c hjudge
      split at h
      · rename_i w hpending
        cases h
        obtain ⟨hdeferred, rfl⟩ := writePending_eq_error hpending
        rw [judge_eq_ok_of_deferred hdeferred hjudge]
      · rename_i w hpending
        split at h
        · rename_i w' hheader
          cases h
          -- Only here something has been done before: a pending file may be written, and
          -- directories may be made for the header list. Nothing was committed, since the options
          -- are careful.
          obtain ⟨hasked, hgrown⟩ := writeHeaderList_eq_error hheader
          have hdeferred := hcareful.headerList hcommit hasked
          obtain rfl := judge_eq_ok_of_deferred hdeferred hjudge
          rcases writePending_eq_ok hpending with rfl | ⟨p, tree, hp, hwrite, rfl⟩
          · exact Store.state?_loadFile_of_grown hgrown hlinks hroot
          · have hroot' : Straight tree root :=
              hroot.imp_left fun hdirectory => isDirectory_of_write hdirectory hwrite
            have hwritten : (Store.loadFile tree root unit).state? =
                (Store.loadFile t root unit).state? :=
              Store.state?_loadFile_of_write hwrite (fun old => hcareful.pending p old hp)
                (Record.decode?_encode_state _)
            rw [← hwritten]
            exact Store.state?_loadFile_of_grown hgrown (hlinks.write hwrite) hroot'
        · cases h

/-- An invocation that fails leaves a unit the state that it had in a store. What is asked for
is that the directory of the store is there or its path has no `..` steps, that no link on the
way to the record of the unit leads up, and that the options are careful: a header list is
published before the state is committed, no pending file is put in the place of a record, and
a pending file that can be read and decoded is committed to a store that is in order. -/
theorem state?_run_of_failed {arguments : List String} (hroot : Straight t root)
    (hlinks : t.LinksDown (t.asked true (Store.recordPath root unit)))
    (hcareful : ∀ o, Request.ofArguments arguments = .run o → o.Careful t)
    (hfailed : (run t arguments).2.exitCode ≠ 0) :
    Workspace.state? ⟨(run t arguments).1, .directory root⟩ unit =
      Workspace.state? ⟨t, .directory root⟩ unit := by
  unfold run at hfailed ⊢
  cases hrequest : Request.ofArguments arguments with
  | help | version | misuse => rfl
  | run o =>
    rw [hrequest] at hfailed
    dsimp only at hfailed ⊢
    rcases runOptions_outcome ⟨t, .directory o.storeRoot⟩ o with ⟨f, hf⟩ | ⟨text, htext⟩
    · have hrun : runOptions ⟨t, .directory o.storeRoot⟩ o = (_, .failed f) := Prod.ext rfl hf
      have hkept := state?_runOptions_of_failed hroot hlinks (hcareful o hrequest) hrun
      exact hkept
    · rw [htext] at hfailed
      exact absurd rfl hfailed

/-- A tree with an empty source and a directory. -/
def sourceAndDirectory : FileTree :=
  ((bare []).put [['m']] (.file [])).put [['d']] .directory

/-- The tree of the counterexample has no link. -/
theorem linkFree_sourceAndDirectory : sourceAndDirectory.LinkFree :=
  ((linkFree_bare []).put (by simp)).put (by simp)

/-- A header list cannot take the place of a directory; the state is pending by then. -/
theorem state?_run_of_failed_pending :
    let arguments := ["--unit", "u", "--pending", "p", "--header-deps", "d", "m"]
    let root : Path := ⟨".native-state".toList⟩
    Straight sourceAndDirectory root ∧
      sourceAndDirectory.LinksDown (sourceAndDirectory.asked true (Store.recordPath root "u")) ∧
      (∀ o, Request.ofArguments arguments = .run o → o.Careful sourceAndDirectory) ∧
      (run sourceAndDirectory arguments).2.exitCode ≠ 0 ∧
      Workspace.state? ⟨(run sourceAndDirectory arguments).1, .directory root⟩ "u" =
        Workspace.state? ⟨sourceAndDirectory, .directory root⟩ "u" := by
  intro arguments root
  have hstraight : Straight sourceAndDirectory root := .inr (by decide)
  have hcareful : ∀ o, Request.ofArguments arguments = .run o → o.Careful sourceAndDirectory := by
    intro o hrequest
    cases hrequest
    refine ⟨fun _ _ => rfl, ?_, fun p _ _ h => by cases h⟩
    intro p bytes hp hread
    cases hp
    have hmissing : sourceAndDirectory.read ⟨['p']⟩ = .error .notFound := by decide +kernel
    cases hmissing.symm.trans hread
  have hfailed : (run sourceAndDirectory arguments).2.exitCode ≠ 0 := by decide +kernel
  have hlinks : sourceAndDirectory.LinksDown
      (sourceAndDirectory.asked true (Store.recordPath root "u")) :=
    fun loc _ target hentry => absurd hentry (linkFree_sourceAndDirectory loc target)
  exact ⟨hstraight, hlinks, hcareful, hfailed,
    state?_run_of_failed hstraight hlinks hcareful hfailed⟩

/-- An invocation that commits at once and then cannot publish its header list fails, but
its state is the one that the next invocation judges by. -/
theorem not_forall_state?_run_of_failed :
    ¬ ∀ (t : FileTree) (arguments : List String) (o : Options) (unit : String),
      t.LinkFree → Request.ofArguments arguments = .run o →
        (run t arguments).2.exitCode ≠ 0 →
          Workspace.state? ⟨(run t arguments).1, .directory o.storeRoot⟩ unit =
            Workspace.state? ⟨t, .directory o.storeRoot⟩ unit := by
  intro h
  let arguments := ["--unit", "u", "--header-deps", "d", "m"]
  let o : Options :=
    { Options.none with unit := some "u", headerList := some ⟨['d']⟩, sources := [⟨['m']⟩] }
  have hrequest : Request.ofArguments arguments = .run o := by decide +kernel
  have hfailed : (run sourceAndDirectory arguments).2.exitCode ≠ 0 := by decide +kernel
  have hcommitted : (Workspace.state?
      ⟨(run sourceAndDirectory arguments).1, .directory o.storeRoot⟩ "u").isSome := by
    decide +kernel
  have hbefore : (Workspace.state?
      ⟨sourceAndDirectory, .directory o.storeRoot⟩ "u").isSome = false := by
    decide +kernel
  rw [h sourceAndDirectory arguments o "u" linkFree_sourceAndDirectory hrequest hfailed,
    hbefore] at hcommitted
  cases hcommitted

end Recompile.Cli
