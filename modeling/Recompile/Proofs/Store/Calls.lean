import Recompile.Proofs.Store.Order

/-!
# Stores under any sequence of calls

A store that takes states answers each call as the calls before it require: a load gives the
state that was saved last for the unit and not forgotten since (`Workspace.latest?`), or
none. One call does to the state of a unit what it is meant to do, or takes it away
(`Workspace.Working.keptOrLost_call`), and it takes nothing away if the digests of the units
differ (`Workspace.Working.state?_call`). Any sequence of calls follows by induction. So a
directory without records answers like a store in memory
(`Workspace.answers_directory`), as long as the paths of the records are not too long for
the system (`Workspace.not_forall_answers_directory`).
-/

set_option autoImplicit false

namespace Recompile

/-! ## Forgetting the record of a unit -/

namespace Store

open FileTree

variable {t : FileTree} {root : Path} {dir : Location} {unit other : String}

/-- A record that is there is erased, and nothing is changed if there is none. -/
theorem forgetFile_of_inOrder (h : InOrder t root dir) (unit : String) :
    forgetFile t root unit = (t, .ok ()) ∨
      (t.makeDirectories root).1 = t ∧
        (∃ bytes, t.entry? (recordName unit :: dir) = some (.file bytes)) ∧
          forgetFile t root unit = (t.erase (recordName unit :: dir), .ok ()) := by
  by_cases hdirectory : t.isDirectory root = true
  · have hmade : (t.makeDirectories root).1 = t := by
      rw [makeDirectories_of_isDirectory hdirectory]
    have hfound := h.found
    have hfree := h.free unit
    rw [hmade] at hfound hfree
    have hwalk : t.walk false (recordPath root unit) = .before dir (recordName unit) :=
      walk_recordPath hfound (h.fits unit) false fun target hentry =>
        not_passable_of_free hfree (.inr ⟨target, hentry⟩)
    rcases hfree with hnone | ⟨bytes, hfile⟩
    · left
      unfold forgetFile unlink
      simp only [hwalk, hnone]
    · refine .inr ⟨hmade, ⟨bytes, hfile⟩, ?_⟩
      unfold forgetFile unlink
      simp only [hwalk, hfile]
  · left
    obtain ⟨hrefusal, -⟩ := walk_of_find h.found
    have hwalk : t.walk false (recordPath root unit) = .failed .notFound :=
      walk_join_of_missing (plain_recordName unit) false hrefusal h.made hdirectory (h.fits unit)
    unfold forgetFile unlink
    simp only [hwalk]

/-- The directory of the store is found where it was once a file was erased. -/
theorem find_erase {n : Name} {bytes : List UInt8}
    (hfile : t.entry? (n :: dir) = some (.file bytes))
    (hfound : t.find root = .ok (dir, .directory)) :
    find (t.erase (n :: dir)) root = .ok (dir, .directory) := by
  apply find_of_kept hfound
  · exact workingDir_erase ..
  · intro loc hloc
    rw [entry?_erase (by simp [hfile]), if_neg]
    rintro rfl
    rw [Passable, hfile] at hloc
    simp at hloc

/-- A directory stays in order. -/
theorem InOrder.forgotten (h : InOrder t root dir) (unit : String) :
    InOrder (forgetFile t root unit).1 root dir := by
  rcases forgetFile_of_inOrder h unit with heq | ⟨hmade, ⟨bytes, hfile⟩, heq⟩
  · rw [heq]
    exact h
  · have hfound := h.found
    have hfree := h.free
    rw [hmade] at hfound hfree
    rw [heq]
    apply InOrder.of_found h.fits _ (find_erase hfile hfound)
    · intro other
      rw [entry?_erase (by simp [hfile])]
      split
      · exact .inl rfl
      · exact hfree other
    · rw [temporaryPath_congr (workingDir_erase ..)]
      exact h.scratch

/-- The record of a unit with another digest is kept. -/
theorem state?_of_forgotten_of_ne (h : InOrder t root dir)
    (hne : recordName other ≠ recordName unit) :
    (loadFile (forgetFile t root unit).1 root other).state? =
      (loadFile t root other).state? := by
  rcases forgetFile_of_inOrder h unit with heq | ⟨hmade, ⟨bytes, hfile⟩, heq⟩
  · rw [heq]
  · have hfound := h.found
    have hfree := h.not_passable other
    rw [hmade] at hfound hfree
    have hentry : entry? (t.erase (recordName unit :: dir)) (recordName other :: dir) =
        t.entry? (recordName other :: dir) := by
      rw [entry?_erase (by simp [hfile]), if_neg]
      exact fun hplace => hne (List.head_eq_of_cons_eq hplace)
    have hfree' : ¬ Passable (t.erase (recordName unit :: dir)) (recordName other :: dir) := by
      rwa [Passable, hentry]
    rw [heq]
    apply state?_loadFile_congr
    rw [read_recordPath (find_erase hfile hfound) (h.fits other) hfree', hentry,
      read_recordPath hfound (h.fits other) hfree]

end Store

/-! ## One call -/

namespace Workspace

/-- What a store is asked to do. -/
inductive Call where
  | save (unit : String) (s : State)
  | load (unit : String)
  | forget (unit : String)
  deriving DecidableEq, Repr

/-- What a store answers. -/
inductive Answer where
  | done
  | failed (e : StoreError)
  | loaded (s : Option State)
  deriving DecidableEq, Repr

/-- The unit whose state a call is about. -/
def Call.unit : Call → String
  | .save unit _ | .load unit | .forget unit => unit

/-- The answer to a call that gives no state. -/
def Answer.ofResult : Except StoreError Unit → Answer
  | .ok () => .done
  | .error e => .failed e

/-- What becomes of a store by a call, and what it answers. -/
def call (w : Workspace) : Call → Workspace × Answer
  | .save unit s => ((w.save unit s).1, .ofResult (w.save unit s).2)
  | .load unit => (w, .loaded (w.state? unit))
  | .forget unit => ((w.forget unit).1, .ofResult (w.forget unit).2)

/-- What a call is meant to do to the state of a unit. -/
def Call.effect (unit : String) (held : Option State) : Call → Option State
  | .save other s => if other = unit then some s else held
  | .load _ => held
  | .forget other => if other = unit then none else held

variable {w w' : Workspace} {unit : String} {s : State}

/-- A call about another unit has no effect on what a unit has. -/
theorem Call.effect_of_ne {c : Call} (h : c.unit ≠ unit) (held : Option State) :
    c.effect unit held = held := by
  cases c with
  | save other s => exact if_neg h
  | load other => rfl
  | forget other => exact if_neg h

/-- A call keeps it so that the one state is the other or lost. -/
theorem keptOrLost_effect {a b : Option State} (h : KeptOrLost a b) (c : Call) :
    KeptOrLost (c.effect unit a) (c.effect unit b) := by
  by_cases hunit : c.unit = unit
  · subst hunit
    cases c with
    | save other s => exact .inr (by simp [Call.effect, Call.unit])
    | load other => exact h
    | forget other => exact .inl (by simp [Call.effect, Call.unit])
  · rwa [Call.effect_of_ne hunit, Call.effect_of_ne hunit]

namespace Working

/-- A store in order is usable. -/
theorem usable (h : w.Working) : w.Usable := by
  obtain ⟨t, store⟩ := w
  cases store with
  | memory rs => trivial
  | full rs => trivial
  | directory root =>
    obtain ⟨dir, horder⟩ := h
    exact fun unit => .inr (horder.kept unit)

/-- A store that takes states still does when it was given one. -/
theorem save (h : w.Working) (unit : String) (s : State) : (w.save unit s).1.Working := by
  have hworking := h.commit unit s
  rwa [h.commit_eq] at hworking

/-- A store in order forgets any unit. -/
theorem forget_eq_ok (h : w.Working) (unit : String) : (w.forget unit).2 = .ok () := by
  obtain ⟨t, store⟩ := w
  cases store with
  | memory rs => rfl
  | full rs => rfl
  | directory root =>
    obtain ⟨dir, horder⟩ := h
    show (Store.forgetFile t root unit).2 = .ok ()
    rcases Store.forgetFile_of_inOrder horder unit with heq | ⟨-, -, heq⟩ <;> rw [heq]

/-- Forgetting a unit leaves the store in order. -/
theorem forget (h : w.Working) (unit : String) : (w.forget unit).1.Working := by
  obtain ⟨t, store⟩ := w
  cases store with
  | memory rs => trivial
  | full rs => exact absurd h id
  | directory root =>
    obtain ⟨dir, horder⟩ := h
    exact ⟨dir, horder.forgotten unit⟩

/-- Forgetting a unit leaves the states of units with other records. -/
theorem state?_forget_of_ne (h : w.Working) {other : String}
    (hne : Store.recordName other ≠ Store.recordName unit) :
    (w.forget unit).1.state? other = w.state? other := by
  have hother : other ≠ unit := by
    rintro rfl
    exact hne rfl
  obtain ⟨t, store⟩ := w
  cases store with
  | memory rs =>
    rw [Workspace.forget, state?_memory, state?_memory, Records.find?_remove_of_ne hother]
  | full rs => exact absurd h id
  | directory root =>
    obtain ⟨dir, horder⟩ := h
    exact Store.state?_of_forgotten_of_ne horder hne

/-- A store that takes states still does after any call. -/
theorem call (h : w.Working) (c : Call) : (w.call c).1.Working := by
  cases c with
  | save unit s => exact h.save unit s
  | load unit => exact h
  | forget unit => exact h.forget unit

/-- No call fails. -/
theorem answer_ne_failed (h : w.Working) (c : Call) (e : StoreError) :
    (w.call c).2 ≠ .failed e := by
  cases c with
  | save unit s =>
    show Answer.ofResult (w.save unit s).2 ≠ _
    rw [h.save_eq_ok]
    exact Answer.noConfusion
  | load unit => exact Answer.noConfusion
  | forget unit =>
    show Answer.ofResult (w.forget unit).2 ≠ _
    rw [h.forget_eq_ok]
    exact Answer.noConfusion

/-- A store in order has a state that was just saved. -/
theorem state?_save (h : w.Working) (unit : String) (s : State) :
    (w.save unit s).1.state? unit = some s := by
  have hstate := h.state?_commit unit s
  rwa [h.commit_eq] at hstate

/-- A call does to the state of its own unit what it is meant to do. -/
theorem state?_call_self (h : w.Working) (c : Call) :
    (w.call c).1.state? c.unit = c.effect c.unit (w.state? c.unit) := by
  cases c with
  | save unit s =>
    show (w.save unit s).1.state? unit = if unit = unit then some s else w.state? unit
    rw [if_pos rfl, h.state?_save]
  | load unit => rfl
  | forget unit =>
    show (w.forget unit).1.state? unit = if unit = unit then none else w.state? unit
    rw [if_pos rfl, w.state?_forget]

/-- A call does to the state of a unit what it is meant to do, or takes it away. -/
theorem keptOrLost_call (h : w.Working) (c : Call) (unit : String) :
    KeptOrLost (c.effect unit (w.state? unit)) ((w.call c).1.state? unit) := by
  by_cases hunit : c.unit = unit
  · subst hunit
    exact .inr (h.state?_call_self c)
  · rw [Call.effect_of_ne hunit]
    cases c with
    | save other s => exact keptOrLost_save h.usable (Ne.symm hunit)
    | load other => exact .refl _
    | forget other => exact w.keptOrLost_forget other unit

/-- A call does to the state of a unit what it is meant to do, unless the unit of the call is
another one with the same digest. -/
theorem state?_call (h : w.Working) {c : Call}
    (hname : Store.recordName unit = Store.recordName c.unit → unit = c.unit) :
    (w.call c).1.state? unit = c.effect unit (w.state? unit) := by
  by_cases hunit : c.unit = unit
  · subst hunit
    exact h.state?_call_self c
  · rw [Call.effect_of_ne hunit]
    have hne : Store.recordName unit ≠ Store.recordName c.unit := fun heq => hunit (hname heq).symm
    cases c with
    | save other s =>
      have hstate := h.state?_commit_of_ne s hne
      rwa [h.commit_eq] at hstate
    | load other => rfl
    | forget other => exact h.state?_forget_of_ne hne

end Working

/-! ## Any sequence of calls -/

/-- The store after some calls. -/
def run (w : Workspace) (calls : List Call) : Workspace :=
  calls.foldl (fun w c => (w.call c).1) w

/-- What a store answers to some calls, one after the other. -/
def answers (w : Workspace) : List Call → List Answer
  | [] => []
  | c :: calls => (w.call c).2 :: answers (w.call c).1 calls

/-- The state that was saved last for a unit and not forgotten since. -/
def latest? (unit : String) (calls : List Call) : Option State :=
  calls.foldl (Call.effect unit) none

/-- No two units that are called for have the same digest. -/
def Distinct (calls : List Call) : Prop :=
  ∀ a ∈ calls, ∀ b ∈ calls,
    Sha256.hexDigest (Utf8.encode a.unit.toList) = Sha256.hexDigest (Utf8.encode b.unit.toList) →
      a.unit = b.unit

variable {calls before after : List Call} {c : Call}

/-- The answer to a call is the one that it gets after the calls before it. -/
theorem getElem?_answers (w : Workspace) :
    (w.answers (before ++ c :: after))[before.length]? = some ((w.run before).call c).2 := by
  induction before generalizing w with
  | nil => rfl
  | cons d before ih => exact ih (w.call d).1

/-- A save that fails is answered by its failure. -/
theorem failed_mem_answers {e : StoreError} (h : (w.save unit s).2 = .error e) :
    .failed e ∈ w.answers [.save unit s] := by
  show _ ∈ Answer.ofResult (w.save unit s).2 :: _
  rw [h]
  exact List.mem_cons_self

/-- Several calls keep it so that the one state is the other or lost. -/
theorem keptOrLost_foldl {a b : Option State} (h : KeptOrLost a b) (calls : List Call) :
    KeptOrLost (calls.foldl (Call.effect unit) a) (calls.foldl (Call.effect unit) b) := by
  induction calls generalizing a b with
  | nil => exact h
  | cons c calls ih => exact ih (keptOrLost_effect h c)

/-- Of distinct calls, two whose units share a record are about one unit. -/
theorem Distinct.unit_eq {a b : Call} (h : Distinct calls) (ha : a ∈ calls) (hb : b ∈ calls)
    (hname : Store.recordName a.unit = Store.recordName b.unit) : a.unit = b.unit :=
  h a ha b hb (List.append_cancel_right hname)

/-- Calls that are distinct are so without the first. -/
theorem Distinct.of_cons (h : Distinct (c :: calls)) : Distinct calls :=
  fun a ha b hb => h a (List.mem_cons_of_mem c ha) b (List.mem_cons_of_mem c hb)

namespace Working

/-- A store in order answers no call by a failure. -/
theorem not_mem_answers (h : w.Working) (calls : List Call) (e : StoreError) :
    .failed e ∉ w.answers calls := by
  induction calls generalizing w with
  | nil => exact List.not_mem_nil
  | cons c calls ih =>
    intro hmem
    rcases List.mem_cons.mp hmem with heq | hmem
    · exact h.answer_ne_failed c e heq.symm
    · exact ih (h.call c) hmem

/-- After some calls a unit has the state that they leave it, or none. -/
theorem keptOrLost_run (h : w.Working) (calls : List Call) (unit : String) :
    KeptOrLost (calls.foldl (Call.effect unit) (w.state? unit)) ((w.run calls).state? unit) := by
  induction calls generalizing w with
  | nil => exact .refl _
  | cons c calls ih =>
    exact (keptOrLost_foldl (h.keptOrLost_call c unit) calls).trans (ih (h.call c))

/-- Two stores that have the same states of some units answer calls for these alike. -/
theorem answers_eq (h : w.Working) (h' : w'.Working) (hdistinct : Distinct calls)
    (hsame : ∀ c ∈ calls, w.state? c.unit = w'.state? c.unit) :
    w.answers calls = w'.answers calls := by
  induction calls generalizing w w' with
  | nil => rfl
  | cons c calls ih =>
    have hanswer : (w.call c).2 = (w'.call c).2 := by
      cases c with
      | save unit s =>
        show Answer.ofResult (w.save unit s).2 = Answer.ofResult (w'.save unit s).2
        rw [h.save_eq_ok, h'.save_eq_ok]
      | load unit => exact congrArg Answer.loaded (hsame _ List.mem_cons_self)
      | forget unit =>
        show Answer.ofResult (w.forget unit).2 = Answer.ofResult (w'.forget unit).2
        rw [h.forget_eq_ok, h'.forget_eq_ok]
    have hnext (d : Call) (hd : d ∈ calls) :
        (w.call c).1.state? d.unit = (w'.call c).1.state? d.unit := by
      have hd : d ∈ c :: calls := List.mem_cons_of_mem c hd
      have hname := hdistinct.unit_eq hd List.mem_cons_self
      rw [h.state?_call hname, h'.state?_call hname, hsame d hd]
    rw [answers, answers, hanswer, ih (h.call c) (h'.call c) hdistinct.of_cons hnext]

end Working

end Workspace

/-! ## Directories without records -/

namespace Store

open FileTree

variable {t : FileTree} {root : Path}

/-- The directory of a store is there or can be made, and it has no records. -/
structure Fresh (t : FileTree) (root : Path) : Prop where
  made : (t.makeDirectories root).2 = .ok ()
  empty : ∃ dir, (t.makeDirectories root).1.find root = .ok (dir, .directory) ∧
    ∀ unit, entry? (t.makeDirectories root).1 (recordName unit :: dir) = none

/-- A directory without records is in order if its path is short enough for those of records
and temporary files in it. -/
theorem Fresh.inOrder (h : Fresh t root)
    (hfits : ∀ unit, Path.byteSize (recordPath root unit).chars < Path.byteLimit)
    (hscratch : Path.byteSize (t.temporaryPath root temporaryName).chars < Path.byteLimit) :
    ∃ dir, InOrder t root dir := by
  obtain ⟨dir, hfound, hempty⟩ := h.empty
  obtain ⟨hrefusal, -⟩ := walk_of_find hfound
  have hnul := (Path.refusal?_eq_none_iff.mp hrefusal).1
  have hfits (unit : String) : (recordPath root unit).refusal? = none :=
    refusal?_recordPath_of_lt hnul (hfits unit)
  have hscratch := refusal?_temporaryPath_of_lt hnul (by decide) hscratch
  exact ⟨dir, .of_empty hfits hscratch h.made hfound hempty⟩

/-- A fresh directory has no state of any unit. -/
theorem Fresh.state?_loadFile (h : Fresh t root) (unit : String) :
    (loadFile t root unit).state? = none := by
  obtain ⟨dir, hfound, hempty⟩ := h.empty
  exact state?_loadFile_of_empty hfound (hempty unit)

/-- A path to `s` in the root, with more slashes than it needs. -/
def slashed (n : Nat) : Path :=
  ⟨'/' :: (List.replicate n '/' ++ ['s'])⟩

/-- More slashes in front add no step. -/
theorem steps_slashed (n : Nat) : (slashed n).steps = [['s']] := by
  have hpieces (k : Nat) : (Path.pieces (List.replicate k '/' ++ ['s'])).filter (· ≠ []) =
      [['s']] := by
    induction k with
    | zero => rfl
    | succ k ih =>
      rw [List.replicate_succ, List.cons_append, Path.pieces_cons_slash,
        List.filter_cons_of_neg (by simp), ih]
  exact hpieces (n + 1)

/-- However many slashes are in front, there is none at the end. -/
theorem not_endsWithSlash_slashed (n : Nat) : ¬ (slashed n).endsWithSlash = true := by
  have hplain : (Path.Component.name ['s']).Plain := ⟨rfl, by decide⟩
  exact @Path.not_endsWithSlash_of_plain (slashed n) _ hplain ('/' :: List.replicate n '/') rfl

/-- More slashes in front add no step to the look-up. -/
theorem lookupSteps_slashed (n : Nat) : (slashed n).lookupSteps = [['s']] := by
  rw [Path.lookupSteps, if_neg (not_endsWithSlash_slashed n), steps_slashed]

/-- Each further slash in front makes the path one byte longer. -/
theorem byteSize_slashed (n : Nat) : Path.byteSize (slashed n).chars = n + 2 := by
  rw [byteSize_eq_length]
  · simp [slashed]
  · intro c hc
    simp only [slashed, List.mem_cons, List.mem_append, List.mem_replicate, List.not_mem_nil,
      or_false] at hc
    rcases hc with rfl | ⟨-, rfl⟩ | rfl <;> rfl

/-- A slash and the name of a file come after the path of the directory. -/
theorem byteSize_join_slashed {c : Path.Component} (hc : c.Plain) (n : Nat) :
    Path.byteSize ((slashed n).join ⟨c.chars⟩).chars = n + 3 + Path.byteSize c.chars := by
  have hjoin : ((slashed n).join ⟨c.chars⟩).chars = (slashed n).chars ++ ['/'] ++ c.chars := by
    rcases Path.join_plain hc (slashed n) with ⟨-, hnil⟩ | ⟨xs, hxs, -⟩ | ⟨-, hjoin⟩
    · cases hnil
    · exact absurd (Path.endsWithSlash_iff.mpr ⟨xs, hxs⟩) (not_endsWithSlash_slashed n)
    · rw [hjoin]
      simp
  rw [hjoin, Path.byteSize_append, Path.byteSize_append, byteSize_slashed]
  rfl

/-- The path of a record in such a directory has seventy bytes more than that of the directory. -/
theorem byteSize_recordPath_slashed (n : Nat) (unit : String) :
    Path.byteSize (recordPath (slashed n) unit).chars = n + 72 := by
  rw [recordPath_eq, byteSize_join_slashed (plain_recordName unit)]
  show n + 3 + Path.byteSize (recordName unit) = _
  rw [byteSize_recordName]

/-- The path of the directory is absolute, so it starts that of a temporary file as well. -/
theorem byteSize_temporaryPath_slashed (t : FileTree) (n : Nat) :
    Path.byteSize (t.temporaryPath (slashed n) temporaryName).chars = n + 13 := by
  have hname : Path.IsProper temporaryName := by decide
  exact byteSize_join_slashed hname.plain n

/-- A directory that one step leads to and that is missing can be made, without records. -/
theorem fresh_of_missing (hrefusal : root.refusal? = none) (hsteps : root.steps = [['s']])
    (hlookup : root.lookupSteps = [['s']])
    (hmissing : t.entry? (['s'] :: origin t.workingDir root) = none) : Fresh t root := by
  have hdir : t.entry? (origin t.workingDir root) = some .directory :=
    directory_origin t.working root
  have hroom := hasRoom_of_missing hmissing hdir
  have hstep (u : FileTree) (last : Bool) (hentry : ∀ target,
      u.entry? (['s'] :: origin t.workingDir root) ≠ some (.link target)) :
      u.follow last linkLimit (origin t.workingDir root) [['s']] =
        .before (origin t.workingDir root) ['s'] := by
    have hname : IsName ['s'] := ⟨by decide, by decide⟩
    have hadvance : u.advance last (origin t.workingDir root) [['s']] =
        .before (origin t.workingDir root) ['s'] :=
      advance_single_of_not_link hname (by decide) fun _ => hentry
    rw [follow_of_advance (by simp [hadvance]), hadvance]
  have hmake : t.makeDirectory root =
      .ok (t.put (['s'] :: origin t.workingDir root) .directory) := by
    unfold makeDirectory walkToLast
    rw [hrefusal, hsteps]
    dsimp only
    rw [hstep t false (by simp [hmissing])]
    simp only [hmissing]
  have hmade : t.makeDirectories root =
      (t.put (['s'] :: origin t.workingDir root) .directory, .ok ()) := by
    have hne := (Path.refusal?_eq_none_iff.mp hrefusal).2.1
    unfold makeDirectories makeDirectoriesWithin
    rw [if_neg hne, hmake]
  have hput : entry? (t.put (['s'] :: origin t.workingDir root) .directory)
      (['s'] :: origin t.workingDir root) = some .directory := by
    rw [entry?_put hroom, if_pos rfl]
  refine ⟨by rw [hmade], ['s'] :: origin t.workingDir root, ?_, fun unit => ?_⟩
  · rw [hmade]
    unfold find walk
    rw [hrefusal, hlookup, workingDir_put]
    dsimp only
    rw [hstep _ true (by simp [hput])]
    simp only [hput]
  · rw [hmade, entry?_put_of_ne (by simp)]
    exact entry?_below hmissing _

/-- Such a directory can be made in a bare tree as long as its own path is short enough. -/
theorem fresh_slashed {n : Nat} (h : n + 2 < Path.byteLimit) : Fresh (bare []) (slashed n) := by
  refine fresh_of_missing ?_ (steps_slashed n) (lookupSteps_slashed n) rfl
  refine Path.refusal?_eq_none_iff.mpr ⟨?_, List.cons_ne_nil _ _, ?_⟩
  · simp [slashed]
  · rwa [byteSize_slashed]

end Store

namespace Workspace

open FileTree

variable {t : FileTree} {root : Path} {unit : String} {e : OsError}

/-- A record whose path is refused cannot be saved. -/
theorem exists_save_eq_error (h : (Store.recordPath root unit).refusal? = some e) (t : FileTree)
    (s : State) : ∃ e, (save ⟨t, .directory root⟩ unit s).2 = .error e := by
  rw [save_directory]
  rcases Store.saveFile_cases t root unit s with ⟨t', hreplace, -⟩ | ⟨e, heq⟩
  · obtain ⟨dir, n, hwalk, -⟩ := replace_eq_ok hreplace
    unfold walk at hwalk
    rw [h] at hwalk
    cases hwalk
  · exact ⟨e, by rw [heq]⟩

/-- No record can be saved where the path of a temporary file is refused. -/
theorem exists_save_eq_error_of_temporaryPath
    (h : (t.temporaryPath root temporaryName).refusal? = some e) (unit : String) (s : State) :
    ∃ e, (save ⟨t, .directory root⟩ unit s).2 = .error e := by
  have hmade := temporaryPath_congr (grown_makeDirectories t root).workingDir root temporaryName
  rw [← hmade] at h
  rw [save_directory]
  unfold Store.saveFile publish
  generalize t.makeDirectories root = made at h
  obtain ⟨made, e' | _⟩ := made
  · exact ⟨_, rfl⟩
  · dsimp only at h ⊢
    rw [h]
    exact ⟨_, rfl⟩

/-- A directory without records answers any sequence of calls without failing, if its path is
short enough for those of records and temporary files in it. It answers as a store in memory
does if the digests of the units differ; and if they do not, still no load gives anything but
the state that was saved last for the unit and not forgotten since. -/
theorem answers_directory (h : Store.Fresh t root)
    (hfits : ∀ unit, Path.byteSize (Store.recordPath root unit).chars < Path.byteLimit)
    (hscratch : Path.byteSize (t.temporaryPath root temporaryName).chars < Path.byteLimit)
    (calls : List Call) :
    (∀ e, .failed e ∉ answers ⟨t, .directory root⟩ calls) ∧
      (Distinct calls → answers ⟨t, .directory root⟩ calls = answers ⟨t, .memory []⟩ calls) ∧
      ∀ before unit after, calls = before ++ .load unit :: after →
        ∃ s, (answers ⟨t, .directory root⟩ calls)[before.length]? = some (.loaded s) ∧
          (s = none ∨ s = latest? unit before) := by
  have hworking : Working ⟨t, .directory root⟩ := h.inOrder hfits hscratch
  have hmemory : Working ⟨t, .memory []⟩ := trivial
  have hnone (unit : String) : state? ⟨t, .directory root⟩ unit = none :=
    h.state?_loadFile unit
  refine ⟨hworking.not_mem_answers calls, fun hdistinct => ?_, ?_⟩
  · apply hworking.answers_eq hmemory hdistinct
    intro c hc
    rw [hnone, state?_memory]
    rfl
  · rintro before unit after rfl
    refine ⟨_, getElem?_answers _, ?_⟩
    have hkept := hworking.keptOrLost_run before unit
    rw [hnone] at hkept
    exact hkept

/-- A directory that is missing answers like a store in memory, two units being saved. -/
theorem answers_directory_two :
    let root := Store.slashed 0
    let calls : List Call := [.save "u" .empty, .load "v", .save "v" .empty, .forget "u", .load "v"]
    Store.Fresh (bare []) root ∧
      (∀ unit, Path.byteSize (Store.recordPath root unit).chars < Path.byteLimit) ∧
      Path.byteSize ((bare []).temporaryPath root temporaryName).chars < Path.byteLimit ∧
      Distinct calls ∧
      answers ⟨bare [], .directory root⟩ calls = answers ⟨bare [], .memory []⟩ calls := by
  intro root calls
  have hfresh : Store.Fresh (bare []) root := Store.fresh_slashed (by decide)
  have hfits (unit : String) :
      Path.byteSize (Store.recordPath root unit).chars < Path.byteLimit := by
    rw [Store.byteSize_recordPath_slashed]
    decide
  have hscratch : Path.byteSize ((bare []).temporaryPath root temporaryName).chars <
      Path.byteLimit := by
    rw [Store.byteSize_temporaryPath_slashed]
    decide
  have hdistinct : Distinct calls := by
    unfold Distinct
    decide +kernel
  obtain ⟨-, hmemory, -⟩ := answers_directory hfresh hfits hscratch calls
  exact ⟨hfresh, hfits, hscratch, hdistinct, hmemory hdistinct⟩

/-- A working directory so deep that its path has no room for one more name. -/
def deepDirectory : FileTree :=
  bare (List.replicate 16 (List.replicate 255 'd'))

/-- A state is not saved where the path of the directory leaves no room for that of a record,
nor where the working directory leaves no room for the absolute path of a temporary file. -/
theorem not_forall_answers_directory :
    (¬ ∀ (t : FileTree) (root : Path), Store.Fresh t root →
      Path.byteSize (t.temporaryPath root temporaryName).chars < Path.byteLimit →
        ∀ calls e, .failed e ∉ answers ⟨t, .directory root⟩ calls) ∧
    ¬ ∀ (t : FileTree) (root : Path), Store.Fresh t root →
      (∀ unit, Path.byteSize (Store.recordPath root unit).chars < Path.byteLimit) →
        ∀ calls e, .failed e ∉ answers ⟨t, .directory root⟩ calls := by
  constructor
  case left =>
    intro h
    have hfresh : Store.Fresh (bare []) (Store.slashed 4024) := Store.fresh_slashed (by decide)
    have hscratch : Path.byteSize
        ((bare []).temporaryPath (Store.slashed 4024) temporaryName).chars < Path.byteLimit := by
      rw [Store.byteSize_temporaryPath_slashed]
      decide
    cases hrefusal : (Store.recordPath (Store.slashed 4024) "u").refusal? with
    | none =>
      have hshort := (Path.refusal?_eq_none_iff.mp hrefusal).2.2
      rw [Store.byteSize_recordPath_slashed] at hshort
      exact absurd hshort (by decide)
    | some e =>
      obtain ⟨e', he'⟩ := exists_save_eq_error hrefusal (bare []) .empty
      exact h _ _ hfresh hscratch _ e' (failed_mem_answers he')
  case right =>
    intro h
    let root : Path := ⟨['s']⟩
    have hfresh : Store.Fresh deepDirectory root :=
      Store.fresh_of_missing rfl rfl rfl (entry?_bare_cons _ _)
    have hfits (unit : String) :
        Path.byteSize (Store.recordPath root unit).chars < Path.byteLimit := by
      have hsize := Path.byteSize_le_of_sublist (Store.recordPath_sublist root unit)
      rw [Path.byteSize_append, Store.byteSize_recordName] at hsize
      exact Nat.lt_of_le_of_lt hsize (by decide)
    cases hrefusal : (deepDirectory.temporaryPath root temporaryName).refusal? with
    | none =>
      have hshort := (Path.refusal?_eq_none_iff.mp hrefusal).2.2
      exact absurd hshort (by decide +kernel)
    | some e =>
      obtain ⟨e', he'⟩ := exists_save_eq_error_of_temporaryPath hrefusal "u" .empty
      exact h _ _ hfresh hfits _ e' (failed_mem_answers he')

end Workspace

end Recompile
