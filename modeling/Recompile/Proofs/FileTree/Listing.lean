import Recompile.Proofs.FileTree.Below
import Recompile.Proofs.FileTree.Dots
import Recompile.Proofs.Graph.Build
import Recompile.Proofs.Path.Target

/-!
# Files that a walk comes to

A file that is found below a search root by a target without `..` steps is listed by the
walk of the root, under the path that the names of the target lead to
(`FileTree.mem_filesUnder_of_isFile`). What is found behind a name is found in the directory
that the path before it leads to, so the look-up of the target visits the directories that
the walk goes down. A link to a directory is the one place where the two may part, since the
walk does not go through a link back to a directory that it came through.
-/

set_option autoImplicit false

namespace Recompile.FileTree

open Recompile.Path (withoutDots Component)

variable {t : FileTree} {links levels : Nat} {dir D loc : Location} {n : Name}
  {steps dots : List Name} {p root : Path} {c : Component} {cs : List Component} {entry : Entry}
  {above : List Location} {roots : List Path}

/-! ## What is found behind a name -/

/-- A plain component other than `..` is a name. -/
theorem isName_of_plain (hc : c.Plain) (hup : c ≠ .up) : IsName c.chars := by
  refine ⟨hc.chars_ne_dot, fun heq => hup ?_⟩
  have hpiece := hc.ofPiece
  rw [heq] at hpiece
  exact (Option.some.inj hpiece).symm

/-- If the system takes a path with one more component, it takes the path. -/
theorem refusal?_of_join (hc : c.Plain) (hne : p.chars ≠ [])
    (h : (p.join ⟨c.chars⟩).refusal? = none) : p.refusal? = none := by
  have hsub : List.Sublist p.chars (p.join ⟨c.chars⟩).chars := by
    rcases Path.join_plain hc p with ⟨-, hnil⟩ | ⟨xs, hxs, hjoin⟩ | ⟨-, hjoin⟩
    · exact absurd hnil hne
    · rw [hjoin, hxs]
      simp
    · rw [hjoin]
      exact List.sublist_append_left _ _
  exact Path.refusal?_of_sublist hsub hne h

/-- What is found behind a name is found in a directory. -/
theorem exists_find_of_find_join (hc : c.Plain) (hne : p.chars ≠ [])
    (h : t.find (p.join ⟨c.chars⟩) = .ok (loc, entry)) :
    ∃ D, t.find p = .ok (D, .directory) := by
  have hjoined := refusal?_of_find_ok h
  have hrefusal := refusal?_of_join hc hne hjoined
  have horigin : origin t.workingDir (p.join ⟨c.chars⟩) = origin t.workingDir p := by
    unfold origin
    rw [Path.isAbsolute_join hc]
  have hwalk : t.walk true (p.join ⟨c.chars⟩) =
      t.follow true linkLimit (origin t.workingDir p) (p.steps ++ [c.chars]) := by
    unfold walk
    rw [hjoined, horigin, Path.lookupSteps_join hc]
  have hhalt (e : OsError) :
      t.follow true linkLimit (origin t.workingDir p) (p.steps ++ [c.chars]) ≠ .failed e := by
    intro hfailed
    rw [find, hwalk, hfailed] at h
    cases h
  obtain ⟨dots, hdots, hsteps⟩ : ∃ dots, withoutDots dots = [] ∧
      p.lookupSteps = p.steps ++ dots := by
    unfold Path.lookupSteps
    split
    · exact ⟨[['.']], rfl, rfl⟩
    · exact ⟨[], rfl, (List.append_nil _).symm⟩
  obtain ⟨D, hat⟩ := exists_at_of_follow_append hdots (List.cons_ne_nil _ _) hhalt
  refine ⟨D, find_of_at ?_⟩
  unfold walk
  rw [hrefusal, hsteps]
  exact hat

/-- What is found behind a name stands under that name, or a link does. -/
theorem find_join_cases (hc : c.Plain) (hup : c ≠ .up) (hdir : t.find p = .ok (D, .directory))
    (h : t.find (p.join ⟨c.chars⟩) = .ok (loc, entry)) :
    loc = c.chars :: D ∧ t.entry? (c.chars :: D) = some entry ∨
      ∃ target, t.entry? (c.chars :: D) = some (.link target) := by
  by_cases hlink : ∃ target, t.entry? (c.chars :: D) = some (.link target)
  · exact .inr hlink
  · left
    have hn := isName_of_plain hc hup
    obtain ⟨links, hlinks, -⟩ := follow_join_of_find hc true hdir
    have hwalk : t.walk true (p.join ⟨c.chars⟩) = t.follow true links D [c.chars] := by
      unfold walk
      rw [refusal?_of_find_ok h]
      exact hlinks t (.refl t) rfl
    unfold find at h
    rw [hwalk] at h
    by_cases hlong : Path.nameByteLimit < Path.byteSize c.chars
    · rw [follow_of_failed (advance_long hn hlong)] at h
      cases h
    · have hbefore : t.advance true D [c.chars] = .before D c.chars :=
        advance_single_of_not_link hn hlong fun _ target hentry => hlink ⟨target, hentry⟩
      rw [follow_of_advance (by simp [hbefore]), hbefore] at h
      dsimp only at h
      split at h
      · rename_i hentry
        cases h
        exact ⟨rfl, hentry⟩
      · cases h

/-- What is found behind components is found in a directory. -/
theorem exists_find_of_find_extend (hcs : ∀ c ∈ cs, c.Plain) (hne : cs ≠ [])
    (hp : p.chars ≠ []) (h : t.find (p.extend cs) = .ok (loc, entry)) :
    ∃ D, t.find p = .ok (D, .directory) := by
  induction cs generalizing p with
  | nil => exact absurd rfl hne
  | cons c cs ih =>
    have hc : c.Plain := hcs c List.mem_cons_self
    by_cases hnil : cs = []
    · subst hnil
      exact exists_find_of_find_join hc hp h
    · obtain ⟨D, hD⟩ := ih (fun d hd => hcs d (List.mem_cons_of_mem _ hd)) hnil
        (Path.chars_join_ne_nil hc p) h
      exact exists_find_of_find_join hc hp hD

/-- A file that is found by a relative target below a directory is found by the components
of the target, of which there are some. -/
theorem isFile_extend_of_isFile_join {target : Path} (hne : p.chars ≠ [])
    (htarget : target.isAbsolute = false) (h : t.isFile (p.join target) = true) :
    target.named ≠ [] ∧ t.isFile (p.extend target.named) = true := by
  have hplain : ∀ c ∈ target.named, c.Plain := fun _ hc => Path.plain_of_mem_named hc
  obtain ⟨hrefusal, d, n, entry, hfollow, hentry, hkind⟩ := isFile_eq_true_iff.mp h
  obtain ⟨more, hsteps, hmore, hcount⟩ := Path.exists_lookupSteps_join hne htarget
  rw [hsteps] at hfollow
  have hnamed : target.named ≠ [] := by
    intro hnil
    rw [hnil] at hcount
    -- Only `.` steps come after the directory.
    have hlast : more.getLast hmore = ['.'] := by
      have hall := List.filter_eq_nil_iff.mp hcount _ (List.getLast_mem hmore)
      simpa using hall
    rw [← List.dropLast_append_getLast hmore, hlast, ← List.append_assoc] at hfollow
    exact follow_append_dot_ne_before hfollow
  have horigin : origin t.workingDir (p.extend target.named) =
      origin t.workingDir (p.join target) := by
    unfold origin
    rw [Path.isAbsolute_extend hplain, Path.isAbsolute_join_of_ne_nil hne htarget]
  refine ⟨hnamed, isFile_eq_true_iff.mpr ⟨?_, d, n, entry, ?_, hentry, hkind⟩⟩
  · exact Path.refusal?_of_sublist (Path.chars_extend_sublist hne htarget hnamed)
      (Path.chars_extend_ne_nil hplain hne) hrefusal
  · rw [Path.lookupSteps_extend hplain hnamed, ← hcount, horigin]
    apply follow_of_sublist (List.filter_sublist.append_left p.steps) _ hfollow
    rw [Path.withoutDots_append, Path.withoutDots_append]
    exact congrArg _ (Path.withoutDots_withoutDots more)

/-! ## The walk -/

/-- No link below the search roots leads to a directory. -/
def NoLinkedDirectories (t : FileTree) (roots : List Path) : Prop :=
  ∀ p dir n target loc, t.Below roots p dir → t.entry? (n :: dir) = some (.link target) →
    t.find (p.join ⟨n⟩) ≠ .ok (loc, .directory)

/-- A file below a directory is listed by a walk that may go down far enough. -/
theorem mem_filesBelow_of_isFile (hlinks : t.NoLinkedDirectories roots)
    (hbelow : t.Below roots p D) (hfind : t.find p = .ok (D, .directory))
    (hlevels : t.levelsBelow above D < levels) (hcs : ∀ c ∈ cs, c.Plain) (hup : .up ∉ cs)
    (hne : cs ≠ []) (hfile : t.isFile (p.extend cs) = true) :
    p.extend cs ∈ t.filesBelow levels above p D := by
  induction cs generalizing levels above p D with
  | nil => exact absurd rfl hne
  | cons c cs ih =>
    have hc : c.Plain := hcs c List.mem_cons_self
    have hcup : c ≠ .up := fun heq => hup (heq ▸ List.mem_cons_self)
    cases levels with
    | zero => exact absurd hlevels (Nat.not_lt_zero _)
    | succ levels =>
      unfold filesBelow
      rw [List.mem_flatMap]
      -- The last component is a child that is a file or a link to one; any other is a child
      -- directory, since links to directories are excluded.
      by_cases hnil : cs = []
      · subst hnil
        obtain ⟨loc, entry, hfound, hkind⟩ := find_ok_of_isFile hfile
        have hfound : t.find (p.join ⟨c.chars⟩) = .ok (loc, entry) := hfound
        rcases find_join_cases hc hcup hfind hfound with ⟨-, hentry⟩ | ⟨target, hentry⟩
        · refine ⟨_, mem_children.mpr hentry, ?_⟩
          cases entry with
          | file | locked => exact List.mem_singleton_self _
          | directory | link => cases hkind
        · refine ⟨_, mem_children.mpr hentry, ?_⟩
          dsimp only
          rw [hfound]
          cases entry with
          | file | locked => exact List.mem_singleton_self _
          | directory | link => cases hkind
      · have hcs' : ∀ d ∈ cs, d.Plain := fun d hd => hcs d (List.mem_cons_of_mem _ hd)
        have hup' : Component.up ∉ cs := fun hmem => hup (List.mem_cons_of_mem _ hmem)
        obtain ⟨loc, entry, hfound, -⟩ := find_ok_of_isFile hfile
        obtain ⟨E, hE⟩ :=
          exists_find_of_find_extend hcs' hnil (Path.chars_join_ne_nil hc p) hfound
        rcases find_join_cases hc hcup hfind hE with ⟨rfl, hentry⟩ | ⟨target, hentry⟩
        · have hless : t.levelsBelow ((c.chars :: D) :: above) (c.chars :: D) <
              t.levelsBelow above D :=
            levelsBelow_child_lt (by simp [hentry])
          have hfits : (p.join ⟨c.chars⟩).refusal? = none := refusal?_of_find_ok hE
          have hmem : (p.join ⟨c.chars⟩).extend cs ∈
              t.filesBelow levels ((c.chars :: D) :: above) (p.join ⟨c.chars⟩) (c.chars :: D) :=
            ih (hbelow.child hentry hfits) hE (by omega) hcs' hup' hnil hfile
          refine ⟨_, mem_children.mpr hentry, ?_⟩
          dsimp only
          rw [hfits]
          exact hmem
        · exact absurd hE (hlinks p D c.chars target E hbelow hentry)

/-- A file that is found by a relative target below a search root is listed for the root,
under the path that the names of the target lead to. -/
theorem mem_filesUnder_of_isFile {target : Path} (hlinks : t.NoLinkedDirectories roots)
    (hroot : root ∈ roots) (hne : root.chars ≠ []) (htarget : target.isAbsolute = false)
    (hup : .up ∉ target.named) (hfile : t.isFile (root.join target) = true) :
    root.extend target.named ∈ roots.flatMap t.filesAt := by
  have hplain : ∀ c ∈ target.named, c.Plain := fun _ hc => Path.plain_of_mem_named hc
  obtain ⟨hnamed, hextend⟩ := isFile_extend_of_isFile_join hne htarget hfile
  obtain ⟨loc, entry, hfound, -⟩ := find_ok_of_isFile hextend
  obtain ⟨D, hD⟩ := exists_find_of_find_extend hplain hnamed hne hfound
  refine List.mem_flatMap.mpr ⟨root, hroot, ?_⟩
  unfold filesAt
  rw [hD]
  exact mem_filesBelow_of_isFile hlinks (.root hroot hD) hD
    (levelsBelow_lt_walkLevels (Nat.le_refl _)) hplain hup hnamed hextend

end Recompile.FileTree
