import Recompile.Proofs.FileTree.Spelling

/-!
# Targets below a directory

A relative target is looked up below a directory by the spelling that joins the two, and a
walk of the directory comes to a file by joining one name after the other. The second way
takes the steps of the first without the `.` steps of the target
(`Path.exists_lookupSteps_join`, `Path.lookupSteps_extend`), and its spelling is no longer
(`Path.chars_extend_sublist`). The two spellings are of one path
(`Path.clean_join_same_extend`).
-/

set_option autoImplicit false

namespace Recompile.Path

variable {dir target : Path} {c : Component} {cs : List Component}

/-- A path with a plain component joined to it is not empty. -/
theorem chars_join_ne_nil (hc : c.Plain) (p : Path) : (p.join ⟨c.chars⟩).chars ≠ [] := by
  rcases join_plain hc p with ⟨hjoin, -⟩ | ⟨xs, -, hjoin⟩ | ⟨-, hjoin⟩
  · rw [hjoin]
    exact hc.chars_ne_nil
  · simp [hjoin]
  · simp [hjoin]

/-- A joined path has no character but those of the two paths and a slash. -/
theorem mem_of_mem_join {ch : Char} (h : ch ∈ (dir.join target).chars) :
    ch ∈ dir.chars ∨ ch = '/' ∨ ch ∈ target.chars := by
  unfold join at h
  split at h
  · exact .inr (.inr h)
  · split at h
    · exact (List.mem_append.mp h).imp_right .inr
    · exact (List.mem_append.mp h).imp_right List.mem_cons.mp

/-- Joining two texts without a zero byte brings none in. -/
theorem nul_not_mem_join (hdir : '\x00' ∉ dir.chars) (htarget : '\x00' ∉ target.chars) :
    '\x00' ∉ (dir.join target).chars := by
  intro hmem
  rcases mem_of_mem_join hmem with hmem | hslash | hmem
  · exact hdir hmem
  · exact absurd hslash (by decide)
  · exact htarget hmem

/-- A path that ends with a component is not refused if it is short enough. -/
theorem refusal?_join_of_lt (hc : c.Plain) (hdir : '\x00' ∉ dir.chars) (hname : '\x00' ∉ c.chars)
    (hshort : byteSize (dir.join ⟨c.chars⟩).chars < byteLimit) :
    (dir.join ⟨c.chars⟩).refusal? = none :=
  refusal?_eq_none_iff.mpr ⟨nul_not_mem_join hdir hname, chars_join_ne_nil hc dir, hshort⟩

/-- A relative target follows the directory after one slash, whatever the directory ends
with. -/
theorem exists_chars_join (hdir : dir.chars ≠ []) :
    ∃ base, (pieces base).filter (· ≠ []) = dir.steps ∧
      (pieces base).filterMap Component.ofPiece? = dir.named ∧
      ∀ target : Path, target.isAbsolute = false →
        (dir.join target).chars = base ++ '/' :: target.chars := by
  by_cases hslash : dir.endsWithSlash = true
  · obtain ⟨xs, hxs⟩ := endsWithSlash_iff.mp hslash
    have hpieces : pieces dir.chars = pieces xs ++ [[]] := by
      rw [hxs, pieces_append_slash]
      rfl
    refine ⟨xs, ?_, ?_, fun target htarget => ?_⟩
    · simp [steps, hpieces]
    · simp [named, hpieces, Component.ofPiece?]
    · simp [join, htarget, hslash, hxs]
  · refine ⟨dir.chars, rfl, rfl, fun target htarget => ?_⟩
    simp [join, htarget, hslash, hdir]

/-- A path that ends with a component has no slash at its end. -/
theorem not_endsWithSlash_join (hc : c.Plain) (hdir : dir.chars ≠ []) :
    (dir.join ⟨c.chars⟩).endsWithSlash = false := by
  obtain ⟨base, -, -, hjoin⟩ := exists_chars_join hdir
  have hrelative := Bool.eq_false_of_not_eq_true (not_isAbsolute_of_plain hc)
  have hchars : (dir.join ⟨c.chars⟩).chars = base ++ ['/'] ++ c.chars := by
    rw [List.append_assoc]
    exact hjoin _ hrelative
  exact Bool.eq_false_of_not_eq_true (not_endsWithSlash_of_plain hc hchars)

/-- A relative target leaves a directory that is not empty absolute or relative, as it is. -/
theorem isAbsolute_join_of_ne_nil (hdir : dir.chars ≠ []) (htarget : target.isAbsolute = false) :
    (dir.join target).isAbsolute = dir.isAbsolute := by
  obtain ⟨d, ds, hchars⟩ := List.exists_cons_of_ne_nil hdir
  unfold join
  rw [if_neg (by simp [htarget])]
  split <;> simp [isAbsolute, hchars]

/-- Joining to the empty path gives the target. -/
theorem join_of_chars_eq_nil (hdir : dir.chars = []) (target : Path) :
    dir.join target = target := by
  unfold join
  split
  · rfl
  · rw [if_pos (.inl hdir), hdir]
    rfl

/-- A relative target starts where the directory does. -/
theorem isAbsolute_join_of_relative (htarget : target.isAbsolute = false) (dir : Path) :
    (dir.join target).isAbsolute = dir.isAbsolute := by
  by_cases hdir : dir.chars = []
  · rw [join_of_chars_eq_nil hdir, htarget, isAbsolute, hdir]
    rfl
  · exact isAbsolute_join_of_ne_nil hdir htarget

/-- The components of a relative target come after those of the directory. -/
theorem named_join_of_relative (htarget : target.isAbsolute = false) (dir : Path) :
    (dir.join target).named = dir.named ++ target.named := by
  by_cases hdir : dir.chars = []
  · have hnone : dir.named = [] := by
      rw [named, hdir]
      rfl
    rw [join_of_chars_eq_nil hdir, hnone, List.nil_append]
  · obtain ⟨base, -, hbase, hjoin⟩ := exists_chars_join hdir
    rw [named, hjoin target htarget, pieces_append_slash, List.filterMap_append, hbase]
    rfl

/-- A path that is not empty stays so when components are joined to it. -/
theorem chars_extend_ne_nil (hcs : ∀ c ∈ cs, c.Plain) (hdir : dir.chars ≠ []) :
    (dir.extend cs).chars ≠ [] := by
  unfold extend
  induction cs generalizing dir with
  | nil => exact hdir
  | cons c cs ih =>
    exact ih (fun d hd => hcs d (List.mem_cons_of_mem _ hd))
      (chars_join_ne_nil (hcs c List.mem_cons_self) dir)

/-- A relative target that is not empty has a step. -/
theorem steps_ne_nil (habs : target.isAbsolute = false) (hne : target.chars ≠ []) :
    target.steps ≠ [] := by
  obtain ⟨c, cs, hchars⟩ := List.exists_cons_of_ne_nil hne
  have hc : c ≠ '/' := by
    rintro rfl
    rw [isAbsolute, hchars] at habs
    cases habs
  obtain ⟨first, rest, hcs⟩ := List.exists_cons_of_ne_nil (pieces_ne_nil cs)
  rw [steps, hchars, pieces_cons hc hcs, List.filter_cons_of_pos (by simp)]
  exact List.cons_ne_nil _ _

/-- A target below a directory is looked up by the steps of the directory and then by some
steps, in which its components count. -/
theorem exists_lookupSteps_join (hdir : dir.chars ≠ []) (htarget : target.isAbsolute = false) :
    ∃ more, (dir.join target).lookupSteps = dir.steps ++ more ∧ more ≠ [] ∧
      withoutDots more = target.named.map Component.chars := by
  obtain ⟨base, hbase, -, hjoin⟩ := exists_chars_join hdir
  have hsteps : (dir.join target).steps = dir.steps ++ target.steps := by
    rw [steps, hjoin target htarget, pieces_append_slash, List.filter_append, hbase]
    rfl
  unfold lookupSteps
  split
  · refine ⟨target.steps ++ [['.']], by rw [hsteps, List.append_assoc], by simp, ?_⟩
    rw [withoutDots_append, withoutDots_steps, withoutDots_dot, withoutDots_nil, List.append_nil]
  · rename_i hslash
    refine ⟨target.steps, hsteps, steps_ne_nil htarget ?_, withoutDots_steps target⟩
    intro hnil
    apply hslash
    rw [endsWithSlash_iff, hjoin target htarget, hnil]
    exact ⟨base, rfl⟩

/-- Components below a directory are its steps and the components. -/
theorem lookupSteps_extend (hcs : ∀ c ∈ cs, c.Plain) (hne : cs ≠ []) (dir : Path) :
    (dir.extend cs).lookupSteps = dir.steps ++ cs.map Component.chars := by
  obtain ⟨init, c, rfl⟩ : ∃ init c, cs = init ++ [c] :=
    ⟨_, _, (List.dropLast_append_getLast hne).symm⟩
  have hjoin : dir.extend (init ++ [c]) = (dir.extend init).join ⟨c.chars⟩ := List.foldl_append
  have hinit : ∀ d ∈ init, d.Plain := fun d hd => hcs d (List.mem_append_left _ hd)
  rw [hjoin, lookupSteps_join (hcs c (by simp)), steps_extend hinit, List.map_append,
    List.append_assoc]
  rfl

/-- A target that is spelled by its components below a directory is spelled with characters
of the spelling that joins the two. -/
theorem chars_extend_sublist (hdir : dir.chars ≠ []) (htarget : target.isAbsolute = false)
    (hne : target.named ≠ []) :
    List.Sublist (dir.extend target.named).chars (dir.join target).chars := by
  obtain ⟨base, -, -, hjoin⟩ := exists_chars_join hdir
  have hplain : ∀ c ∈ target.named, c.Plain := fun _ hc => plain_of_mem_named hc
  have hpieces := intercalate_filter_sublist (fun piece => !isIdle piece) (pieces target.chars)
  rw [← map_chars_named, intercalate_pieces] at hpieces
  rw [hjoin target htarget]
  obtain ⟨c, cs, hcs⟩ := List.exists_cons_of_ne_nil hne
  rw [hcs] at hplain hpieces ⊢
  have hc : c.Plain := hplain c List.mem_cons_self
  have hfirst : (dir.join ⟨c.chars⟩).chars = (base ++ ['/']) ++ c.chars := by
    rw [hjoin ⟨c.chars⟩ (Bool.eq_false_of_not_eq_true (not_isAbsolute_of_plain hc))]
    simp
  have hextend : (dir.extend (c :: cs)).chars =
      base ++ '/' :: ['/'].intercalate ((c :: cs).map Component.chars) := by
    show ((dir.join ⟨c.chars⟩).extend cs).chars = _
    rw [chars_extend (fun d hd => hplain d (List.mem_cons_of_mem _ hd)) _
      (not_endsWithSlash_of_plain hc hfirst), hfirst, List.map_cons, intercalate_cons,
      List.flatMap_map]
    · simp
    · rw [hfirst]
      simp
  rw [hextend]
  exact (hpieces.cons_cons '/').append_left base

/-- An absolute path is not empty. -/
theorem chars_ne_nil_of_isAbsolute {p : Path} (h : p.isAbsolute = true) : p.chars ≠ [] := by
  obtain ⟨xs, hxs⟩ := isAbsolute_iff.mp h
  rw [hxs]
  exact List.cons_ne_nil _ _

/-- An absolute path has the root in front of its named components. -/
theorem components_of_isAbsolute {p : Path} (h : p.isAbsolute = true) :
    p.components = .root :: p.named := by
  rw [components_eq, leading, if_pos h]
  rfl

/-- The clean spelling of a target below an absolute directory is one of the path that the
components of the target lead to. -/
theorem clean_join_same_extend (hdir : dir.isAbsolute = true)
    (htarget : target.isAbsolute = false) :
    (dir.join target).clean.Same (dir.extend target.named) := by
  have hplain : ∀ c ∈ target.named, c.Plain := fun _ hc => plain_of_mem_named hc
  have habs : (dir.join target).isAbsolute = true := by
    rw [isAbsolute_join_of_relative htarget, hdir]
  have hextend : (dir.extend target.named).isAbsolute = true := by
    rw [isAbsolute_extend hplain, hdir]
  show _ = _
  rw [components_clean, filter_components, if_pos habs, components_of_isAbsolute hextend,
    named_join_of_relative htarget, named_extend hplain]

end Recompile.Path
