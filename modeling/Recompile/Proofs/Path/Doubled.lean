import Recompile.Proofs.Path.Target

/-!
# Absolute forms

An absolute form is clean but for two things that it keeps of the path it was made from: a
trailing slash, and a second slash at the start if there are exactly two
(`Path.settled_of_absolute?`). So it is its own absolute form (`Path.Settled.absolute?`).

The second slash changes nothing in what the path means, nor in where it leads, as long as the
path with its one more byte is not too long (`FileTree.find_doubled`). So two absolute forms of
one path that agree in their trailing slash lead to the same.
-/

set_option autoImplicit false

namespace Recompile

namespace Path

variable {p q dir target workingDir : Path} {cs : List Component}

/-! ## A second slash at the start -/

/-- The path with one more slash at its start. -/
def doubled (p : Path) : Path :=
  ⟨'/' :: p.chars⟩

/-- The doubled path is written as the path with one more slash in front. -/
@[simp] theorem chars_doubled (p : Path) : p.doubled.chars = '/' :: p.chars :=
  rfl

/-- A doubled path is absolute. -/
@[simp] theorem isAbsolute_doubled (p : Path) : p.doubled.isAbsolute = true :=
  rfl

/-- Another slash in front names nothing. -/
theorem named_doubled (p : Path) : p.doubled.named = p.named := by
  rw [named, chars_doubled, pieces_cons_slash]
  rfl

/-- Another slash in front adds no step to the walk. -/
theorem steps_doubled (p : Path) : p.doubled.steps = p.steps := by
  rw [steps, chars_doubled, pieces_cons_slash]
  rfl

/-- Whether an absolute path ends with a slash does not depend on another one in front. -/
theorem endsWithSlash_doubled (h : p.isAbsolute = true) :
    p.doubled.endsWithSlash = p.endsWithSlash := by
  obtain ⟨xs, hxs⟩ := isAbsolute_iff.mp h
  rw [endsWithSlash, endsWithSlash, chars_doubled, hxs, List.getLast?_cons_cons]

/-- An absolute path and its doubled spelling ask the file system for the same steps. -/
theorem lookupSteps_doubled (h : p.isAbsolute = true) :
    p.doubled.lookupSteps = p.lookupSteps := by
  rw [lookupSteps, lookupSteps, endsWithSlash_doubled h, steps_doubled]

/-- Cleaning drops the other slash in front. -/
theorem clean_doubled (h : p.isAbsolute = true) : p.doubled.clean = p.clean := by
  rw [clean_eq_extend, clean_eq_extend, isAbsolute_doubled, named_doubled, h]

/-- A second slash at the start makes no other path. -/
theorem same_doubled (h : p.isAbsolute = true) : p.Same p.doubled := by
  unfold Same
  rw [components_of_isAbsolute h, components_of_isAbsolute (isAbsolute_doubled p), named_doubled]

/-- A relative target is written behind the directory, with a slash between where there is none
yet. -/
theorem join_of_relative (htarget : target.isAbsolute = false) (hdir : dir.chars ≠ []) :
    dir.join target =
      if dir.endsWithSlash then ⟨dir.chars ++ target.chars⟩
      else ⟨dir.chars ++ '/' :: target.chars⟩ := by
  simp [join, htarget, hdir]

/-- Joining to the doubled directory gives the doubled joined path. -/
theorem join_doubled (hdir : dir.isAbsolute = true) (htarget : target.isAbsolute = false) :
    dir.doubled.join target = (dir.join target).doubled := by
  have hne : dir.doubled.chars ≠ [] := List.cons_ne_nil _ _
  rw [join_of_relative htarget hne, endsWithSlash_doubled hdir,
    join_of_relative htarget (chars_ne_nil_of_isAbsolute hdir)]
  split <;> rfl

/-- Joining components to the doubled path gives the doubled extended path. -/
theorem extend_doubled (hcs : ∀ c ∈ cs, c.Plain) (h : p.isAbsolute = true) :
    p.doubled.extend cs = (p.extend cs).doubled := by
  unfold extend
  induction cs generalizing p with
  | nil => rfl
  | cons c cs ih =>
    have hc : c.Plain := hcs c List.mem_cons_self
    have htarget := Bool.eq_false_of_not_eq_true (not_isAbsolute_of_plain hc)
    rw [List.foldl_cons, List.foldl_cons, join_doubled h htarget]
    exact ih (fun d hd => hcs d (List.mem_cons_of_mem _ hd)) ((isAbsolute_join hc p).trans h)

/-! ## The directory above -/

/-- An empty piece in front is dropped as well only where nothing else is left. -/
theorem dropIdleEnd_cons_nil (ps : List Name) :
    dropIdleEnd ([] :: ps) = if dropIdleEnd ps = [] then [] else [] :: dropIdleEnd ps := by
  unfold dropIdleEnd
  rw [List.reverse_cons, List.dropWhile_append]
  cases h : ps.reverse.dropWhile isIdle with
  | nil => rfl
  | cons q qs => simp

/-- The parent of an absolute path, in terms of the pieces behind its first slash. -/
theorem parent?_slash (xs : List Char) :
    parent? ⟨'/' :: xs⟩ =
      if dropIdleEnd (pieces xs) = [] then none
      else some ⟨'/' :: ['/'].intercalate (dropIdleEnd (dropIdleEnd (pieces xs)).dropLast)⟩ := by
  rw [parent?, pieces_cons_slash]
  rfl

/-- The directory above keeps the second slash, unless it is the root. -/
theorem parent?_doubled (h : p.isAbsolute = true) :
    p.doubled.parent? = p.parent? ∨
      ∃ dir, p.parent? = some dir ∧ dir.isAbsolute = true ∧
        p.doubled.parent? = some dir.doubled := by
  obtain ⟨xs, hxs⟩ := isAbsolute_iff.mp h
  obtain rfl : p = ⟨'/' :: xs⟩ := by rw [← hxs]
  rw [doubled, parent?_slash, parent?_slash, pieces_cons_slash, dropIdleEnd_cons_nil]
  by_cases hrest : dropIdleEnd (pieces xs) = []
  · left
    rw [if_pos hrest, if_pos hrest, if_pos rfl]
  · rw [if_neg hrest, if_neg hrest, if_neg (List.cons_ne_nil _ _),
      List.dropLast_cons_of_ne_nil hrest, dropIdleEnd_cons_nil]
    split
    · left
      rename_i habove
      rw [habove]
    · right
      rename_i habove
      obtain ⟨first, rest, hcons⟩ := List.exists_cons_of_ne_nil habove
      refine ⟨_, rfl, rfl, ?_⟩
      rw [hcons, List.intercalate_cons_cons]
      rfl

/-! ## What an absolute form keeps -/

/-- The clean spelling, with a slash at its end if the path has one. -/
def tidy (p : Path) : Path :=
  if p.endsWithSlash then p.clean.join empty else p.clean

/-- A clean path stays clean when plain components are joined to it. -/
theorem clean_extend (hcs : ∀ c ∈ cs, c.Plain) (hclean : p.clean = p) :
    (p.extend cs).clean = p.extend cs := by
  rw [clean_eq_extend, isAbsolute_extend hcs, named_extend hcs]
  conv_rhs => rw [← hclean, clean_eq_extend]
  exact List.foldl_append

/-- Joining the empty path writes a slash at the end, unless there is one. -/
theorem chars_join_empty (h : p.chars ≠ []) :
    (p.join empty).chars = if p.endsWithSlash then p.chars else p.chars ++ ['/'] := by
  rw [join_of_relative rfl h]
  split <;> simp [empty]

/-- Joining the empty path names nothing more. -/
theorem named_join_empty (h : p.chars ≠ []) : (p.join empty).named = p.named := by
  unfold named
  rw [chars_join_empty h]
  split
  · rfl
  · rw [pieces_append_slash, List.filterMap_append]
    exact List.append_nil _

/-- After the empty path was joined, the path ends with a slash. -/
theorem endsWithSlash_join_empty (h : p.chars ≠ []) : (p.join empty).endsWithSlash = true := by
  rw [endsWithSlash, chars_join_empty h]
  split
  · rename_i hslash
    exact hslash
  · rw [List.getLast?_concat]
    rfl

/-- Joining the empty path changes nothing where there is a slash at the end. -/
theorem join_empty_of_endsWithSlash (h : p.endsWithSlash = true) : p.join empty = p := by
  have hne : p.chars ≠ [] := by
    intro hnil
    rw [endsWithSlash, hnil] at h
    cases h
  have hchars := chars_join_empty hne
  rw [if_pos h] at hchars
  exact congrArg Path.mk hchars

/-- An absolute form is made from a clean path by adding a slash at its end, at its start,
at both or at neither. -/
theorem exists_clean_of_absolute? (hdir : workingDir.isAbsolute = true)
    (hclean : workingDir.clean = workingDir) (h : p.absolute? workingDir = some q) :
    ∃ r, r.isAbsolute = true ∧ r.clean = r ∧
      let path := if p.endsWithSlash then r.join empty else r
      q = path ∨ q = path.doubled := by
  have hplain : ∀ c ∈ p.named, c.Plain := fun _ hc => plain_of_mem_named hc
  -- The base is a clean path, or that of two slashes.
  obtain ⟨base, habs, hbase, hq⟩ : ∃ base, base.isAbsolute = true ∧ base.clean = base ∧
      ((if p.isAbsolute then p.rootSpelling else workingDir) = base ∨
        (if p.isAbsolute then p.rootSpelling else workingDir) = base.doubled) := by
    split
    · refine ⟨⟨['/']⟩, rfl, by decide, ?_⟩
      unfold rootSpelling
      split
      · exact .inl rfl
      · exact .inr rfl
      · exact .inl rfl
    · exact ⟨workingDir, hdir, hclean, .inl rfl⟩
  have habs' : (base.extend p.named).isAbsolute = true := (isAbsolute_extend hplain base).trans habs
  refine ⟨base.extend p.named, habs', clean_extend hplain hbase, ?_⟩
  unfold absolute? at h
  split at h
  · cases h
  · obtain rfl := Option.some.inj h
    rcases hq with hq | hq
    · left
      rw [hq]
      rfl
    · right
      rw [hq]
      have hextend : base.doubled.extend ((pieces p.chars).filterMap Component.ofPiece?) =
          (base.extend p.named).doubled := extend_doubled hplain habs
      rw [hextend]
      split
      · exact join_doubled habs' rfl
      · rfl

/-- An absolute path and its doubled spelling have one tidy form. -/
theorem tidy_doubled (h : p.isAbsolute = true) : p.doubled.tidy = p.tidy := by
  rw [tidy, tidy, endsWithSlash_doubled h, clean_doubled h]

/-- A clean path is tidy already. -/
theorem tidy_of_clean (hclean : p.clean = p) : p.tidy = p := by
  rw [tidy, hclean]
  split
  · rename_i hslash
    exact join_empty_of_endsWithSlash hslash
  · rfl

/-- A clean absolute path with a slash put behind it is tidy. -/
theorem tidy_join_empty (h : p.isAbsolute = true) (hclean : p.clean = p) :
    (p.join empty).tidy = p.join empty := by
  have hne := chars_ne_nil_of_isAbsolute h
  have hclean' : (p.join empty).clean = p := by
    rw [clean_eq_extend, isAbsolute_join_of_ne_nil hne rfl, named_join_empty hne, ← clean_eq_extend,
      hclean]
  rw [tidy, if_pos (endsWithSlash_join_empty hne), hclean']

/-- Two absolute forms of one path differ in a trailing slash, or in nothing but a second slash
at the start. -/
theorem tidy_congr (h : p.Same q) (hslash : p.endsWithSlash = q.endsWithSlash) :
    p.tidy = q.tidy := by
  rw [tidy, tidy, hslash, clean_congr h]

/-- Without a trailing slash of the path, the absolute form is clean but for a second slash at
the start. -/
theorem absolute?_eq_clean (hdir : workingDir.isAbsolute = true)
    (hclean : workingDir.clean = workingDir) (h : p.absolute? workingDir = some q)
    (hslash : p.endsWithSlash = false) : q = q.clean ∨ q = q.clean.doubled := by
  obtain ⟨r, habs, hr, hq⟩ := exists_clean_of_absolute? hdir hclean h
  simp only [hslash, Bool.false_eq_true, if_false] at hq
  rcases hq with rfl | rfl
  · exact .inl hr.symm
  · right
    rw [clean_doubled habs, hr]

/-! ## Absolute forms of absolute forms -/

/-- An absolute path with one slash at its start, not two or more. -/
structure Single (p : Path) : Prop where
  isAbsolute : p.isAbsolute = true
  no_second : ¬ ['/', '/'] <+: p.chars

/-- A slash at the end does not change how a path begins. -/
theorem Single.join_empty (h : p.Single) : (p.join empty).Single where
  isAbsolute := by
    rw [isAbsolute_join_of_ne_nil (chars_ne_nil_of_isAbsolute h.isAbsolute) rfl, h.isAbsolute]
  no_second := by
    rw [chars_join_empty (chars_ne_nil_of_isAbsolute h.isAbsolute)]
    split
    · exact h.no_second
    · rename_i hslash
      obtain ⟨xs, hxs⟩ := isAbsolute_iff.mp h.isAbsolute
      cases xs with
      | nil => exact absurd (endsWithSlash_iff.mpr ⟨[], hxs⟩) hslash
      | cons d ds =>
        have hsecond := h.no_second
        rw [hxs] at hsecond ⊢
        simpa using hsecond

/-- A component has no slash, and the first one follows that of the root. -/
theorem single_clean (h : p.isAbsolute = true) : p.clean.Single where
  isAbsolute := (isAbsolute_clean p).trans h
  no_second := by
    cases hnamed : p.named with
    | nil =>
      rw [clean_eq_extend, h, hnamed]
      decide
    | cons c cs =>
      have hc : c.Plain := plain_of_mem_named (hnamed ▸ List.mem_cons_self)
      obtain ⟨d, ds, hd⟩ := List.exists_cons_of_ne_nil hc.chars_ne_nil
      have hne : d ≠ '/' := by
        rintro rfl
        exact hc.no_slash (hd ▸ List.mem_cons_self)
      rw [chars_clean (hnamed ▸ List.cons_ne_nil c cs), if_pos h, hnamed, List.map_cons,
        intercalate_cons, hd]
      simpa using hne.symm

/-- The tidy form of an absolute path begins with one slash only. -/
theorem single_tidy (h : p.isAbsolute = true) : p.tidy.Single := by
  unfold tidy
  split
  · exact (single_clean h).join_empty
  · exact single_clean h

/-- A path that begins with one slash keeps one in its absolute form. -/
theorem rootSpelling_single (h : p.Single) : p.rootSpelling = ⟨['/']⟩ := by
  have hsecond := h.no_second
  unfold rootSpelling
  split <;> simp_all

/-- A path that begins with exactly two slashes keeps both in its absolute form. -/
theorem rootSpelling_doubled (h : p.Single) : p.doubled.rootSpelling = ⟨['/', '/']⟩ := by
  obtain ⟨xs, hxs⟩ := isAbsolute_iff.mp h.isAbsolute
  have hsecond := h.no_second
  unfold rootSpelling
  rw [chars_doubled, hxs]
  rw [hxs] at hsecond
  split <;> simp_all

/-- No working directory is needed for a path that is absolute already. -/
theorem absolute?_of_isAbsolute (h : p.isAbsolute = true) (workingDir : Path) :
    p.absolute? workingDir =
      let path := p.rootSpelling.extend p.named
      some (if p.endsWithSlash then path.join empty else path) := by
  rw [absolute?, if_neg (chars_ne_nil_of_isAbsolute h), if_pos h]
  rfl

/-- The absolute form of a path that begins with one slash is its tidy form. -/
theorem absolute?_single (h : p.Single) (workingDir : Path) :
    p.absolute? workingDir = some p.tidy := by
  have hpath : p.rootSpelling.extend p.named = p.clean := by
    rw [rootSpelling_single h, clean_eq_extend, h.isAbsolute]
    rfl
  rw [absolute?_of_isAbsolute h.isAbsolute, hpath]
  rfl

/-- The absolute form of a path that begins with two slashes is the doubled tidy form. -/
theorem absolute?_doubled (h : p.Single) (workingDir : Path) :
    p.doubled.absolute? workingDir = some p.tidy.doubled := by
  have hplain : ∀ c ∈ p.named, c.Plain := fun _ hc => plain_of_mem_named hc
  have hpath : p.doubled.rootSpelling.extend p.doubled.named = p.clean.doubled := by
    rw [rootSpelling_doubled h, named_doubled, clean_eq_extend, h.isAbsolute]
    exact extend_doubled (p := ⟨['/']⟩) hplain rfl
  rw [absolute?_of_isAbsolute (isAbsolute_doubled p), hpath, endsWithSlash_doubled h.isAbsolute,
    tidy]
  dsimp only
  rw [join_doubled ((isAbsolute_clean p).trans h.isAbsolute) rfl]
  split <;> rfl

/-- An absolute path that is clean but for a slash at its end and a second one at its start. -/
structure Settled (p : Path) : Prop where
  isAbsolute : p.isAbsolute = true
  spelled : p = p.tidy ∨ p = p.tidy.doubled

/-- A tidy absolute path is its own absolute form, whichever the working directory. -/
theorem settled_of_tidy (h : p.isAbsolute = true) (htidy : p.tidy = p) : p.Settled :=
  ⟨h, .inl htidy.symm⟩

/-- A doubled tidy path is its own absolute form as well. -/
theorem settled_doubled (h : p.isAbsolute = true) (htidy : p.tidy = p) : p.doubled.Settled :=
  ⟨isAbsolute_doubled p, .inr (by rw [tidy_doubled h, htidy])⟩

/-- A clean absolute path is its own absolute form. -/
theorem settled_of_clean (h : p.isAbsolute = true) (hclean : p.clean = p) : p.Settled :=
  settled_of_tidy h (tidy_of_clean hclean)

/-- Tidying an absolute path twice is tidying it once. -/
theorem tidy_tidy (h : p.isAbsolute = true) : p.tidy.tidy = p.tidy := by
  have hclean : p.clean.isAbsolute = true := (isAbsolute_clean p).trans h
  rw [tidy.eq_1 p]
  split
  · exact tidy_join_empty hclean (clean_clean p)
  · exact tidy_of_clean (clean_clean p)

/-- A settled path is its own absolute form, whatever the working directory is. -/
theorem Settled.absolute? (h : p.Settled) (workingDir : Path) :
    p.absolute? workingDir = some p := by
  have hsingle : p.tidy.Single := single_tidy h.isAbsolute
  have htidy := tidy_tidy h.isAbsolute
  rcases h.spelled with hp | hp
  · rw [hp, absolute?_single hsingle, htidy]
  · rw [hp, absolute?_doubled hsingle, htidy]

/-- A slash at the end makes no difference to what a component is joined to. -/
theorem join_join_empty {c : Component} (hc : c.Plain) (h : p.chars ≠ []) :
    (p.join empty).join ⟨c.chars⟩ = p.join ⟨c.chars⟩ := by
  have hrelative := Bool.eq_false_of_not_eq_true (not_isAbsolute_of_plain hc)
  have hchars := chars_join_empty h
  have hne : (p.join empty).chars ≠ [] := by
    rw [hchars]
    split <;> simp [h]
  rw [join_of_relative hrelative hne, if_pos (endsWithSlash_join_empty h), hchars,
    join_of_relative hrelative h]
  split <;> simp

/-- The slash at the end of a path is lost when the path is extended. -/
theorem tidy_extend_tidy (hcs : ∀ c ∈ cs, c.Plain) (h : p.isAbsolute = true) :
    (p.tidy.extend cs).tidy = p.tidy.extend cs := by
  cases cs with
  | nil => exact tidy_tidy h
  | cons c cs =>
    have hclean : p.clean.isAbsolute = true := (isAbsolute_clean p).trans h
    have hfirst : p.tidy.join ⟨c.chars⟩ = p.clean.join ⟨c.chars⟩ := by
      unfold tidy
      split
      · exact join_join_empty (hcs c List.mem_cons_self) (chars_ne_nil_of_isAbsolute hclean)
      · rfl
    have hextend : p.tidy.extend (c :: cs) = p.clean.extend (c :: cs) :=
      congrArg (·.extend cs) hfirst
    rw [hextend]
    exact tidy_of_clean (clean_extend hcs (clean_clean p))

/-- A tidy path with a slash put behind it is tidy. -/
theorem tidy_join_tidy (h : p.isAbsolute = true) :
    (p.tidy.join empty).tidy = p.tidy.join empty := by
  have hclean : p.clean.isAbsolute = true := (isAbsolute_clean p).trans h
  have hjoin : p.tidy.join empty = p.clean.join empty := by
    unfold tidy
    split
    · exact join_empty_of_endsWithSlash
        (endsWithSlash_join_empty (chars_ne_nil_of_isAbsolute hclean))
    · rfl
  rw [hjoin]
  exact tidy_join_empty hclean (clean_clean p)

/-- A path that is its own absolute form stays so when plain components are joined to it. -/
theorem Settled.extend (h : p.Settled) (hcs : ∀ c ∈ cs, c.Plain) : (p.extend cs).Settled := by
  have habs : p.tidy.isAbsolute = true := (single_tidy h.isAbsolute).isAbsolute
  have hextend : (p.tidy.extend cs).isAbsolute = true := (isAbsolute_extend hcs p.tidy).trans habs
  rcases h.spelled with hp | hp
  · rw [hp]
    exact settled_of_tidy hextend (tidy_extend_tidy hcs h.isAbsolute)
  · rw [hp, extend_doubled hcs habs]
    exact settled_doubled hextend (tidy_extend_tidy hcs h.isAbsolute)

/-- A path that is its own absolute form stays so with a slash put behind it. -/
theorem Settled.join_empty (h : p.Settled) : (p.join empty).Settled := by
  have habs : p.tidy.isAbsolute = true := (single_tidy h.isAbsolute).isAbsolute
  have hjoin : (p.tidy.join empty).isAbsolute = true := by
    rw [isAbsolute_join_of_ne_nil (chars_ne_nil_of_isAbsolute habs) rfl, habs]
  rcases h.spelled with hp | hp
  · rw [hp]
    exact settled_of_tidy hjoin (tidy_join_tidy h.isAbsolute)
  · rw [hp, join_doubled habs rfl]
    exact settled_doubled hjoin (tidy_join_tidy h.isAbsolute)

/-- Absolute forms are settled, if the working directory is. -/
theorem settled_of_absolute? (hdir : workingDir.Settled) (h : p.absolute? workingDir = some q) :
    q.Settled := by
  have hplain : ∀ c ∈ p.named, c.Plain := fun _ hc => plain_of_mem_named hc
  have hroot : p.rootSpelling.Settled := by
    unfold rootSpelling
    split
    · exact ⟨rfl, by decide⟩
    · exact ⟨rfl, by decide⟩
    · exact ⟨rfl, by decide⟩
  have hbase : (if p.isAbsolute then p.rootSpelling else workingDir).Settled := by
    split
    · exact hroot
    · exact hdir
  have hpath := hbase.extend hplain
  unfold absolute? at h
  split at h
  · cases h
  · obtain rfl := Option.some.inj h
    split
    · exact hpath.join_empty
    · exact hpath

/-- An absolute form is clean but for a trailing slash and a second slash at the start. -/
theorem absolute?_eq_tidy (hdir : workingDir.isAbsolute = true)
    (hclean : workingDir.clean = workingDir) (h : p.absolute? workingDir = some q) :
    q.tidy.isAbsolute = true ∧ (q = q.tidy ∨ q = q.tidy.doubled) := by
  have hsettled := settled_of_absolute? (settled_of_clean hdir hclean) h
  exact ⟨(single_tidy hsettled.isAbsolute).isAbsolute, hsettled.spelled⟩

end Path

namespace FileTree

/-- A second slash at the start does not change where a path leads. -/
theorem find_doubled {t : FileTree} {p : Path} (h : p.isAbsolute = true)
    (hshort : Path.byteSize p.doubled.chars < Path.byteLimit) : t.find p.doubled = t.find p := by
  have hsize : Path.byteSize p.doubled.chars = 1 + Path.byteSize p.chars := rfl
  have hrefusal : p.doubled.refusal? = p.refusal? := by
    have hlong : ¬ Path.byteLimit ≤ Path.byteSize p.doubled.chars := by omega
    have hlong' : ¬ Path.byteLimit ≤ Path.byteSize p.chars := by omega
    have hnul : '\x00' ∈ p.doubled.chars ↔ '\x00' ∈ p.chars := by simp
    have hne := Path.chars_ne_nil_of_isAbsolute h
    have hne' : p.doubled.chars ≠ [] := List.cons_ne_nil _ _
    unfold Path.refusal?
    rw [if_neg hlong, if_neg hlong', if_neg hne, if_neg hne']
    simp only [hnul]
  have horigin : origin t.workingDir p.doubled = origin t.workingDir p := by
    rw [origin, origin, h, Path.isAbsolute_doubled]
  unfold find walk
  rw [hrefusal, horigin, Path.lookupSteps_doubled h]

end FileTree

end Recompile
