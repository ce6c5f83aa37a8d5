import Recompile.Proofs.FileTree.Asked
import Recompile.Proofs.Path.Steps

/-!
# Reading a file under two spellings

Two spellings of one path differ in repeated slashes, in `.` steps and in slashes at the
end. An access may fail under one of them alone, since a `.` step at the end asks for a
directory and a long spelling may be too long. But where a file can be read under both,
it is the same file (`FileTree.read_unique`): a `.` step before the last one leaves the
look-up where it is. And what is a file is one under the clean spelling
(`FileTree.isFile_clean`), which asks for nothing more.
-/

set_option autoImplicit false

namespace Recompile

namespace Path

variable {p q : Path}

/-- Steps without the `.` steps among them. -/
def withoutDots (steps : List Name) : List Name :=
  steps.filter (· ≠ ['.'])

/-- No steps are no steps without their dots. -/
@[simp] theorem withoutDots_nil : withoutDots [] = [] :=
  rfl

/-- A `.` step in front is left out. -/
@[simp] theorem withoutDots_dot (steps : List Name) :
    withoutDots (['.'] :: steps) = withoutDots steps := by
  simp [withoutDots]

/-- Any other step in front is kept. -/
theorem withoutDots_cons {n : Name} (h : n ≠ ['.']) (steps : List Name) :
    withoutDots (n :: steps) = n :: withoutDots steps := by
  simp [withoutDots, h]

/-- Leaving out the dots of two lists in a row is leaving out those of each. -/
theorem withoutDots_append (xs ys : List Name) :
    withoutDots (xs ++ ys) = withoutDots xs ++ withoutDots ys :=
  List.filter_append ..

/-- Leaving out the dots twice is leaving them out once. -/
theorem withoutDots_withoutDots (steps : List Name) :
    withoutDots (withoutDots steps) = withoutDots steps := by
  simp [withoutDots]

/-- A step that is left out does not count if the same steps that count are left. -/
theorem dot_of_left_out {n : Name} {xs ys : List Name} (hsub : List.Sublist ys xs)
    (hsame : withoutDots ys = withoutDots (n :: xs)) : n = ['.'] := by
  by_contra hdot
  rw [withoutDots_cons hdot] at hsame
  have hlength : (withoutDots ys).length ≤ (withoutDots xs).length := (hsub.filter _).length_le
  rw [hsame, List.length_cons] at hlength
  omega

/-- The pieces that are neither empty nor dots are those that are not idle. -/
theorem withoutDots_filter (ps : List Name) :
    withoutDots (ps.filter (· ≠ [])) = ps.filter fun piece => !isIdle piece := by
  unfold withoutDots
  rw [List.filter_filter]
  refine List.filter_congr fun piece _ => ?_
  simp [isIdle, Bool.and_comm]

/-- The steps of a path that count are spelled by its components. -/
theorem withoutDots_steps (p : Path) : withoutDots p.steps = p.named.map Component.chars := by
  rw [map_chars_named, steps, withoutDots_filter]

/-- The parent of a path has all the steps that count, or all but the last of them. -/
theorem length_withoutDots_of_parent? {above : Path} (h : p.parent? = some above) :
    (withoutDots p.steps).length ≤ (withoutDots above.steps).length + 1 := by
  obtain ⟨-, initial, -, hsteps, hcount⟩ := exists_pieces_of_parent? h
  rw [hsteps, steps, withoutDots_filter, withoutDots_filter]
  exact hcount

/-- The parent of a path has the components of the path, or all but the last of them. -/
theorem named_of_parent? {above : Path} (h : p.parent? = some above) :
    above.named.map Component.chars <+: p.named.map Component.chars ∧
      (p.named.map Component.chars).length ≤ (above.named.map Component.chars).length + 1 := by
  rw [← withoutDots_steps, ← withoutDots_steps]
  exact ⟨(steps_of_parent? h).2.filter _, length_withoutDots_of_parent? h⟩

/-- A look-up has the steps of the path and perhaps `.` steps. -/
theorem withoutDots_lookupSteps (p : Path) : withoutDots p.lookupSteps = withoutDots p.steps := by
  unfold lookupSteps
  split
  · simp [withoutDots_append]
  · rfl

/-- Paths that are the same start at the same place and go by the same components. -/
theorem Same.named_eq (h : p.Same q) : p.isAbsolute = q.isAbsolute ∧ p.named = q.named := by
  have hfilter := congrArg (List.filter (· ≠ .current)) (show p.components = q.components from h)
  rw [filter_components, filter_components] at hfilter
  -- No piece spells the root, so it stands in front of both or of neither.
  have hroot : ∀ r : Path, Component.root ∉ r.named :=
    fun r hr => (plain_of_mem_named hr).ne_root rfl
  by_cases hp : p.isAbsolute = true <;> by_cases hq : q.isAbsolute = true
  · rw [if_pos hp, if_pos hq] at hfilter
    exact ⟨hp.trans hq.symm, List.tail_eq_of_cons_eq hfilter⟩
  · rw [if_pos hp, if_neg hq] at hfilter
    exact absurd (hfilter ▸ List.mem_cons_self) (hroot q)
  · rw [if_neg hp, if_pos hq] at hfilter
    exact absurd (hfilter ▸ List.mem_cons_self) (hroot p)
  · rw [if_neg hp, if_neg hq] at hfilter
    rw [Bool.not_eq_true] at hp hq
    exact ⟨hp.trans hq.symm, hfilter⟩

/-- The look-ups of two spellings of one path have the same steps but for `.` steps. -/
theorem Same.withoutDots_lookupSteps (h : p.Same q) :
    withoutDots p.lookupSteps = withoutDots q.lookupSteps := by
  rw [Path.withoutDots_lookupSteps, Path.withoutDots_lookupSteps, withoutDots_steps,
    withoutDots_steps, h.named_eq.2]

end Path

namespace FileTree

open Recompile.Path (withoutDots)

variable {t : FileTree} {p q : Path}

/-- Following `.` steps alone stays in the directory. -/
theorem advance_of_withoutDots_nil {last : Bool} {dir : Location} {steps : List Name}
    (h : withoutDots steps = []) : t.advance last dir steps = .inside dir := by
  induction steps with
  | nil => exact advance_nil
  | cons n rest ih =>
    by_cases hdot : n = ['.']
    · subst hdot
      rw [advance_dot]
      exact ih (by simpa using h)
    · rw [Path.withoutDots_cons hdot] at h
      exact absurd h (by simp)

/-! ## Fewer `.` steps -/

/-- Where the last name is reached or a link is met, that is so with fewer `.` steps as
well: a `.` step leads nowhere, but it asks for a directory. -/
theorem advance_of_sublist (t : FileTree) (dir : Location) {xs ys : List Name}
    (hsub : List.Sublist ys xs) (hsame : withoutDots ys = withoutDots xs) :
    (∀ d n, t.advance true dir xs = .before d n → t.advance true dir ys = .before d n) ∧
    ∀ d target rest, t.advance true dir xs = .link d target rest →
      ∃ rest', t.advance true dir ys = .link d target rest' ∧ List.Sublist rest' rest ∧
        withoutDots rest' = withoutDots rest := by
  induction hsub generalizing dir with
  | slnil => simp
  | @cons ys xs n hsub ih =>
    obtain rfl : n = ['.'] := Path.dot_of_left_out hsub hsame
    rw [advance_dot]
    exact ih _ (by simpa using hsame)
  | @cons_cons ys xs n hsub ih =>
    rcases step_cases n with rfl | rfl | hn
    · rw [advance_dot, advance_dot]
      exact ih _ (by simpa using hsame)
    · rw [Path.withoutDots_cons (by decide), Path.withoutDots_cons (by decide)] at hsame
      rw [advance_up, advance_up]
      exact ih _ (List.tail_eq_of_cons_eq hsame)
    · rw [Path.withoutDots_cons hn.ne_dot, Path.withoutDots_cons hn.ne_dot] at hsame
      have hrest : withoutDots ys = withoutDots xs := List.tail_eq_of_cons_eq hsame
      have hway := t.way_advance true dir (n :: xs)
      generalize t.advance true dir (n :: xs) = halt at hway ⊢
      cases hway with
      | dot => exact absurd rfl hn.ne_dot
      | up => exact absurd rfl hn.ne_up
      | long | missing | blocked => simp
      | stops _ hshort hnot =>
        obtain rfl : ys = [] := List.sublist_nil.mp hsub
        refine ⟨fun d m h => ?_, by simp⟩
        rw [← h]
        exact advance_single_of_not_link hn hshort hnot
      | link _ hshort _ hentry =>
        refine ⟨by simp, fun d target rest h => ?_⟩
        cases h
        exact ⟨ys, advance_link hn hshort (fun _ => rfl) hentry, hsub, hrest⟩
      | down _ hshort _ hentry honward =>
        by_cases hys : ys = []
        · -- Only `.` steps came after the name.
          have hdots : withoutDots xs = [] := by rw [← hrest, hys, Path.withoutDots_nil]
          rw [← honward.advance_eq, advance_of_withoutDots_nil hdots]
          simp
        · rw [← honward.advance_eq, advance_down hn hshort hys hentry]
          exact ih _ hrest

/-- Where the last name is reached or a link is met, `.` steps do not matter. -/
theorem advance_withoutDots (t : FileTree) (dir : Location) (steps : List Name) :
    (∀ d n, t.advance true dir steps = .before d n →
      t.advance true dir (withoutDots steps) = .before d n) ∧
    ∀ d target rest, t.advance true dir steps = .link d target rest →
      ∃ rest', t.advance true dir (withoutDots steps) = .link d target rest' ∧
        withoutDots rest' = withoutDots rest := by
  obtain ⟨hbefore, hlink⟩ :=
    advance_of_sublist t dir List.filter_sublist (Path.withoutDots_withoutDots steps)
  refine ⟨hbefore, fun d target rest h => ?_⟩
  obtain ⟨rest', hadv, -, hsame⟩ := hlink d target rest h
  exact ⟨rest', hadv, hsame⟩

/-- Two ways that differ in `.` steps come to the same last name, if both come to one. -/
theorem follow_unique {links : Nat} {dir : Location} {xs ys : List Name} {d d' : Location}
    {n n' : Name} (hsteps : withoutDots xs = withoutDots ys)
    (hx : t.follow true links dir xs = .before d n)
    (hy : t.follow true links dir ys = .before d' n') : d = d' ∧ n = n' := by
  induction links using Nat.strong_induction_on generalizing dir xs ys with
  | _ links ih =>
    obtain ⟨hbefore, hlink⟩ := t.advance_withoutDots dir xs
    obtain ⟨hbefore', hlink'⟩ := t.advance_withoutDots dir ys
    rw [← hsteps] at hbefore' hlink'
    rcases follow_eq_before hx with hax | ⟨l, e, target, rest, rfl, hax, hx⟩ <;>
      rcases follow_eq_before hy with hay | ⟨l', e', target', rest', hl, hay, hy⟩
    · cases (hbefore d n hax).symm.trans (hbefore' d' n' hay)
      exact ⟨rfl, rfl⟩
    · obtain ⟨r, hr, -⟩ := hlink' e' target' rest' hay
      cases (hbefore d n hax).symm.trans hr
    · obtain ⟨r, hr, -⟩ := hlink e target rest hax
      cases hr.symm.trans (hbefore' d' n' hay)
    · obtain ⟨r, hr, hsame⟩ := hlink e target rest hax
      obtain ⟨r', hr', hsame'⟩ := hlink' e' target' rest' hay
      obtain ⟨rfl, rfl, rfl⟩ := Halt.link.inj (hr.symm.trans hr')
      obtain rfl := Nat.succ.inj hl
      refine ih l (Nat.lt_succ_self l) ?_ hx hy
      rw [Path.withoutDots_append, Path.withoutDots_append, ← hsame, ← hsame']

/-- A file that can be read under two spellings of its path has the same bytes under
both. -/
theorem read_unique {bytes bytes' : List UInt8} (h : p.Same q) (hp : t.read p = .ok bytes)
    (hq : t.read q = .ok bytes') : bytes = bytes' := by
  obtain ⟨d, n, hwalk, hentry⟩ := walk_of_read hp
  obtain ⟨d', n', hwalk', hentry'⟩ := walk_of_read hq
  have hfollow := follow_of_walk hwalk
  have hfollow' := follow_of_walk hwalk'
  have horigin : origin t.workingDir q = origin t.workingDir p := by
    unfold origin
    rw [h.named_eq.1]
  rw [horigin] at hfollow'
  obtain ⟨rfl, rfl⟩ := follow_unique h.withoutDots_lookupSteps hfollow hfollow'
  exact Entry.file.inj (Option.some.inj (hentry.symm.trans hentry'))

/-! ## The clean spelling -/

/-- Leaving out `.` steps keeps a way that halts before a name. -/
theorem follow_of_sublist {links : Nat} {dir d : Location} {n : Name} {xs ys : List Name}
    (hsub : List.Sublist ys xs) (hsame : withoutDots ys = withoutDots xs)
    (h : t.follow true links dir xs = .before d n) :
    t.follow true links dir ys = .before d n := by
  induction links using Nat.strong_induction_on generalizing dir xs ys with
  | _ links ih =>
    obtain ⟨hbefore, hlink⟩ := advance_of_sublist t dir hsub hsame
    rcases follow_eq_before h with hadv | ⟨links', e, target, rest, rfl, hadv, hrest⟩
    · have hadv' := hbefore d n hadv
      rw [follow_of_advance (by simp [hadv']), hadv']
    · obtain ⟨rest', hadv', hsub', hsame'⟩ := hlink e target rest hadv
      rw [follow_succ_of_link hadv']
      apply ih links' (Nat.lt_succ_self links') (hsub'.append_left _) _ hrest
      rw [Path.withoutDots_append, Path.withoutDots_append, hsame']

/-- A path that can be read has a component that counts. -/
theorem named_ne_nil_of_follow {d : Location} {n : Name} {links : Nat} {dir : Location}
    (h : t.follow true links dir p.lookupSteps = .before d n) : p.named ≠ [] := by
  intro hnil
  have hdots : withoutDots p.lookupSteps = [] := by
    rw [Path.withoutDots_lookupSteps, Path.withoutDots_steps, hnil]
    rfl
  have hinside : t.advance true dir p.lookupSteps = .inside dir :=
    advance_of_withoutDots_nil hdots
  rw [follow_of_advance (by simp [hinside]), hinside] at h
  cases h

/-- A path and its clean spelling start at the same directory. -/
theorem origin_clean (dir : Location) (p : Path) : origin dir p.clean = origin dir p := by
  unfold origin
  rw [Path.isAbsolute_clean]

/-- The clean spelling is looked up by the steps that count. -/
theorem lookupSteps_clean_eq (hne : p.named ≠ []) :
    p.clean.lookupSteps = withoutDots p.lookupSteps := by
  rw [Path.lookupSteps_clean hne, Path.withoutDots_lookupSteps, Path.withoutDots_steps]

/-- The clean spelling of a path comes to the last name to which the path comes. -/
theorem follow_clean {d : Location} {n : Name}
    (h : t.follow true linkLimit (origin t.workingDir p) p.lookupSteps = .before d n) :
    t.follow true linkLimit (origin t.workingDir p.clean) p.clean.lookupSteps = .before d n := by
  rw [origin_clean, lookupSteps_clean_eq (named_ne_nil_of_follow h)]
  exact follow_of_sublist List.filter_sublist (Path.withoutDots_withoutDots _) h

/-- A file is found under its clean spelling. -/
theorem isFile_clean (h : t.isFile p = true) : t.isFile p.clean = true := by
  obtain ⟨hrefusal, d, n, entry, hfollow, hentry, hkind⟩ := isFile_eq_true_iff.mp h
  have hfits := Path.refusal?_clean (named_ne_nil_of_follow hfollow) hrefusal
  exact isFile_eq_true_iff.mpr ⟨hfits, d, n, entry, follow_clean hfollow, hentry, hkind⟩

end FileTree

end Recompile
