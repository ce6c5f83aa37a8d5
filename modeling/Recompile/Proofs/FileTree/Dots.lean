import Recompile.Proofs.FileTree.Growth
import Recompile.Proofs.FileTree.Shape

/-!
# Files behind `.` steps

A `.` step asks for a directory and leads nowhere. At the end of a path it keeps a file from
being found (`FileTree.follow_append_dot_ne_before`). Before the last step it does no harm:
the steps before it have to lead into a directory anyhow. So a path that does not end with a
`.` step leads to the file to which its clean spelling leads, in every tree that has one there
(`FileTree.isFile_of_isFile_clean`). That the path does not end so is known as soon as it
leads to a file in any tree.
-/

set_option autoImplicit false

namespace Recompile.FileTree

open Recompile.Path (withoutDots)

variable {t t' : FileTree} {links : Nat} {dir d : Location} {n : Name} {steps xs ys : List Name}
  {p : Path}

/-! ## At the end -/

/-- Behind a `.` step no name is come to. -/
theorem advance_append_dot_ne_before (dir : Location) (steps : List Name) {d : Location} :
    t.advance true dir (steps ++ [['.']]) ≠ .before d n := by
  rw [advance_append_self]
  cases hadv : t.advance false dir steps with
  | inside e => simp [Halt.resume]
  | link | failed => simp [Halt.resume]
  | before e m =>
    obtain ⟨hm, hshort, -⟩ := stops_of_advance hadv
    rw [Halt.resume, advance_name_dots t e hm hshort rfl]
    split <;> simp

/-- Steps that end with `.` do not halt before a name, since they ask for a directory. -/
theorem follow_append_dot_ne_before {d : Location} :
    t.follow true links dir (steps ++ [['.']]) ≠ .before d n := by
  induction links generalizing dir steps with
  | zero =>
    intro h
    rcases follow_eq_before h with hadv | ⟨_, _, _, _, hzero, -⟩
    · exact advance_append_dot_ne_before dir steps hadv
    · cases hzero
  | succ links ih =>
    intro h
    rcases follow_eq_before h with hadv | ⟨links', e, target, rest, hsucc, hadv, hrest⟩
    · exact advance_append_dot_ne_before dir steps hadv
    · cases hsucc
      obtain ⟨rest', rfl⟩ : ∃ rest', rest = rest' ++ [['.']] := by
        rw [advance_append_self] at hadv
        cases hhalt : t.advance false dir steps with
        | inside d' => simp [hhalt, Halt.resume] at hadv
        | failed e' => simp [hhalt, Halt.resume] at hadv
        | link d' target' rest' =>
          rw [hhalt] at hadv
          cases hadv
          exact ⟨rest', rfl⟩
        | before d' m =>
          obtain ⟨hm, hshort, -⟩ := stops_of_advance hhalt
          rw [hhalt, Halt.resume, advance_name_dots t d' hm hshort rfl] at hadv
          split at hadv <;> cases hadv
          exact ⟨[], rfl⟩
      rw [← List.append_assoc] at hrest
      exact ih hrest

/-- Steps that come to a name after others go on from the directory to which the others
lead. -/
theorem exists_inside_of_append (hne : ys ≠ [])
    (h : t.advance true dir (xs ++ ys) = .before d n) :
    ∃ D, t.advance true dir (xs ++ [['.']]) = .inside D ∧ t.advance true D ys = .before d n := by
  rw [advance_append_self] at h
  rw [advance_append_self]
  cases hadv : t.advance false dir xs with
  | inside D =>
    rw [hadv] at h
    exact ⟨D, by simp [Halt.resume], h⟩
  | link | failed =>
    rw [hadv] at h
    cases h
  | before e m =>
    obtain ⟨hm, hshort, -⟩ := stops_of_advance hadv
    rw [hadv, Halt.resume] at h
    rw [Halt.resume, advance_name_dots t e hm hshort rfl]
    have hway := t.way_advance true e (m :: ys)
    rw [h] at hway
    cases hway with
    | dot => exact absurd rfl hm.ne_dot
    | up => exact absurd rfl hm.ne_up
    | stops => exact absurd rfl hne
    | down _ _ _ hentry honward =>
      rw [hentry]
      exact ⟨m :: e, rfl, honward.advance_eq⟩

/-! ## Before the last step -/

/-- Steps with more `.` steps than others, but with none at the end, unless they are the
same. -/
structure Dotted (ys xs : List Name) : Prop where
  sublist : List.Sublist ys xs
  same : withoutDots ys = withoutDots xs
  last : ys = xs ∨ xs.getLast? ≠ some ['.']

namespace Dotted

/-- The same steps in front keep the relation. -/
theorem append_left (h : Dotted ys xs) (zs : List Name) : Dotted (zs ++ ys) (zs ++ xs) := by
  refine ⟨h.sublist.append_left zs, ?_, ?_⟩
  · rw [Path.withoutDots_append, Path.withoutDots_append, h.same]
  · rcases h.last with rfl | hlast
    · exact .inl rfl
    · by_cases hnil : xs = []
      · subst hnil
        rw [List.sublist_nil.mp h.sublist]
        exact .inl rfl
      · right
        rwa [List.getLast?_append_of_ne_nil zs hnil]

/-- Steps that count are left out by no `.` step. -/
theorem ne_nil (h : withoutDots ys = withoutDots xs) (hne : xs ≠ [])
    (hlast : xs.getLast? ≠ some ['.']) : ys ≠ [] := by
  rintro rfl
  have hdots := List.filter_eq_nil_iff.mp h.symm _ (List.getLast_mem hne)
  rw [List.getLast?_eq_some_getLast hne] at hlast
  exact hlast (congrArg some (by simpa using hdots))

end Dotted

/-- Where a last name is come to or a link is met, that is so with more `.` steps as well,
as long as none of them is the last step. -/
theorem advance_of_dotted (t : FileTree) (dir : Location) (hsub : List.Sublist ys xs)
    (hsame : withoutDots ys = withoutDots xs) (hlast : xs.getLast? ≠ some ['.']) :
    (∀ d n, t.advance true dir ys = .before d n → t.advance true dir xs = .before d n) ∧
    ∀ d target rest, t.advance true dir ys = .link d target rest →
      ∃ rest', t.advance true dir xs = .link d target rest' ∧ Dotted rest rest' := by
  induction hsub generalizing dir with
  | slnil => simp
  | @cons ys xs n hsub ih =>
    obtain rfl : n = ['.'] := Path.dot_of_left_out hsub hsame
    have hxs : xs ≠ [] := by
      rintro rfl
      exact hlast rfl
    rw [advance_dot]
    apply ih
    · simpa using hsame
    · rwa [List.getLast?_cons_of_ne_nil hxs] at hlast
  | @cons_cons ys xs n hsub ih =>
    by_cases hxs : xs = []
    · subst hxs
      obtain rfl : ys = [] := List.sublist_nil.mp hsub
      exact ⟨fun _ _ h => h, fun _ _ rest h => ⟨rest, h, .refl rest, rfl, .inl rfl⟩⟩
    · have hlast' : xs.getLast? ≠ some ['.'] := by
        rwa [List.getLast?_cons_of_ne_nil hxs] at hlast
      have hsame' : withoutDots ys = withoutDots xs := by
        by_cases hdot : n = ['.']
        · subst hdot
          simpa using hsame
        · rw [Path.withoutDots_cons hdot, Path.withoutDots_cons hdot] at hsame
          exact List.tail_eq_of_cons_eq hsame
      have hys : ys ≠ [] := Dotted.ne_nil hsame' hxs hlast'
      rcases step_cases n with rfl | rfl | hn
      · rw [advance_dot, advance_dot]
        exact ih _ hsame' hlast'
      · rw [advance_up, advance_up]
        exact ih _ hsame' hlast'
      · have hway := t.way_advance true dir (n :: ys)
        generalize t.advance true dir (n :: ys) = halt at hway ⊢
        cases hway with
        | dot => exact absurd rfl hn.ne_dot
        | up => exact absurd rfl hn.ne_up
        | stops => exact absurd rfl hys
        | long | missing | blocked => simp
        | link _ hshort _ hentry =>
          refine ⟨by simp, fun d target rest h => ?_⟩
          cases h
          exact ⟨xs, advance_link hn hshort (fun _ => rfl) hentry, hsub, hsame', .inr hlast'⟩
        | down _ hshort _ hentry honward =>
          rw [← honward.advance_eq, advance_down hn hshort hxs hentry]
          exact ih _ hsame' hlast'

/-- Steps with more `.` steps halt before the name at which the others halt. -/
theorem follow_of_dotted (hdotted : Dotted ys xs)
    (h : t.follow true links dir ys = .before d n) : t.follow true links dir xs = .before d n := by
  induction links using Nat.strong_induction_on generalizing dir xs ys with
  | _ links ih =>
    cases hdotted.last with
    | inl heq => exact heq ▸ h
    | inr hlast =>
      obtain ⟨hbefore, hlink⟩ := advance_of_dotted t dir hdotted.sublist hdotted.same hlast
      rcases follow_eq_before h with hadv | ⟨links', e, target, rest, rfl, hadv, hrest⟩
      · have hadv' := hbefore d n hadv
        rw [follow_of_advance (by simp [hadv']), hadv']
      · obtain ⟨rest', hadv', hdotted'⟩ := hlink e target rest hadv
        rw [follow_succ_of_link hadv']
        exact ih links' (Nat.lt_succ_self links') (hdotted'.append_left _) hrest

/-- The steps of a path that leads to a file do not end with a `.` step. -/
theorem dotted_lookupSteps (h : t.follow true links dir p.lookupSteps = .before d n) :
    Dotted (withoutDots p.lookupSteps) p.lookupSteps := by
  refine ⟨List.filter_sublist, Path.withoutDots_withoutDots _, .inr fun hlast => ?_⟩
  obtain ⟨init, hinit⟩ := List.getLast?_eq_some_iff.mp hlast
  rw [hinit] at h
  exact follow_append_dot_ne_before h

/-- A path that leads to a file has a name. -/
theorem named_ne_nil_of_isFile (h : t.isFile p = true) : p.named ≠ [] := by
  obtain ⟨-, d, n, -, hfollow, -⟩ := isFile_eq_true_iff.mp h
  exact named_ne_nil_of_follow hfollow

/-- A path that leads to a file in some tree does so wherever its clean spelling does. -/
theorem isFile_of_isFile_clean (h : t'.isFile p = true) (hclean : t.isFile p.clean = true) :
    t.isFile p = true := by
  obtain ⟨hrefusal, d', n', -, hfollow', -⟩ := isFile_eq_true_iff.mp h
  obtain ⟨-, d, n, entry, hfollow, hentry, hkind⟩ := isFile_eq_true_iff.mp hclean
  rw [origin_clean, lookupSteps_clean_eq (named_ne_nil_of_follow hfollow')] at hfollow
  exact isFile_eq_true_iff.mpr ⟨hrefusal, d, n, entry,
    follow_of_dotted (dotted_lookupSteps hfollow') hfollow, hentry, hkind⟩

end Recompile.FileTree
