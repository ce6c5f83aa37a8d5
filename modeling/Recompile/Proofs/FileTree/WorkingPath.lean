import Recompile.Proofs.FileTree.Growth
import Recompile.Proofs.Path.Doubled

/-!
# The path of the working directory

Every tree can say where it is: the path of its working directory is clean
(`FileTree.workingPath_clean`), it spells the names from the root down to that directory, and
these names lead there (`FileTree.advance_reverse`). So a relative path, written out behind it,
is looked up as it is from the working directory (`FileTree.follow_written_out`). Only the
length of the path can be in the way.
-/

set_option autoImplicit false

namespace Recompile

namespace Path

variable {n : Name} {dir target : Path}

/-- A proper name is a component of a path. -/
theorem IsProper.plain (h : IsProper n) : (Component.name n).Plain := by
  obtain ⟨hnil, hdot, hup, hslash, -⟩ := h
  refine ⟨?_, hslash⟩
  show Component.ofPiece? n = some (.name n)
  unfold Component.ofPiece?
  split
  · exact absurd rfl hnil
  · exact absurd rfl hdot
  · exact absurd rfl hup
  · rfl

/-- A proper name is a name. -/
theorem IsProper.isName (h : IsProper n) : FileTree.IsName n :=
  ⟨h.2.1, h.2.2.1⟩

/-- A proper name is not too long. -/
theorem IsProper.not_long (h : IsProper n) : ¬ nameByteLimit < byteSize n :=
  Nat.not_lt_of_le h.2.2.2.2.2

/-- A proper name has no zero byte. -/
theorem IsProper.nul_not_mem (h : IsProper n) : '\x00' ∉ n :=
  h.2.2.2.2.1

/-- A relative path written out behind an absolute one has the steps of both. -/
theorem steps_join_of_relative (hdir : dir.chars ≠ []) (htarget : target.isAbsolute = false) :
    (dir.join target).steps = dir.steps ++ target.steps := by
  rw [join_of_relative htarget hdir]
  unfold steps
  split
  · rename_i hends
    obtain ⟨xs, hxs⟩ := endsWithSlash_iff.mp hends
    rw [hxs, List.append_assoc, List.singleton_append, pieces_append_slash, pieces_append_slash]
    simp [pieces]
  · rw [pieces_append_slash, List.filter_append]

end Path

namespace FileTree

variable {t : FileTree} {last : Bool} {links : Nat} {dir : Location} {extra : List Name}
  {p : Path} {name : Name}

/-- The path of a location goes on from the root by its names. -/
theorem pathOf_eq_extend (hproper : ∀ n ∈ dir, Path.IsProper n) :
    pathOf dir = Path.extend ⟨['/']⟩ (dir.reverse.map .name) := by
  have hplain : ∀ c ∈ dir.reverse.map Path.Component.name, c.Plain := by
    intro c hc
    obtain ⟨n, hn, rfl⟩ := List.mem_map.mp hc
    exact (hproper n (List.mem_reverse.mp hn)).plain
  unfold pathOf
  cases hnames : dir.reverse with
  | nil => rfl
  | cons n names =>
    rw [hnames] at hplain
    have hn : (Path.Component.name n).Plain := hplain _ List.mem_cons_self
    have hfirst : (Path.join ⟨['/']⟩ ⟨n⟩).chars = ['/'] ++ (Path.Component.name n).chars := by
      have hrelative : (⟨n⟩ : Path).isAbsolute = false :=
        Bool.eq_false_of_not_eq_true (Path.not_isAbsolute_of_plain hn)
      have hends : (⟨['/']⟩ : Path).endsWithSlash = true := rfl
      rw [Path.join_of_relative hrelative (List.cons_ne_nil _ _), if_pos hends]
      rfl
    have hchars : (Path.extend ⟨['/']⟩ ((n :: names).map .name)).chars =
        '/' :: ['/'].intercalate (n :: names) := by
      show ((Path.join ⟨['/']⟩ ⟨n⟩).extend (names.map .name)).chars = _
      rw [Path.chars_extend (fun c hc => hplain c (List.mem_cons_of_mem _ hc)) _
        (Path.not_endsWithSlash_of_plain hn hfirst), hfirst, Path.intercalate_cons,
        List.flatMap_map]
      · rfl
      · rw [hfirst]
        simp
    exact congrArg Path.mk hchars.symm

/-- The components of the working directory's path are plain. -/
theorem plain_workingDir (t : FileTree) :
    ∀ c ∈ t.workingDir.reverse.map Path.Component.name, c.Plain := by
  intro c hc
  obtain ⟨n, hn, rfl⟩ := List.mem_map.mp hc
  exact (t.proper n (List.mem_reverse.mp hn)).plain

/-- The working directory's path is absolute. -/
theorem isAbsolute_workingPath (t : FileTree) : t.workingPath.isAbsolute = true :=
  rfl

/-- The path of the working directory is its own clean spelling. -/
theorem workingPath_clean (t : FileTree) : t.workingPath.clean = t.workingPath := by
  rw [workingPath, pathOf_eq_extend t.proper]
  exact Path.clean_extend t.plain_workingDir rfl

/-- The path of the working directory spells the names down to it. -/
theorem steps_workingPath (t : FileTree) : t.workingPath.steps = t.workingDir.reverse := by
  rw [workingPath, pathOf_eq_extend t.proper, Path.steps_extend t.plain_workingDir]
  simp [Path.steps, Path.pieces, Path.Component.chars, Function.comp_def]

/-- The working directory's path has no zero byte. -/
theorem nul_not_mem_workingPath (t : FileTree) : '\x00' ∉ t.workingPath.chars := by
  intro hmem
  rcases List.mem_cons.mp hmem with hslash | hmem
  · exact absurd hslash (by decide)
  · have hnames : ∀ n ∈ t.workingDir.reverse, '\x00' ∉ n := fun n hn =>
      (t.proper n (List.mem_reverse.mp hn)).nul_not_mem
    cases hreverse : t.workingDir.reverse with
    | nil =>
      rw [hreverse] at hmem
      cases hmem
    | cons first rest =>
      rw [hreverse] at hnames hmem
      rw [Path.intercalate_cons] at hmem
      rcases List.mem_append.mp hmem with hmem | hmem
      · exact hnames first List.mem_cons_self hmem
      · obtain ⟨n, hn, hmem⟩ := List.mem_flatMap.mp hmem
        rcases List.mem_cons.mp hmem with hslash | hmem
        · exact absurd hslash (by decide)
        · exact hnames n (List.mem_cons_of_mem _ hn) hmem

/-- The names down to a directory lead there, and further steps start from it. -/
theorem advance_reverse (hdir : t.entry? dir = some .directory)
    (hproper : ∀ n ∈ dir, Path.IsProper n) (hextra : extra ≠ []) :
    t.advance last [] (dir.reverse ++ extra) = t.advance last dir extra := by
  induction dir generalizing extra with
  | nil => rfl
  | cons n above ih =>
    have hn : Path.IsProper n := hproper n List.mem_cons_self
    have habove : t.entry? above = some .directory := entry?_above (hdir ▸ Option.some_ne_none _)
    rw [List.reverse_cons, List.append_assoc, List.singleton_append,
      ih habove (fun m hm => hproper m (List.mem_cons_of_mem _ hm)) (List.cons_ne_nil _ _),
      advance_down hn.isName hn.not_long hextra hdir]

/-- A relative path that is written out behind the path of the working directory is followed
as it is from there, if it goes on. -/
theorem follow_written_out (p : Path) (hextra : extra ≠ []) :
    t.follow last links (origin t.workingDir (t.workingPath.join p))
      ((t.workingPath.join p).steps ++ extra) =
        t.follow last links (origin t.workingDir p) (p.steps ++ extra) := by
  cases hp : p.isAbsolute with
  | true =>
    have hjoin : t.workingPath.join p = p := by
      unfold Path.join
      rw [if_pos hp]
    rw [hjoin]
  | false =>
    have hne : t.workingPath.chars ≠ [] := List.cons_ne_nil _ _
    have horigin : origin t.workingDir (t.workingPath.join p) = [] := by
      unfold origin
      rw [Path.isAbsolute_join_of_ne_nil hne hp, t.isAbsolute_workingPath, if_pos rfl]
    have horigin' : origin t.workingDir p = t.workingDir := by
      unfold origin
      rw [hp, if_neg (by decide)]
    rw [horigin, horigin', Path.steps_join_of_relative hne hp, steps_workingPath,
      List.append_assoc]
    exact follow_congr (advance_reverse t.working t.proper (by simp [hextra]))

/-- A path written out behind the path of the working directory is absolute. -/
theorem isAbsolute_written_out (t : FileTree) (p : Path) :
    (t.workingPath.join p).isAbsolute = true := by
  cases hp : p.isAbsolute with
  | true => rwa [Path.join, if_pos hp]
  | false =>
    have hne := Path.chars_ne_nil_of_isAbsolute t.isAbsolute_workingPath
    rw [Path.isAbsolute_join_of_ne_nil hne hp, t.isAbsolute_workingPath]

/-! ## Temporary files -/

/-- The path of a temporary file is not refused if it is short enough. -/
theorem refusal?_temporaryPath_of_lt (hdir : '\x00' ∉ p.chars) (hname : Path.IsProper name)
    (hshort : Path.byteSize (t.temporaryPath p name).chars < Path.byteLimit) :
    (t.temporaryPath p name).refusal? = none :=
  Path.refusal?_join_of_lt hname.plain (Path.nul_not_mem_join t.nul_not_mem_workingPath hdir)
    hname.nul_not_mem hshort

/-- Names of one length are refused alike in one directory. -/
theorem refusal?_temporaryPath_congr {name' : Name} (hname : Path.IsProper name)
    (hname' : Path.IsProper name') (hsize : Path.byteSize name = Path.byteSize name') :
    (t.temporaryPath p name).refusal? = (t.temporaryPath p name').refusal? := by
  obtain ⟨base, -, -, hjoin⟩ :=
    Path.exists_chars_join (Path.chars_ne_nil_of_isAbsolute (isAbsolute_written_out t p))
  have hchars {n : Name} (hn : Path.IsProper n) :
      (t.temporaryPath p n).chars = base ++ ['/'] ++ n := by
    rw [List.append_assoc]
    exact hjoin ⟨n⟩ (Bool.eq_false_of_not_eq_true (Path.not_isAbsolute_of_plain hn.plain))
  unfold Path.refusal?
  rw [hchars hname, hchars hname', Path.byteSize_append, Path.byteSize_append _ name', hsize]
  simp [hname.nul_not_mem, hname'.nul_not_mem]

/-- A name behind a path changes nothing of where the path starts. -/
theorem origin_join (hname : Path.IsProper name) (dir : Location) (p : Path) :
    origin dir (p.join ⟨name⟩) = origin dir p := by
  unfold origin
  rw [show (⟨name⟩ : Path) = ⟨(Path.Component.name name).chars⟩ from rfl,
    Path.isAbsolute_join hname.plain]

/-- The path of a temporary file leads where the steps of the directory and its name do. -/
theorem walkToLast_temporaryPath (hname : Path.IsProper name)
    (hfits : (t.temporaryPath p name).refusal? = none)
    (hinside : t.follow false linkLimit (origin t.workingDir p) (p.steps ++ [name]) =
      .before dir name) : t.walkToLast (t.temporaryPath p name) = .before dir name := by
  have hsteps (q : Path) : (q.join ⟨name⟩).steps = q.steps ++ [name] :=
    Path.steps_join hname.plain q
  unfold walkToLast
  rw [hfits]
  dsimp only
  rw [temporaryPath, origin_join hname, hsteps, follow_written_out p (List.cons_ne_nil _ _),
    hinside]

/-- The steps of a directory lead into it, whatever name comes after them. -/
theorem follow_inside_of_find (hname : Path.IsProper name)
    (hfind : t.find p = .ok (dir, .directory)) :
    t.follow false linkLimit (origin t.workingDir p) (p.steps ++ [name]) = .before dir name := by
  have hplain : (Path.Component.name name).Plain := hname.plain
  have hlookup : (p.join ⟨name⟩).lookupSteps = p.steps ++ [name] := Path.lookupSteps_join hplain p
  obtain ⟨links, hfollow, -⟩ := follow_join_of_find hplain false hfind
  have hlast : t.advance false dir [name] = .before dir name :=
    advance_single_of_not_link hname.isName hname.not_long nofun
  rw [← origin_join hname, ← hlookup]
  refine (hfollow t (.refl t) rfl).trans ?_
  show t.follow false links dir [name] = _
  rw [follow_of_advance (by simp [hlast]), hlast]

end FileTree

end Recompile
