import Recompile.FileTree.Lookup
import Recompile.Proofs.Path.Clean

/-!
# The steps of joined paths, of parents and of clean spellings

Joining a name to a path adds one step at the end (`Path.lookupSteps_join`), and the parent
of a path has the first of its steps (`Path.steps_of_parent?`). The clean spelling of a path
has the steps that count and no others (`Path.lookupSteps_clean`), and it is no longer than
the path (`Path.chars_clean_sublist`).
-/

set_option autoImplicit false

namespace Recompile.Path

variable {p above : Path} {c : Component}

/-- A text that is too long for `.` and `..` and has no slash is one component. -/
theorem plain_name {n : Name} (hlong : 2 < n.length) (hslash : '/' ∉ n) :
    (Component.name n).Plain := by
  refine ⟨?_, hslash⟩
  show Component.ofPiece? n = some (.name n)
  unfold Component.ofPiece?
  split <;> simp at hlong ⊢

/-! ## Joining -/

/-- Joining one plain component adds one step at the end of the walk. -/
theorem steps_join (hc : c.Plain) (p : Path) : (p.join ⟨c.chars⟩).steps = p.steps ++ [c.chars] := by
  have hsingle : (pieces c.chars).filter (· ≠ []) = [c.chars] := by
    rw [pieces_eq_singleton hc.no_slash]
    simp [hc.chars_ne_nil]
  unfold steps
  rcases join_plain hc p with ⟨hjoin, hnil⟩ | ⟨xs, hp, hjoin⟩ | ⟨-, hjoin⟩
  · rw [hjoin, hnil, hsingle]
    rfl
  · rw [hjoin, hp, pieces_append_slash, pieces_append_slash, List.filter_append, hsingle,
      List.filter_append]
    simp [pieces]
  · rw [hjoin, pieces_append_slash, List.filter_append, hsingle]

/-- A path that ends with a component does not end with a slash. -/
theorem not_endsWithSlash_of_plain (hc : c.Plain) {xs : List Char} (h : p.chars = xs ++ c.chars) :
    ¬ p.endsWithSlash = true := by
  intro hends
  obtain ⟨ys, hys⟩ := endsWithSlash_iff.mp hends
  have hlast := congrArg List.getLast? (h.symm.trans hys)
  rw [List.getLast?_append_of_ne_nil _ hc.chars_ne_nil, List.getLast?_concat] at hlast
  exact hc.no_slash (List.mem_of_getLast? hlast)

/-- A joined component is the last step of a look-up. -/
theorem lookupSteps_join (hc : c.Plain) (p : Path) :
    (p.join ⟨c.chars⟩).lookupSteps = p.steps ++ [c.chars] := by
  have hlast : ∃ xs, (p.join ⟨c.chars⟩).chars = xs ++ c.chars := by
    rcases join_plain hc p with ⟨hjoin, -⟩ | ⟨xs, -, hjoin⟩ | ⟨-, hjoin⟩
    · exact ⟨[], hjoin⟩
    · exact ⟨xs ++ ['/'], by simp [hjoin]⟩
    · exact ⟨p.chars ++ ['/'], by simp [hjoin]⟩
  obtain ⟨xs, hxs⟩ := hlast
  rw [lookupSteps, if_neg (not_endsWithSlash_of_plain hc hxs), steps_join hc]

/-! ## Parents -/

/-- What is left when idle pieces are dropped at the end is a beginning of the pieces. -/
theorem isPrefix_dropIdleEnd (ps : List Name) : dropIdleEnd ps <+: ps := by
  unfold dropIdleEnd
  rw [← List.reverse_suffix, List.reverse_reverse]
  exact List.dropWhile_suffix _

/-- Pieces with slashes between them are the pieces of that text, empty ones aside. -/
theorem filter_pieces_intercalate {ps : List Name} (h : ∀ piece ∈ ps, '/' ∉ piece) :
    (pieces (['/'].intercalate ps)).filter (· ≠ []) = ps.filter (· ≠ []) := by
  induction ps with
  | nil => rfl
  | cons first rest ih =>
    have hfirst := h first List.mem_cons_self
    have hrest := ih fun piece hpiece => h piece (List.mem_cons_of_mem _ hpiece)
    cases rest with
    | nil => rw [List.intercalate_singleton, pieces_eq_singleton hfirst]
    | cons second rest =>
      rw [List.intercalate_cons_cons, List.append_assoc, List.singleton_append,
        pieces_append_slash, pieces_eq_singleton hfirst, List.filter_append, hrest,
        ← List.filter_append, List.singleton_append]

/-- The pieces of the directory above are a beginning of the pieces. -/
theorem isPrefix_above (rest : List Name) : dropIdleEnd (dropIdleEnd rest).dropLast <+: rest := by
  have hlast : (dropIdleEnd rest).dropLast <+: dropIdleEnd rest :=
    List.dropLast_prefix _
  exact (isPrefix_dropIdleEnd _).trans (hlast.trans (isPrefix_dropIdleEnd rest))

/-- The first piece of a relative path with further pieces is not empty. -/
theorem first_ne_nil {first : Name} {rest : List Name} (habs : ¬ p.isAbsolute = true)
    (hpieces : pieces p.chars = first :: rest) (hrest : rest ≠ []) : first ≠ [] := by
  cases hchars : p.chars with
  | nil =>
    rw [hchars] at hpieces
    cases hpieces
    exact absurd rfl hrest
  | cons c cs =>
    have hc : c ≠ '/' := by
      rintro rfl
      exact habs (isAbsolute_iff.mpr ⟨cs, hchars⟩)
    obtain ⟨first', rest', hcs⟩ := List.exists_cons_of_ne_nil (pieces_ne_nil cs)
    rw [hchars, pieces_cons hc hcs] at hpieces
    cases hpieces
    simp

/-- Pieces of which the first is neither empty nor holds a slash make a relative path. -/
theorem not_isAbsolute_intercalate {first : Name} (hne : first ≠ []) (hslash : '/' ∉ first)
    (rest : List Name) : (⟨['/'].intercalate (first :: rest)⟩ : Path).isAbsolute = false := by
  obtain ⟨c, cs, rfl⟩ := List.exists_cons_of_ne_nil hne
  have hc : c ≠ '/' := fun hc => hslash (hc ▸ List.mem_cons_self)
  unfold isAbsolute
  cases rest with
  | nil => simp [hc]
  | cons second rest => simp [List.intercalate_cons_cons, hc]

/-- Dropping idle pieces at the end drops no piece that names something. -/
theorem filter_dropIdleEnd (ps : List Name) :
    (dropIdleEnd ps).filter (fun piece => !isIdle piece) =
      ps.filter fun piece => !isIdle piece := by
  have hdrop (qs : List Name) : (qs.dropWhile isIdle).filter (fun piece => !isIdle piece) =
      qs.filter fun piece => !isIdle piece := by
    induction qs with
    | nil => rfl
    | cons q qs ih =>
      cases hq : isIdle q with
      | true => rw [List.dropWhile_cons_of_pos hq, ih, List.filter_cons_of_neg (by simp [hq])]
      | false => rw [List.dropWhile_cons_of_neg (by simp [hq])]
  unfold dropIdleEnd
  rw [List.filter_reverse, hdrop, List.filter_reverse, List.reverse_reverse]

/-- Going up takes one piece away that counts. -/
theorem length_filter_above (rest : List Name) :
    (rest.filter fun piece => !isIdle piece).length ≤
      ((dropIdleEnd (dropIdleEnd rest).dropLast).filter fun piece => !isIdle piece).length + 1 := by
  rw [filter_dropIdleEnd, ← filter_dropIdleEnd rest]
  generalize dropIdleEnd rest = ps
  by_cases hnil : ps = []
  · simp [hnil]
  · have hlast := List.dropLast_append_getLast hnil
    calc (ps.filter fun piece => !isIdle piece).length
      _ = ((ps.dropLast ++ [ps.getLast hnil]).filter fun piece => !isIdle piece).length := by
        rw [hlast]
      _ ≤ (ps.dropLast.filter fun piece => !isIdle piece).length + 1 := by
        rw [List.filter_append, List.length_append]
        exact Nat.add_le_add_left (List.length_filter_le _ [ps.getLast hnil]) _

/-- The parent of a path starts where the path does and has its first pieces, all that count
but one. -/
theorem exists_pieces_of_parent? (h : p.parent? = some above) :
    above.isAbsolute = p.isAbsolute ∧ ∃ initial, initial <+: pieces p.chars ∧
      above.steps = initial.filter (· ≠ []) ∧
      ((pieces p.chars).filter fun piece => !isIdle piece).length ≤
        (initial.filter fun piece => !isIdle piece).length + 1 := by
  obtain ⟨first, rest, hpieces⟩ := List.exists_cons_of_ne_nil (pieces_ne_nil p.chars)
  have hslash (piece : Name) (hmem : piece ∈ first :: rest) : '/' ∉ piece :=
    slash_not_mem_of_mem_pieces (hpieces ▸ hmem)
  have hinitial : first :: dropIdleEnd (dropIdleEnd rest).dropLast <+: first :: rest :=
    List.cons_prefix_cons.mpr ⟨rfl, isPrefix_above rest⟩
  have hcount : ((first :: rest).filter fun piece => !isIdle piece).length ≤
      ((first :: dropIdleEnd (dropIdleEnd rest).dropLast).filter
        fun piece => !isIdle piece).length + 1 := by
    have habove := length_filter_above rest
    rw [List.filter_cons, List.filter_cons]
    split
    · simpa using habove
    · exact habove
  have hspelled : ∀ piece ∈ first :: dropIdleEnd (dropIdleEnd rest).dropLast, '/' ∉ piece :=
    fun piece hpiece => hslash piece (hinitial.subset hpiece)
  -- The three forms of a parent: below the root, the empty path, and the first pieces of a
  -- relative path.
  unfold parent? at h
  rw [hpieces] at h ⊢
  dsimp only at h
  split at h
  · rename_i habs
    split at h
    · cases h
    · cases h
      refine ⟨habs ▸ rfl, _, hinitial, ?_, hcount⟩
      obtain ⟨xs, hxs⟩ := isAbsolute_iff.mp habs
      rw [hxs, pieces_cons_slash] at hpieces
      cases hpieces
      show (pieces ('/' :: _)).filter _ = _
      rw [pieces_cons_slash, List.filter_cons_of_neg (by simp), List.filter_cons_of_neg (by simp),
        filter_pieces_intercalate fun piece hpiece =>
          hspelled piece (List.mem_cons_of_mem _ hpiece)]
  · rename_i habs
    have habs' : false = p.isAbsolute := (Bool.eq_false_of_not_eq_true habs).symm
    split at h
    · rename_i hidle
      split at h
      · cases h
      · cases h
        refine ⟨habs', [], List.nil_prefix, rfl, ?_⟩
        have hrest : rest.filter (fun piece => !isIdle piece) = [] := by
          rw [← filter_dropIdleEnd, hidle]
          rfl
        rw [List.filter_cons, hrest]
        split <;> simp
    · rename_i hne
      cases h
      have hrest : rest ≠ [] := by
        rintro rfl
        exact hne rfl
      have hfirst := first_ne_nil habs hpieces hrest
      rw [not_isAbsolute_intercalate hfirst (hslash first List.mem_cons_self)]
      exact ⟨habs', _, hinitial, filter_pieces_intercalate hspelled, hcount⟩

/-- The parent of a path starts where the path does, and has the first of its steps. -/
theorem steps_of_parent? (h : p.parent? = some above) :
    above.isAbsolute = p.isAbsolute ∧ above.steps <+: p.steps := by
  obtain ⟨habs, initial, hinitial, hsteps, -⟩ := exists_pieces_of_parent? h
  rw [hsteps, steps]
  exact ⟨habs, hinitial.filter _⟩

/-! ## Clean spellings -/

variable {cs : List Component}

/-- Joining plain components adds one step for each at the end of the walk. -/
theorem steps_extend (hcs : ∀ c ∈ cs, c.Plain) (p : Path) :
    (p.extend cs).steps = p.steps ++ cs.map Component.chars := by
  unfold extend
  induction cs generalizing p with
  | nil => simp
  | cons c cs ih =>
    rw [List.foldl_cons, ih fun d hd => hcs d (List.mem_cons_of_mem _ hd),
      steps_join (hcs c List.mem_cons_self), List.append_assoc]
    rfl

/-- A clean spelling extends the root, or nothing at all, by the components of the path. -/
theorem clean_eq_extend (p : Path) :
    p.clean = (if p.isAbsolute then ⟨['/']⟩ else empty).extend p.named := by
  unfold clean
  rw [filter_components]
  split <;> rfl

/-- Cleaning leaves an absolute path absolute and a relative one relative. -/
theorem isAbsolute_clean (p : Path) : p.clean.isAbsolute = p.isAbsolute := by
  rw [clean_eq_extend, isAbsolute_extend fun _ hc => plain_of_mem_named hc]
  split
  · rename_i habs
    rw [habs]
    rfl
  · rename_i habs
    rw [Bool.eq_false_of_not_eq_true habs]
    rfl

/-- Cleaning keeps the named components. -/
theorem named_clean (p : Path) : p.clean.named = p.named := by
  rw [clean_eq_extend, named_extend fun _ hc => plain_of_mem_named hc]
  split <;> rfl

/-- The clean spelling is determined by where a path starts and by its components. -/
theorem clean_eq_of_named {q : Path} (habs : p.isAbsolute = q.isAbsolute)
    (hnamed : p.named = q.named) : p.clean = q.clean := by
  rw [clean_eq_extend, clean_eq_extend, habs, hnamed]

/-- The components of a path are determined by how they are spelled. -/
theorem named_eq_of_map_chars {q : Path}
    (h : p.named.map Component.chars = q.named.map Component.chars) : p.named = q.named := by
  have hspelled (r : Path) :
      (r.named.map Component.chars).filterMap Component.ofPiece? = r.named := by
    rw [List.filterMap_map]
    exact (List.filterMap_congr fun c hc => (plain_of_mem_named hc).ofPiece).trans
      List.filterMap_some
  rw [← hspelled p, h, hspelled q]

/-- The steps of a clean spelling are the components. No slash stands at its end, unless it
is the root. -/
theorem lookupSteps_clean (hne : p.named ≠ []) :
    p.clean.lookupSteps = p.named.map Component.chars := by
  have hplain : ∀ c ∈ p.named, c.Plain := fun _ hc => plain_of_mem_named hc
  obtain ⟨cs, c, hcs⟩ : ∃ cs c, p.named = cs ++ [c] :=
    ⟨_, _, (List.dropLast_append_getLast hne).symm⟩
  rw [clean_eq_extend]
  generalize hbase : (if p.isAbsolute then ⟨['/']⟩ else empty : Path) = base
  have hsteps : base.steps = [] := by
    subst hbase
    split <;> rfl
  rw [hcs] at hplain ⊢
  have hjoin : base.extend (cs ++ [c]) = (base.extend cs).join ⟨c.chars⟩ := List.foldl_append
  have hinit : ∀ d ∈ cs, d.Plain := fun d hd => hplain d (List.mem_append_left _ hd)
  rw [hjoin, lookupSteps_join (hplain c (by simp)), steps_extend hinit, hsteps, List.map_append]
  rfl

/-- Pieces with slashes between them are the first piece and then each other one behind a slash.
-/
theorem intercalate_cons (first : Name) (rest : List Name) :
    ['/'].intercalate (first :: rest) = first ++ rest.flatMap ('/' :: ·) := by
  induction rest generalizing first with
  | nil => simp
  | cons second rest ih => rw [List.intercalate_cons_cons, ih, List.flatMap_cons]; simp

/-- The pieces of a text with the slashes between them are the text. -/
theorem intercalate_pieces (cs : List Char) : ['/'].intercalate (pieces cs) = cs := by
  induction cs with
  | nil => rfl
  | cons c cs ih =>
    obtain ⟨first, rest, hcs⟩ := List.exists_cons_of_ne_nil (pieces_ne_nil cs)
    rw [hcs, intercalate_cons] at ih
    by_cases hc : c = '/'
    · subst hc
      rw [pieces_cons_slash, hcs, intercalate_cons, List.flatMap_cons, List.nil_append,
        List.cons_append, ih]
    · rw [pieces_cons hc hcs, intercalate_cons, List.cons_append, ih]

/-- Fewer pieces are spelled with fewer characters. -/
theorem intercalate_filter_sublist (keep : Name → Bool) (ps : List Name) :
    List.Sublist (['/'].intercalate (ps.filter keep)) (['/'].intercalate ps) := by
  induction ps with
  | nil => exact List.Sublist.refl _
  | cons first rest ih =>
    cases rest with
    | nil =>
      cases h : keep first
      · simp [h]
      · simp [h]
    | cons second rest =>
      rw [List.intercalate_cons_cons]
      cases h : keep first with
      | false =>
        rw [List.filter_cons_of_neg (by simp [h])]
        exact ih.trans (List.sublist_append_right _ _)
      | true =>
        rw [List.filter_cons_of_pos h]
        generalize hkept : (second :: rest).filter keep = kept at ih ⊢
        cases kept with
        | nil =>
          rw [List.intercalate_singleton, List.append_assoc]
          exact List.sublist_append_left _ _
        | cons third kept =>
          rw [List.intercalate_cons_cons]
          exact ih.append_left _

/-- A path that ends with a character other than a slash is extended by slashes and
components. -/
theorem chars_extend (hcs : ∀ c ∈ cs, c.Plain) (hne : p.chars ≠ [])
    (hslash : ¬ p.endsWithSlash = true) :
    (p.extend cs).chars = p.chars ++ cs.flatMap fun c => '/' :: c.chars := by
  unfold extend
  induction cs generalizing p with
  | nil => simp
  | cons c cs ih =>
    have hc : c.Plain := hcs c List.mem_cons_self
    have hjoin : (p.join ⟨c.chars⟩).chars = p.chars ++ '/' :: c.chars := by
      rcases join_plain hc p with ⟨-, hnil⟩ | ⟨xs, hxs, -⟩ | ⟨-, hjoin⟩
      · exact absurd hnil hne
      · exact absurd (endsWithSlash_iff.mpr ⟨xs, hxs⟩) hslash
      · exact hjoin
    rw [List.foldl_cons, ih (fun d hd => hcs d (List.mem_cons_of_mem _ hd)), hjoin]
    · simp
    · simp [hjoin]
    · refine not_endsWithSlash_of_plain hc (show _ = (p.chars ++ ['/']) ++ c.chars from ?_)
      simp [hjoin]

/-- The components that the pieces give are spelled by the pieces that are not idle. -/
theorem map_chars_named (p : Path) :
    p.named.map Component.chars = (pieces p.chars).filter fun piece => !isIdle piece := by
  have hpiece (piece : Name) : (Component.ofPiece? piece).map Component.chars =
      Option.guard (fun piece => !isIdle piece) piece := by
    unfold Component.ofPiece?
    split <;> simp_all [Option.guard, isIdle, Component.chars]
  unfold named
  rw [List.map_filterMap, ← List.filterMap_eq_filter]
  simp only [hpiece]

/-- Only paths without components have no parent. -/
theorem exists_parent? (hne : p.named ≠ []) : ∃ above, p.parent? = some above := by
  obtain ⟨first, rest, hpieces⟩ := List.exists_cons_of_ne_nil (pieces_ne_nil p.chars)
  have hfirst : dropIdleEnd rest = [] → first ≠ [] := by
    rintro hidle rfl
    have hrest : rest.filter (fun piece => !isIdle piece) = [] := by
      rw [← filter_dropIdleEnd, hidle]
      rfl
    have hnamed : p.named.map Component.chars = [] := by
      rw [map_chars_named, hpieces, List.filter_cons_of_neg (by simp [isIdle]), hrest]
    exact hne (List.map_eq_nil_iff.mp hnamed)
  unfold parent?
  rw [hpieces]
  dsimp only
  by_cases habs : p.isAbsolute = true
  · obtain ⟨xs, hxs⟩ := isAbsolute_iff.mp habs
    rw [hxs, pieces_cons_slash] at hpieces
    cases hpieces
    rw [if_pos habs, if_neg fun hidle => hfirst hidle rfl]
    exact ⟨_, rfl⟩
  · rw [if_neg habs]
    by_cases hidle : dropIdleEnd rest = []
    · rw [if_pos hidle, if_neg (hfirst hidle)]
      exact ⟨_, rfl⟩
    · rw [if_neg hidle]
      exact ⟨_, rfl⟩

/-- The clean text of a path that names something: a slash if it is absolute, and its components
with single slashes between them. -/
theorem chars_clean (hne : p.named ≠ []) : p.clean.chars =
    (if p.isAbsolute then ['/'] else []) ++ ['/'].intercalate (p.named.map Component.chars) := by
  have hplain : ∀ c ∈ p.named, c.Plain := fun _ hc => plain_of_mem_named hc
  obtain ⟨c, cs, hcs⟩ := List.exists_cons_of_ne_nil hne
  rw [hcs] at hplain
  have hc : c.Plain := hplain c List.mem_cons_self
  -- The first component stands alone, or after the slash of the root.
  have hfirst : ((if p.isAbsolute then ⟨['/']⟩ else empty : Path).join ⟨c.chars⟩).chars =
      (if p.isAbsolute then ['/'] else []) ++ c.chars := by
    unfold join
    rw [if_neg (not_isAbsolute_of_plain hc)]
    split <;> rfl
  rw [clean_eq_extend, hcs]
  revert hfirst
  generalize (if p.isAbsolute then ⟨['/']⟩ else empty : Path) = base
  generalize (if p.isAbsolute then ['/'] else []) = lead
  intro hfirst
  have hextend : base.extend (c :: cs) = (base.join ⟨c.chars⟩).extend cs := rfl
  rw [hextend, chars_extend fun d hd => hplain d (List.mem_cons_of_mem _ hd), hfirst,
    List.map_cons, intercalate_cons, List.flatMap_map, List.append_assoc]
  · rw [hfirst]
    simp [hc.chars_ne_nil]
  · exact not_endsWithSlash_of_plain hc hfirst

/-- A clean spelling leaves characters out and adds none. -/
theorem chars_clean_sublist (hne : p.named ≠ []) : List.Sublist p.clean.chars p.chars := by
  have hpieces := intercalate_filter_sublist (fun piece => !isIdle piece) (pieces p.chars)
  rw [← map_chars_named, intercalate_pieces] at hpieces
  rw [chars_clean hne]
  split
  · rename_i habs
    obtain ⟨xs, hxs⟩ := isAbsolute_iff.mp habs
    have hrest := intercalate_filter_sublist (fun piece => !isIdle piece) (pieces xs)
    rw [intercalate_pieces] at hrest
    rw [map_chars_named, hxs, pieces_cons_slash, List.filter_cons_of_neg (by simp [isIdle])]
    exact hrest.cons_cons '/'
  · exact hpieces

/-! ## Accesses that may begin -/

/-- The system takes a path that holds no zero byte, is not empty and is short enough. -/
theorem refusal?_eq_none_iff :
    p.refusal? = none ↔ '\x00' ∉ p.chars ∧ p.chars ≠ [] ∧ byteSize p.chars < byteLimit := by
  unfold refusal?
  by_cases hnul : '\x00' ∈ p.chars
  · simp [hnul]
  · by_cases hnil : p.chars = []
    · simp [hnil]
    · by_cases hlong : byteLimit ≤ byteSize p.chars
      · simp [hnul, hnil, hlong]
      · simp [hnul, hnil, Nat.lt_of_not_le hlong]

/-- The bytes of two texts in a row are those of the one and those of the other. -/
theorem byteSize_append (xs ys : List Char) :
    byteSize (xs ++ ys) = byteSize xs + byteSize ys := by
  induction xs with
  | nil => exact (Nat.zero_add _).symm
  | cons c xs ih =>
    rw [List.cons_append, byteSize, byteSize, ih, Nat.add_assoc]

/-- Leaving out characters does not make a text longer. -/
theorem byteSize_le_of_sublist {xs ys : List Char} (h : List.Sublist xs ys) :
    byteSize xs ≤ byteSize ys := by
  induction h with
  | slnil => exact Nat.le_refl _
  | @cons xs ys c _ ih =>
    have hsize : byteSize (c :: ys) = c.utf8Size + byteSize ys := rfl
    omega
  | @cons_cons xs ys c _ ih =>
    have hsize (cs : List Char) : byteSize (c :: cs) = c.utf8Size + byteSize cs := rfl
    rw [hsize, hsize]
    omega

/-- A path that is spelled with characters of another one is not refused if that is not. -/
theorem refusal?_of_sublist {q : Path} (hsub : List.Sublist q.chars p.chars) (hne : q.chars ≠ [])
    (h : p.refusal? = none) : q.refusal? = none := by
  obtain ⟨hnul, -, hshort⟩ := refusal?_eq_none_iff.mp h
  exact refusal?_eq_none_iff.mpr ⟨fun hmem => hnul (hsub.subset hmem), hne,
    Nat.lt_of_le_of_lt (byteSize_le_of_sublist hsub) hshort⟩

/-- The clean spelling of a path that the system takes is one that it takes too. -/
theorem refusal?_clean (hne : p.named ≠ []) (h : p.refusal? = none) :
    p.clean.refusal? = none := by
  refine refusal?_of_sublist (chars_clean_sublist hne) ?_ h
  intro hnil
  have hsteps := lookupSteps_clean hne
  have hnone : p.clean.lookupSteps = [] := by
    rw [lookupSteps, endsWithSlash, steps, hnil]
    rfl
  rw [hnone] at hsteps
  exact hne (List.map_eq_nil_iff.mp hsteps.symm)

end Recompile.Path
