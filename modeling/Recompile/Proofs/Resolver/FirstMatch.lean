import Recompile.Proofs.FileTree.Dots
import Recompile.Proofs.Graph.Build

/-!
# The first file that is found

A directive leads to the first of its candidates that is a file. So what it leads to changes
only if that file goes or another candidate before it becomes a file, and then that one is
found: no search changes its result unless one of the two results is a file in one tree and
none in the other (`Resolver.search_eq_of_isFile`). The files that are included by a file are
files. So where the sets of them are equal on two trees, each directive leads to the same file
on both (`Scanner.resolveAll_eq_of_same_resolved`), and the order of the directives, which
such a set does not have, cannot have changed either.

With more search roots after the others all candidates come after those that there were, so a
directive that led to a file leads there still (`Resolver.ExtendedBy.resolveAll`).
-/

set_option autoImplicit false

namespace Recompile

/-- A first match stays one if what each of two tests finds first passes the other. -/
theorem find?_eq_of_forall {α : Type} {f g : α → Bool} {l : List α}
    (hf : ∀ a, l.find? f = some a → g a = true) (hg : ∀ a, l.find? g = some a → f a = true) :
    l.find? f = l.find? g := by
  induction l with
  | nil => rfl
  | cons a l ih =>
    cases hfa : f a with
    | true =>
      rw [List.find?_cons_of_pos hfa] at hf ⊢
      rw [List.find?_cons_of_pos (hf a rfl)]
    | false =>
      cases hga : g a with
      | true =>
        rw [List.find?_cons_of_pos hga] at hg
        rw [hg a rfl] at hfa
        cases hfa
      | false =>
        rw [List.find?_cons_of_neg (by simp [hfa])] at hf ⊢
        rw [List.find?_cons_of_neg (by simp [hga])] at hg ⊢
        exact ih hf hg

/-- With further paths after the others, the first of each kind come first. -/
theorem Path.isPrefix_distinct_append (ps qs : List Path) :
    distinct ps <+: distinct (ps ++ qs) := by
  induction ps with
  | nil => exact List.nil_prefix
  | cons p ps ih =>
    rw [List.cons_append, distinct, distinct]
    exact List.cons_prefix_cons.mpr ⟨rfl, ih.filter _⟩

namespace Resolver

variable {r r' : Resolver} {t t' : FileTree} {dir p target : Path} {dirs dirs' : List Path}
  {found : Option (IncludeForm × String)}

/-! ## On two trees -/

/-- Two trees in which the matches of either are files have the same first match. -/
theorem search_eq_of_isFile (h : ∀ p, search t dirs target = some p → t'.isFile p = true)
    (h' : ∀ p, search t' dirs target = some p → t.isFile p = true) :
    search t dirs target = search t' dirs target := by
  unfold search at h h' ⊢
  apply congrArg (Option.map Path.clean)
  apply find?_eq_of_forall
  · intro q hq
    exact FileTree.isFile_of_isFile_clean (List.find?_some hq) (h q.clean (by rw [hq]; rfl))
  · intro q hq
    exact FileTree.isFile_of_isFile_clean (List.find?_some hq) (h' q.clean (by rw [hq]; rfl))

/-- A directive leads to the same on two trees if the file to which it leads on one of them
is a file on the other. -/
theorem locate_eq_of_isFile (h : ∀ p, r.locate t dir found = .file p → t'.isFile p = true)
    (h' : ∀ p, r.locate t' dir found = .file p → t.isFile p = true) :
    r.locate t dir found = r.locate t' dir found := by
  cases found with
  | none => rfl
  | some named =>
    obtain ⟨form, target⟩ := named
    unfold locate at h h' ⊢
    dsimp only at h h' ⊢
    rw [search_eq_of_isFile]
    · intro p hp
      rw [hp] at h
      exact h p rfl
    · intro p hp
      rw [hp] at h'
      exact h' p rfl

/-! ## With more search roots -/

/-- Another resolver searches where this one does, and after that in further roots. -/
structure ExtendedBy (r r' : Resolver) : Prop where
  roots : r.roots <+: r'.roots
  macros : r'.macros = r.macros

/-- More roots at the end extend a resolver. -/
theorem extendedBy_append (roots more : List Path) (macros : List (String × String)) :
    (ofRoots roots macros).ExtendedBy (ofRoots (roots ++ more) macros) :=
  ⟨Path.isPrefix_distinct_append roots more, rfl⟩

/-- Searching more directories at the end puts more candidates at the end. -/
theorem isPrefix_candidates (h : dirs <+: dirs') (target : Path) :
    candidates dirs target <+: candidates dirs' target := by
  unfold candidates
  split
  · exact List.prefix_refl _
  · exact h.map _

/-- What is found is found as well if other directories are searched after the same ones. -/
theorem search_of_isPrefix (h : dirs <+: dirs') (hp : search t dirs target = some p) :
    search t dirs' target = some p := by
  obtain ⟨more, hmore⟩ := isPrefix_candidates h target
  unfold search at hp ⊢
  obtain ⟨q, hq, rfl⟩ := Option.map_eq_some_iff.mp hp
  rw [← hmore, List.find?_append, hq]
  rfl

namespace ExtendedBy

/-- An extended resolver searches the same directories first. -/
theorem isPrefix_searchDirs (h : r.ExtendedBy r') (dir : Path) (form : IncludeForm) :
    r.searchDirs dir form <+: r'.searchDirs dir form := by
  cases form with
  | quoted => exact List.cons_prefix_cons.mpr ⟨rfl, h.roots⟩
  | system | macroName => exact h.roots

/-- What a resolver locates, an extended one locates in the same place. -/
theorem locate (h : r.ExtendedBy r') (hp : r.locate t dir found = .file p) :
    r'.locate t dir found = .file p := by
  cases found with
  | none => cases hp
  | some named =>
    obtain ⟨form, target⟩ := named
    unfold Resolver.locate at hp ⊢
    dsimp only at hp ⊢
    split at hp
    · rename_i q hq
      rw [search_of_isPrefix (h.isPrefix_searchDirs dir form) hq]
      exact hp
    · cases hp

/-- A directive that leads to a file leads there with more search roots as well. -/
theorem resolve (h : r.ExtendedBy r') {scope : MacroScope} {i : Include}
    (hp : r.resolve t scope dir i = .file p) : r'.resolve t scope dir i = .file p :=
  h.locate hp

/-- The targets of directives do not depend on where they are searched. -/
theorem targets_eq (h : r.ExtendedBy r') (ds : Directives) : r'.targets ds = r.targets ds := by
  unfold targets
  rw [h.macros]

/-- So do all directives of a file, each at its place. -/
theorem resolveAll (h : r.ExtendedBy r') {ds : Directives} {file : Path} {k : Nat} {i : Include}
    (hp : (r.resolveAll t ds file)[k]? = some (i, .file p)) :
    (r'.resolveAll t ds file)[k]? = some (i, .file p) := by
  unfold Resolver.resolveAll at hp ⊢
  rw [List.getElem?_map, Option.map_eq_some_iff] at hp ⊢
  obtain ⟨found, hfound, heq⟩ := hp
  rw [h.targets_eq]
  obtain ⟨hi, hlocate⟩ := Prod.mk.inj heq
  exact ⟨found, hfound, Prod.ext hi (h.locate hlocate)⟩

end ExtendedBy

end Resolver

namespace Scanner

variable {s : Scanner} {t t' : FileTree} {file p : Path} {bytes : List UInt8}

/-- What a directive leads to is a file. -/
theorem isFile_of_mem_resolveAll {r : Resolver} {ds : Directives} {i : Include}
    (h : (i, .file p) ∈ r.resolveAll t ds file) : t.isFile p = true := by
  obtain ⟨found, -, heq⟩ := List.mem_map.mp h
  obtain ⟨-, -, -, q, -, hfile, rfl⟩ := Resolver.locate_eq_file (congrArg Prod.snd heq)
  exact FileTree.isFile_clean hfile

/-- Directives resolve to clean paths. -/
theorem clean_of_mem_resolveAll {r : Resolver} {ds : Directives} {i : Include}
    (h : (i, .file p) ∈ r.resolveAll t ds file) : p.clean = p := by
  obtain ⟨found, -, heq⟩ := List.mem_map.mp h
  obtain ⟨-, -, -, q, -, -, rfl⟩ := Resolver.locate_eq_file (congrArg Prod.snd heq)
  exact Path.clean_clean q

/-- What a directive leads to is a file on the other tree too, if some directive leads to it
there. -/
theorem isFile_of_same_resolved
    (hsame : PathSet.Same (s.scanBytes t file bytes).resolved
      (s.scanBytes t' file bytes).resolved) {i : Include}
    (h : (i, .file p) ∈ s.resolver.resolveAll t (.ofBytes s.imports bytes) file) :
    t'.isFile p = true := by
  have hp : p ∈ (s.scanBytes t file bytes).resolved :=
    mem_resolved_scanBytes.mpr ⟨p, ⟨i, h⟩, .refl p⟩
  obtain ⟨q, ⟨j, hq⟩, hpq⟩ := mem_resolved_scanBytes.mp (hsame.mem_iff.mp hp)
  -- The paths to which directives lead are spelled cleanly, so they are one text.
  rw [← clean_of_mem_resolveAll h, Path.clean_congr hpq, clean_of_mem_resolveAll hq]
  exact isFile_of_mem_resolveAll hq

/-- Directives lead to the same files on two trees if the sets of the files are equal to
which they lead. -/
theorem resolveAll_eq_of_same_resolved
    (hsame : PathSet.Same (s.scanBytes t file bytes).resolved
      (s.scanBytes t' file bytes).resolved) :
    s.resolver.resolveAll t (.ofBytes s.imports bytes) file =
      s.resolver.resolveAll t' (.ofBytes s.imports bytes) file := by
  unfold Resolver.resolveAll
  apply List.map_congr_left
  intro found hfound
  refine Prod.ext rfl (Resolver.locate_eq_of_isFile ?_ ?_)
  · intro p hp
    apply isFile_of_same_resolved (i := found.1) hsame
    exact List.mem_map.mpr ⟨found, hfound, Prod.ext rfl hp⟩
  · intro p hp
    apply isFile_of_same_resolved (i := found.1) hsame.symm
    exact List.mem_map.mpr ⟨found, hfound, Prod.ext rfl hp⟩

/-- To know that nothing has changed it is enough to know the bytes of a file and the set of
the files which it includes: on two trees on which these are the same every directive leads to
the same, and so do the scans of the file. -/
theorem resolveAll_eq_of_scanFile {found found' : Scan} (hread : t.read file = .ok bytes)
    (hread' : t'.read file = .ok bytes) (hscan : s.scanFile t file = .scanned found)
    (hscan' : s.scanFile t' file = .scanned found')
    (hsame : PathSet.Same found.resolved found'.resolved) :
    s.resolver.resolveAll t (.ofBytes s.imports bytes) file =
        s.resolver.resolveAll t' (.ofBytes s.imports bytes) file ∧
      found = found' := by
  unfold scanFile at hscan hscan'
  rw [hread] at hscan
  rw [hread'] at hscan'
  cases hscan
  cases hscan'
  have hresolve := resolveAll_eq_of_same_resolved hsame
  refine ⟨hresolve, ?_⟩
  unfold scanBytes
  dsimp only
  rw [hresolve]

/-- A source `/m` that includes `h` and `k`, and the first of these headers. -/
def sourceAndFirstHeader : FileTree :=
  ((FileTree.bare []).put [['m']]
    (.file (Utf8.encode "#include \"h\"\n#include \"k\"".toList))).put [['h']] (.file [])

/-- The header may change and other files may come as long as none of them is `/k`. -/
theorem resolveAll_eq_of_scanFile_beside :
    let s : Scanner := ⟨false, .ofRoots [] []⟩
    let t := sourceAndFirstHeader
    let t' := (t.put [['h']] (.file (Utf8.encode "\n".toList))).put [['z']] (.file [])
    let file : Path := ⟨['/', 'm']⟩
    let bytes := Utf8.encode "#include \"h\"\n#include \"k\"".toList
    t.read file = .ok bytes ∧ t'.read file = .ok bytes ∧
      PathSet.Same (s.scanBytes t file bytes).resolved (s.scanBytes t' file bytes).resolved ∧
      s.resolver.resolveAll t (.ofBytes s.imports bytes) file =
        s.resolver.resolveAll t' (.ofBytes s.imports bytes) file := by
  intro s t t' file bytes
  have hread : t.read file = .ok bytes := by decide +kernel
  have hread' : t'.read file = .ok bytes := by decide +kernel
  have hsame : PathSet.Same (s.scanBytes t file bytes).resolved
      (s.scanBytes t' file bytes).resolved := by
    decide +kernel
  have hscan : s.scanFile t file = .scanned (s.scanBytes t file bytes) := by
    rw [Scanner.scanFile, hread]
  have hscan' : s.scanFile t' file = .scanned (s.scanBytes t' file bytes) := by
    rw [Scanner.scanFile, hread']
  exact ⟨hread, hread', hsame,
    (resolveAll_eq_of_scanFile hread hread' hscan hscan' hsame).1⟩

end Scanner

end Recompile
