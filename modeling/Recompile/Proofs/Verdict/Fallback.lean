import Recompile.Proofs.Config.Normal
import Recompile.Proofs.FileTree.Listing
import Recompile.Proofs.Verdict.Exactness

/-!
# Inputs when a target is in doubt

When some directive is in doubt, all files below the search roots are taken for inputs, and
so every file is that the directive could lead to (`Config.mem_discoveredInputs_of_resolve`):
the walk of the search roots lists what a bracketed target without `..` steps resolves to.
The two ways to a file agree in its path because normalising makes the search roots absolute
(`Config.isAbsolute_of_mem_roots`); a relative root with a leading `.` would be cleaned to
another path.
-/

set_option autoImplicit false

namespace Recompile

namespace Config

variable {c n : Config} {workingDir p root : Path} {t : FileTree} {previous : Option State}

/-- When some directive is in doubt, whatever is listed below the search roots is an
input. -/
theorem mem_discoveredInputs_of_listed (hdiscover : n.discoverInputs = true)
    (hused : (n.judge t previous).usedMacroInclude = true) {q : Path}
    (hlisted : q ∈ n.resolver.roots.flatMap t.filesAt) (hsame : p.Same q) :
    p ∈ (n.judge t previous).discoveredInputs := by
  have hunder : p ∈ t.filesUnder n.resolver.roots := PathSet.mem_ofList.mpr ⟨q, hlisted, hsame⟩
  obtain ⟨q', hq', hsame'⟩ := PathSet.mem_iff_toList.mp hunder
  have hfallback : n.fallbackInputs t (n.judge t previous).usedMacroInclude =
      (t.filesUnder n.resolver.roots).toList := by
    rw [fallbackInputs, hused, hdiscover]
    rfl
  rw [discoveredInputs_judge, hfallback]
  exact PathSet.mem_addAll.mpr (.inr ⟨q', List.mem_append_right _ hq', hsame'⟩)

/-- When some directive is in doubt, every file to which a bracketed relative target without
`..` steps can be resolved is an input. -/
theorem mem_discoveredInputs_of_resolve (hnormal : c.normalized t.workingPath = .ok n)
    (hdiscover : c.discoverInputs = true)
    (hused : (n.judge t previous).usedMacroInclude = true)
    (hlinks : t.NoLinkedDirectories n.resolver.roots) {i : Include} (hform : i.form = .system)
    (htarget : (Path.ofString i.target).isAbsolute = false)
    (hup : .up ∉ (Path.ofString i.target).components) (scope : MacroScope) (dir : Path)
    (hresolve : n.resolver.resolve t scope dir i = .file p) :
    p ∈ (n.judge t previous).discoveredInputs := by
  have hlocate : n.resolver.locate t dir (some (.system, i.target)) = .file p := by
    rw [← hresolve, Resolver.resolve, Resolver.target?, hform]
  have hsearch : Resolver.search t n.resolver.roots (.ofString i.target) = some p := by
    unfold Resolver.locate at hlocate
    dsimp only [Resolver.searchDirs] at hlocate
    split at hlocate
    · rename_i q hq
      rw [hq, Resolution.file.inj hlocate]
    · cases hlocate
  obtain ⟨q, hcandidate, hfile, rfl⟩ := Resolver.search_eq_some hsearch
  rw [Resolver.candidates, htarget] at hcandidate
  obtain ⟨root, hroot, rfl⟩ := List.mem_map.mp hcandidate
  have hdir : t.workingPath.isAbsolute = true := rfl
  have habs : root.isAbsolute = true :=
    isAbsolute_of_mem_roots hdir hnormal (Path.mem_of_mem_distinct hroot)
  have hnamed : .up ∉ (Path.ofString i.target).named := by
    intro hmem
    rw [Path.components_eq] at hup
    exact hup (List.mem_append_right _ hmem)
  have hlisted := FileTree.mem_filesUnder_of_isFile hlinks hroot
    (Path.chars_ne_nil_of_isAbsolute habs) htarget hnamed hfile
  have hn : n.discoverInputs = true := by rw [eq_of_normalized hnormal, ← hdiscover]
  exact mem_discoveredInputs_of_listed hn hused hlisted
    (Path.clean_join_same_extend habs htarget)

/-- A source `/m` with the line `#include M`, and the header `/r/h`. -/
def sourceInDoubt : FileTree :=
  (((FileTree.bare []).put [['m']] (.file (Utf8.encode "#include M".toList))).put [['r']]
    .directory).put [['h'], ['r']] (.file [])

/-- The header is an input, since `M` may stand for it. -/
theorem mem_discoveredInputs_of_resolve_header :
    let c := { Config.ofUnit "unit" with sources := [⟨['/', 'm']⟩], roots := [⟨['/', 'r']⟩] }
    let t := sourceInDoubt
    let i : Include := ⟨.system, "./h", false, 1⟩
    c.normalized t.workingPath = .ok c ∧ (c.judge t none).usedMacroInclude = true ∧
      t.NoLinkedDirectories c.resolver.roots ∧
      c.resolver.resolve t (.ofExternal []) .here i = .file ⟨['/', 'r', '/', 'h']⟩ ∧
      ⟨['/', 'r', '/', 'h']⟩ ∈ (c.judge t none).discoveredInputs := by
  intro c t i
  have hnormal : c.normalized t.workingPath = .ok c := by decide +kernel
  have hused : (c.judge t none).usedMacroInclude = true := by decide +kernel
  have hlinks : t.NoLinkedDirectories c.resolver.roots := by
    have hfree : t.LinkFree :=
      (((FileTree.linkFree_bare []).put (by simp)).put (by simp)).put (by simp)
    exact fun p dir n target loc _ hentry => absurd hentry (hfree _ _)
  have hresolve : c.resolver.resolve t (.ofExternal []) .here i =
      .file ⟨['/', 'r', '/', 'h']⟩ := by
    decide +kernel
  exact ⟨hnormal, hused, hlinks, hresolve, mem_discoveredInputs_of_resolve hnormal rfl hused
    hlinks rfl (by decide) (by decide) _ _ hresolve⟩

end Config

end Recompile
