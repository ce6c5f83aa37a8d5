import Recompile.Proofs.FileTree.Shape
import Recompile.Proofs.FileTree.Spelling
import Recompile.Proofs.FileTree.Standing
import Recompile.Proofs.Verdict.Exactness

/-!
# After an edit of contents

A run that follows another on a tree of the same shape compiles exactly those sources
again that reached, in the first run, a file with other bytes now
(`Config.contentEdit_recompile_iff`). An edit may change the include directives of the
files through which other files are reached, so the two graphs can be different ones.

For one direction, an unedited source has the same reach in both runs: as long as a chain
goes through unedited files, each of them has the node it had (`Config.scan?_unedited`).
For the other, if a source is left alone, the second graph reaches what is remembered of
the first, so an edited file among those would show by its fingerprint.
-/

set_option autoImplicit false

namespace Recompile

namespace Graph

/-- If no file was unreadable, each node has a scan. -/
theorem isSome_scan?_of_mem {g : Graph} (hread : g.hasUnreadable = false) {p : Path}
    (hp : p ∈ g.nodes) : (g.scan? p).isSome := by
  obtain ⟨n, hn⟩ := PathMap.mem_iff_get?.mp hp
  have hscanned := List.any_eq_false.mp hread n (PathMap.mem_values.mpr ⟨p, hn⟩)
  have hnode : g.node? p = some n := hn
  unfold scan?
  rw [hnode]
  cases n with
  | scanned s => rfl
  | unreadable e => exact absurd rfl hscanned

end Graph

namespace Config

variable {c : Config} {t u : FileTree} {before : Option State} {p q source : Path}

/-- What is remembered of a run is what its scan found. -/
theorem file?_finalState :
    (c.judge t before).finalState.file? p = ((c.graph t).scan? p).map Scan.remembered := by
  rw [finalState_judge, file?_stateOf]

/-- The state of a run remembers of a file what its scan showed. -/
theorem file?_finalState_eq_some {f : FileState} :
    (c.judge t before).finalState.file? p = some f ↔
      ∃ s, (c.graph t).scan? p = some s ∧ s.remembered = f := by
  rw [file?_finalState, Option.map_eq_some_iff]

/-- By what is remembered of a run a source reaches what it reached in that run. -/
theorem reaches_finalState :
    (c.judge t before).finalState.Reaches source p ↔ (c.graph t).Reaches source p := by
  constructor
  · intro h
    induction h with
    | self hself => exact .inl hself
    | step _ hrecorded hincluded ih =>
      obtain ⟨s, hs, rfl⟩ := file?_finalState_eq_some.mp hrecorded
      exact ih.step ⟨s, hs, hincluded⟩
  · intro h
    refine h.induct (fun q hq => .self hq) ?_
    rintro q r - hq ⟨s, hs, hr⟩
    exact hq.step (file?_finalState_eq_some.mpr ⟨s, hs, rfl⟩) hr

/-- A file that was scanned and has not been edited has the same scan on the tree after
the edit, if the scan there comes to it. -/
theorem scan?_unedited (shape : t.SameShape u) {s : Scan} (hs : (c.graph t).scan? p = some s)
    (hmem : p ∈ (c.graph u).nodes) (hsame : ∀ q, p.Same q → t.read q = u.read q) :
    (c.graph u).scan? p = some s := by
  obtain ⟨q, hq, hpq⟩ := PathMap.get?_eq_some_iff.mp (Graph.scan?_eq_some_iff.mp hs)
  obtain ⟨e, he, hpe⟩ := hmem
  obtain rfl : q = e.1 := Graph.node_path_unique hq he (hpq.symm.trans hpe)
  have hnode : Node.scanned s = c.scanner.scanFile t e.1 := Graph.node_eq_scanFile hq
  have hscan : c.scanner.scanFile u e.1 = c.scanner.scanFile t e.1 := by
    unfold Scanner.scanFile
    rw [hsame e.1 hpe]
    split
    · rw [shape.scanBytes_eq]
    · rfl
  rw [Graph.scan?_eq_some_iff]
  refine PathMap.get?_eq_some_iff.mpr ⟨e.1, ?_, hpe⟩
  rw [hnode, ← hscan, ← Graph.node_eq_scanFile he]
  exact he

/-- After an edit of contents a source that reached only unedited files is left alone. -/
theorem kept_of_unedited (shape : t.SameShape u) (declared : source ∈ c.declared)
    (readable : ∀ p, (c.graph t).Reaches source p → ((c.graph t).scan? p).isSome)
    (unedited : ∀ p, (c.graph t).Reaches source p → t.read p = u.read p) :
    source ∉ (c.judge u (some (c.judge t before).finalState)).toRecompile := by
  have hscan : ∀ p, (c.graph t).Reaches source p → (c.graph u).Reaches source p →
      ∃ s, (c.graph t).scan? p = some s ∧ (c.graph u).scan? p = some s := by
    intro p ht hu
    obtain ⟨s, hs⟩ := Option.isSome_iff_exists.mp (readable p ht)
    exact ⟨s, hs, scan?_unedited shape hs (mem_nodes_of_reaches declared hu)
      fun q hpq => unedited q (ht.congr hpq)⟩
  -- No file on a chain of the new graph was edited, so the chain was there before.
  have hreach : ∀ p, (c.graph u).Reaches source p → (c.graph t).Reaches source p := by
    intro p hp
    refine hp.induct (fun q hq => .inl hq) ?_
    rintro q r hu ht ⟨s, hs, hr⟩
    obtain ⟨s', hs', hsu⟩ := hscan q ht hu
    obtain rfl := Option.some.inj (hs.symm.trans hsu)
    exact ht.step ⟨s, hs', hr⟩
  rw [kept_iff_current declared]
  refine ⟨declared, fun p hp => ?_⟩
  obtain ⟨s, hst, hsu⟩ := hscan p (hreach p hp) hp
  exact ⟨s, s.remembered, hsu, file?_finalState_eq_some.mpr ⟨s, hst, rfl⟩, rfl, rfl⟩

/-- After an edit of contents no source that reached an edited file is left alone. -/
theorem unedited_of_kept (shape : t.SameShape u)
    (noCollision : ∀ p a b, t.read p = .ok a → u.read p = .ok b →
      Fingerprint.ofBytes a = Fingerprint.ofBytes b → a = b)
    (declared : source ∈ c.declared)
    (kept : source ∉ (c.judge u (some (c.judge t before).finalState)).toRecompile)
    (hp : (c.graph t).Reaches source p) : t.read p = u.read p := by
  obtain ⟨-, hcurrent⟩ := (kept_iff_current declared).mp kept
  have hreach : (c.graph u).Reaches source p :=
    (Graph.reaches_iff_of_current hcurrent).mpr (reaches_finalState.mpr hp)
  obtain ⟨s, f, hs, hf, hfingerprint, -⟩ := hcurrent p hreach
  obtain ⟨s', hs', rfl⟩ := file?_finalState_eq_some.mp hf
  obtain ⟨q, b, hpq, hb, rfl⟩ := Graph.scan?_build hs
  obtain ⟨q', a, hpq', ha, rfl⟩ := Graph.scan?_build hs'
  have hhash : Fingerprint.ofBytes a = Fingerprint.ofBytes b := hfingerprint.symm
  rcases shape.read_cases p with heq | ⟨a', b', ha', hb'⟩
  · exact heq
  · obtain rfl := FileTree.read_unique hpq' ha' ha
    obtain rfl := FileTree.read_unique hpq hb' hb
    rw [ha', hb', noCollision p a' b' ha' hb' hhash]

/-- A run that follows another one on a tree that differs in contents alone removes
nothing, and it compiles a source again, of which all files could be read, if and only if
the source or a file that it reached has other bytes now. -/
theorem contentEdit_recompile_iff (c : Config) {t u : FileTree} (shape : t.SameShape u)
    (noCollision : ∀ p a b, t.read p = .ok a → u.read p = .ok b →
      Fingerprint.ofBytes a = Fingerprint.ofBytes b → a = b) (before : Option State) :
    let first := c.judge t before
    let second := c.judge u (some first.finalState)
    second.removed = ∅ ∧
      ∀ source ∈ c.declared,
        (∀ p, first.graph.Reaches source p → (first.graph.scan? p).isSome) →
        (source ∈ second.toRecompile ↔
          ∃ p, first.graph.Reaches source p ∧ t.read p ≠ u.read p) := by
  refine ⟨?_, fun source declared readable => ?_⟩
  · refine PathMap.eq_empty_of_forall_not_mem fun p hp => ?_
    obtain ⟨hmem, hnot⟩ := PathSet.mem_diff.mp hp
    exact hnot hmem
  · constructor
    · intro hrecompile
      by_contra hnone
      push Not at hnone
      exact kept_of_unedited shape declared readable hnone hrecompile
    · rintro ⟨p, hp, hne⟩
      by_contra hkept
      exact hne (unedited_of_kept shape noCollision declared hkept hp)

/-- A source `/a` with the line `#include "b"`, and the header `/b` with a given content. -/
def sourceAndHeader (content : List UInt8) : FileTree :=
  ((FileTree.bare []).put [['b']] (.file content)).put [['a']]
    (.file (Utf8.encode "#include \"b\"".toList))

/-- The tree has the two files and the root. -/
theorem entry?_sourceAndHeader (content : List UInt8) (loc : Location) :
    FileTree.entry? (sourceAndHeader content) loc =
      if loc = [['a']] then some (.file (Utf8.encode "#include \"b\"".toList))
      else if loc = [['b']] then some (.file content)
      else if loc = [] then some .directory else none := by
  unfold sourceAndHeader
  rw [FileTree.entry?_put (FileTree.hasRoom_of_missing rfl rfl),
    FileTree.entry?_put (FileTree.hasRoom_of_missing rfl rfl)]
  cases loc with
  | nil => rfl
  | cons => rfl

/-- The source is compiled again after its header was edited. -/
theorem contentEdit_recompile_iff_header :
    let t := sourceAndHeader (Utf8.encode "x".toList)
    let u := sourceAndHeader (Utf8.encode "y".toList)
    let c := { Config.ofUnit "unit" with sources := [⟨['/', 'a']⟩] }
    let source : Path := ⟨['/', 'a']⟩
    t.SameShape u ∧
      (∀ p a b, t.read p = .ok a → u.read p = .ok b →
        Fingerprint.ofBytes a = Fingerprint.ofBytes b → a = b) ∧
      source ∈ c.declared ∧
      (∀ p, (c.judge t none).graph.Reaches source p →
        ((c.judge t none).graph.scan? p).isSome) ∧
      source ∈ (c.judge u (some (c.judge t none).finalState)).toRecompile := by
  intro t u c source
  have shape : t.SameShape u := by
    refine ⟨rfl, fun loc => ?_⟩
    rw [entry?_sourceAndHeader, entry?_sourceAndHeader]
    split_ifs <;> rfl
  have noCollision : ∀ p a b, t.read p = .ok a → u.read p = .ok b →
      Fingerprint.ofBytes a = Fingerprint.ofBytes b → a = b := by
    intro p a b ha hb hhash
    obtain ⟨d, n, -, ha⟩ := FileTree.walk_of_read ha
    obtain ⟨d', n', -, hb⟩ := FileTree.walk_of_read hb
    rw [entry?_sourceAndHeader] at ha hb
    split_ifs at ha hb <;>
      simp only [Option.some.injEq, Entry.file.injEq, reduceCtorEq] at ha hb <;>
      subst ha <;> subst hb <;> revert hhash <;> decide +kernel
  have declared : source ∈ c.declared := by decide
  have readable : ∀ p, (c.judge t none).graph.Reaches source p →
      ((c.judge t none).graph.scan? p).isSome := by
    intro p hp
    have hread : (c.graph t).hasUnreadable = false := by decide +kernel
    exact Graph.isSome_scan?_of_mem hread (mem_nodes_of_reaches declared hp)
  have hreach : (c.judge t none).graph.Reaches source ⟨['/', 'b']⟩ := by decide +kernel
  refine ⟨shape, noCollision, declared, readable, ?_⟩
  exact ((contentEdit_recompile_iff c shape noCollision none).2 source declared readable).mpr
    ⟨_, hreach, by decide +kernel⟩

end Config

end Recompile
