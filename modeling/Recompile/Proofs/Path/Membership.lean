import Mathlib.Data.List.Sort
import Recompile.Path.Map

/-!
# What maps and sets of paths hold

A map is looked at through two questions: which paths are in it, and what it has under
a path. Both are asked up to the spelling of the path (`mem_congr`, `get?_congr`). Each
operation on maps and sets gets one lemma for each question, and no proof outside this
file opens the lists of entries to answer them.

The order of the entries says more than that: two sets with the same members list the
same paths (`PathSet.same_iff`), however those are spelled.
-/

set_option autoImplicit false

namespace Recompile

namespace Path

variable {p q r : Path}

/-- A path is a spelling of itself. -/
theorem Same.refl (p : Path) : p.Same p :=
  rfl

/-- Being spellings of one path is symmetric. -/
theorem Same.symm (h : p.Same q) : q.Same p :=
  Eq.symm h

/-- Being spellings of one path is transitive. -/
theorem Same.trans (h : p.Same q) (h' : q.Same r) : p.Same r :=
  Eq.trans h h'

end Path

namespace PathMap

variable {α β : Type}

/-- A path is in a map if it has an entry, under whatever spelling. -/
instance : Membership Path (PathMap α) :=
  ⟨fun m p => ∃ e ∈ m.entries, p.Same e.1⟩

/-- A path is in a map when some entry is recorded under a spelling of it. -/
theorem mem_iff {m : PathMap α} {p : Path} : p ∈ m ↔ ∃ e ∈ m.entries, p.Same e.1 :=
  Iff.rfl

/-- The path of an entry is in the map. -/
theorem mem_of_mem_entries {m : PathMap α} {e : Path × α} (h : e ∈ m.entries) : e.1 ∈ m :=
  ⟨e, h, .refl _⟩

/-- Whether a path is in a map does not depend on its spelling. -/
theorem mem_congr {m : PathMap α} {p q : Path} (h : p.Same q) : p ∈ m ↔ q ∈ m := by
  constructor
  · rintro ⟨e, he, hp⟩; exact ⟨e, he, h.symm.trans hp⟩
  · rintro ⟨e, he, hq⟩; exact ⟨e, he, h.trans hq⟩

/-- The empty map holds no path. -/
theorem not_mem_empty (p : Path) : p ∉ (∅ : PathMap α) := by
  rintro ⟨e, he, -⟩
  exact List.not_mem_nil he

/-! ## Looking up -/

/-- Two entries for one path are one entry, since entries are in order. -/
theorem entry_unique {m : PathMap α} {e f : Path × α} (he : e ∈ m.entries)
    (hf : f ∈ m.entries) (h : e.1.Same f.1) : e = f := by
  have hright : m.entries.Pairwise fun a b => a.1.Same b.1 → a = b :=
    m.sorted.imp fun hab hs => absurd hab hs.not_lt
  have hleft : m.entries.Pairwise fun a b => b.1.Same a.1 → b = a :=
    m.sorted.imp fun hab hs => absurd hab hs.symm.not_lt
  exact List.Pairwise.forall_of_forall_of_flip (fun _ _ _ => rfl) hright hleft he hf h

/-- What a map has under a path is the value of the entry for that path. -/
theorem get?_eq_some_iff {m : PathMap α} {p : Path} {a : α} :
    m.get? p = some a ↔ ∃ q, (q, a) ∈ m.entries ∧ p.Same q := by
  unfold get?
  rw [Option.map_eq_some_iff]
  constructor
  · rintro ⟨e, he, rfl⟩
    exact ⟨e.1, List.mem_of_find?_eq_some he, by simpa using List.find?_some he⟩
  · rintro ⟨q, hq, hpq⟩
    obtain ⟨e, he⟩ := Option.isSome_iff_exists.mp
      (List.find?_isSome (p := fun e => decide (p.Same e.1))
        |>.mpr ⟨(q, a), hq, by simpa using hpq⟩)
    have hpe : p.Same e.1 := by simpa using List.find?_some he
    have heq := entry_unique (List.mem_of_find?_eq_some he) hq (hpe.symm.trans hpq)
    exact ⟨e, he, by rw [heq]⟩

/-- Looking up the path of an entry gives the entry's value. -/
theorem get?_of_mem_entries {m : PathMap α} {e : Path × α} (h : e ∈ m.entries) :
    m.get? e.1 = some e.2 :=
  get?_eq_some_iff.mpr ⟨e.1, h, .refl _⟩

/-- What a map records for a path does not depend on its spelling. -/
theorem get?_congr {m : PathMap α} {p q : Path} (h : p.Same q) : m.get? p = m.get? q := by
  ext a
  rw [get?_eq_some_iff, get?_eq_some_iff]
  constructor
  · rintro ⟨r, hr, hp⟩; exact ⟨r, hr, h.symm.trans hp⟩
  · rintro ⟨r, hr, hq⟩; exact ⟨r, hr, h.trans hq⟩

/-- A map has a value for exactly the paths that are in it. -/
theorem isSome_get? {m : PathMap α} {p : Path} : (m.get? p).isSome ↔ p ∈ m := by
  rw [Option.isSome_iff_exists]
  constructor
  · rintro ⟨a, ha⟩
    obtain ⟨q, hq, hpq⟩ := get?_eq_some_iff.mp ha
    exact ⟨(q, a), hq, hpq⟩
  · rintro ⟨e, he, hpe⟩
    exact ⟨e.2, get?_eq_some_iff.mpr ⟨e.1, he, hpe⟩⟩

/-- The test for a path decides whether the path is in the map. -/
theorem contains_iff {m : PathMap α} {p : Path} : m.contains p = true ↔ p ∈ m :=
  isSome_get?

instance (m : PathMap α) (p : Path) : Decidable (p ∈ m) :=
  decidable_of_iff _ (contains_iff (m := m) (p := p))

/-- A path is in a map exactly when looking it up gives something. -/
theorem mem_iff_get? {m : PathMap α} {p : Path} : p ∈ m ↔ ∃ a, m.get? p = some a := by
  rw [← isSome_get?, Option.isSome_iff_exists]

/-- Looking up a path that is not in the map gives nothing. -/
theorem get?_eq_none {m : PathMap α} {p : Path} (hp : p ∉ m) : m.get? p = none := by
  rw [← isSome_get?] at hp
  simpa using hp

/-- The keys are the paths of the entries, as they are spelled there. -/
theorem mem_keys {m : PathMap α} {p : Path} : p ∈ m.keys ↔ ∃ a, (p, a) ∈ m.entries := by
  simp [keys]

/-- The values are what the paths of the map are looked up as. -/
theorem mem_values {m : PathMap α} {a : α} : a ∈ m.values ↔ ∃ p, m.get? p = some a := by
  simp only [values, List.mem_map, Prod.exists, exists_eq_right]
  constructor
  · rintro ⟨p, hp⟩; exact ⟨p, get?_of_mem_entries hp⟩
  · rintro ⟨p, hp⟩
    obtain ⟨q, hq, -⟩ := get?_eq_some_iff.mp hp
    exact ⟨q, hq⟩

/-- A map whose entry list is empty has nothing. -/
theorem isEmpty_iff {m : PathMap α} : m.isEmpty = true ↔ ∀ p, p ∉ m := by
  unfold isEmpty
  rw [List.isEmpty_iff]
  constructor
  · rintro h p ⟨e, he, -⟩
    exact List.not_mem_nil (h ▸ he)
  · intro h
    exact List.eq_nil_iff_forall_not_mem.mpr fun e he => h e.1 (mem_of_mem_entries he)

/-- A map that holds no path is the empty one. -/
theorem eq_empty_of_forall_not_mem {m : PathMap α} (h : ∀ p, p ∉ m) : m = ∅ :=
  ext (List.eq_nil_iff_forall_not_mem.mpr fun e he => h e.1 (mem_of_mem_entries he))

/-- A map is determined by what entries it has, since their order always is that of the
paths. -/
theorem ext_of_mem_entries {m n : PathMap α} (h : ∀ e, e ∈ m.entries ↔ e ∈ n.entries) :
    m = n := by
  have : Std.Irrefl fun a b : Path × α => a.1 < b.1 :=
    ⟨fun a => Path.lt_irrefl a.1⟩
  have : Std.Antisymm fun a b : Path × α => a.1 < b.1 :=
    ⟨fun _ _ hab hba => absurd hba (Path.lt_asymm hab)⟩
  exact ext (m.sorted.eq_of_mem_iff n.sorted h)

/-- No path is the key of two entries, since the keys increase. -/
theorem nodup_keys (m : PathMap α) : m.keys.Nodup := by
  apply List.Pairwise.imp _ (List.pairwise_map.mpr m.sorted)
  rintro p _ hlt rfl
  exact Path.lt_irrefl p hlt

/-! ## Putting in -/

/-- The value that was put in is there, under a spelling of its path. -/
theorem insertEntry_self (p : Path) (a : α) (es : List (Path × α)) :
    ∃ q, (q, a) ∈ insertEntry p a es ∧ p.Same q := by
  induction es with
  | nil => exact ⟨p, List.mem_singleton_self _, .refl _⟩
  | cons e es ih =>
    unfold insertEntry
    split
    · exact ⟨p, List.mem_cons_self, .refl _⟩
    · rename_i hpe
      split
      · obtain ⟨q, hq, h⟩ := ih
        exact ⟨q, List.mem_cons_of_mem _ hq, h⟩
      · rename_i hep
        exact ⟨e.1, List.mem_cons_self, Path.same_of_not_lt hpe hep⟩

/-- Entries for other paths stay. -/
theorem mem_insertEntry_of_not_same {p : Path} {a : α} {es : List (Path × α)}
    {x : Path × α} (hx : ¬ x.1.Same p) : x ∈ insertEntry p a es ↔ x ∈ es := by
  induction es with
  | nil =>
    simp only [insertEntry, List.mem_singleton, List.not_mem_nil, iff_false]
    rintro rfl
    exact hx (.refl _)
  | cons e es ih =>
    unfold insertEntry
    split
    · rw [List.mem_cons, or_iff_right]
      rintro rfl
      exact hx (.refl _)
    · rename_i hpe
      split
      · rw [List.mem_cons, List.mem_cons, ih]
      · rename_i hep
        have hsame := Path.same_of_not_lt hpe hep
        rw [List.mem_cons, List.mem_cons, or_congr_left]
        constructor
        · rintro rfl
          exact absurd hsame.symm hx
        · rintro rfl
          exact absurd hsame.symm hx

/-- An entry that is there already is not put in once more. -/
theorem insert_of_mem_entries {m : PathMap α} {p q : Path} {a : α} (h : (q, a) ∈ m.entries)
    (hpq : p.Same q) : m.insert p a = m := by
  obtain ⟨es, hsorted⟩ := m
  apply ext
  change insertEntry p a es = es
  have hq : (q, a) ∈ es := h
  clear h
  induction es with
  | nil => exact absurd hq List.not_mem_nil
  | cons e es ih =>
    obtain ⟨hhead, htail⟩ := List.pairwise_cons.mp hsorted
    unfold insertEntry
    rcases List.mem_cons.mp hq with rfl | hq
    · rw [if_neg hpq.not_lt, if_neg hpq.symm.not_lt]
    · have hlt : e.1 < q := hhead _ hq
      have hep : ¬ p < e.1 := fun h => Path.lt_asymm hlt (hpq.lt_left.mp h)
      rw [if_neg hep, ih htail hq]
      split
      · rfl
      · rename_i hpe
        exact absurd hlt ((Path.same_of_not_lt hep hpe).symm.trans hpq).not_lt

/-- A path that is new makes a map larger by one. -/
theorem size_insert {m : PathMap α} {p : Path} {a : α} (h : p ∉ m) :
    (m.insert p a).size = m.size + 1 := by
  obtain ⟨es, hsorted⟩ := m
  have hfresh : ∀ e ∈ es, ¬ p.Same e.1 := fun e he hpe => h ⟨e, he, hpe⟩
  change (insertEntry p a es).length = es.length + 1
  clear h hsorted
  induction es with
  | nil => rfl
  | cons e es ih =>
    unfold insertEntry
    split
    · rfl
    · rename_i hpe
      split
      · rw [List.length_cons, ih fun f hf => hfresh f (List.mem_cons_of_mem _ hf),
          List.length_cons]
      · rename_i hep
        exact absurd (Path.same_of_not_lt hpe hep) (hfresh e List.mem_cons_self)

/-- An entry after insertion is the new one or an old one, unless the path was there. -/
theorem mem_entries_insert {m : PathMap α} {p : Path} {a : α} {x : Path × α}
    (hp : p ∉ m) : x ∈ (m.insert p a).entries ↔ x = (p, a) ∨ x ∈ m.entries := by
  by_cases hx : x.1.Same p
  · have hnot : x ∉ m.entries := fun h => hp ⟨x, h, hx.symm⟩
    rw [or_iff_left hnot]
    obtain ⟨q, hq, hpq⟩ := insertEntry_self p a m.entries
    have hqp : q = p := by
      rcases mem_insertEntry hq with h | ⟨e, he, h⟩
      · exact h
      · exact absurd ⟨e, he, h ▸ hpq⟩ hp
    constructor
    · intro h
      rw [entry_unique h hq (hx.trans hpq), hqp]
    · rintro rfl
      rw [← hqp]
      exact hqp ▸ hq
  · have hne : x ≠ (p, a) := fun h => hx (h ▸ .refl _)
    rw [or_iff_right hne]
    exact mem_insertEntry_of_not_same hx

/-- After an insertion the path has the new value and every other path the one it had. -/
theorem get?_insert {m : PathMap α} {p q : Path} {a : α} :
    (m.insert p a).get? q = if q.Same p then some a else m.get? q := by
  by_cases h : q.Same p
  · rw [if_pos h, get?_eq_some_iff]
    obtain ⟨r, hr, hpr⟩ := insertEntry_self p a m.entries
    exact ⟨r, hr, h.trans hpr⟩
  · rw [if_neg h]
    ext b
    rw [get?_eq_some_iff, get?_eq_some_iff]
    refine exists_congr fun r => and_congr_left fun hqr => ?_
    exact mem_insertEntry_of_not_same fun hrp => h (hqr.trans hrp)

/-- After an insertion the map holds the new path and those it held. -/
theorem mem_insert {m : PathMap α} {p q : Path} {a : α} :
    q ∈ m.insert p a ↔ q.Same p ∨ q ∈ m := by
  rw [← isSome_get?, get?_insert, ← isSome_get?]
  split <;> simp_all

/-- After several insertions the map holds the new paths and those it held. -/
theorem mem_insertAll {m : PathMap α} {es : List (Path × α)} {p : Path} :
    p ∈ m.insertAll es ↔ p ∈ m ∨ ∃ e ∈ es, p.Same e.1 := by
  unfold insertAll
  induction es generalizing m with
  | nil => simp
  | cons e es ih =>
    rw [List.foldl_cons, ih, mem_insert, List.exists_mem_cons_iff, or_comm (a := p.Same e.1),
      or_assoc]

/-- Entries for distinct paths that are not there yet all get in as they are. -/
theorem mem_entries_insertAll {m : PathMap α} {es : List (Path × α)} {x : Path × α}
    (distinct : es.Pairwise fun e f => ¬ f.1.Same e.1) (fresh : ∀ e ∈ es, e.1 ∉ m) :
    x ∈ (m.insertAll es).entries ↔ x ∈ m.entries ∨ x ∈ es := by
  unfold insertAll
  induction es generalizing m with
  | nil => simp
  | cons e es ih =>
    obtain ⟨hhead, htail⟩ := List.pairwise_cons.mp distinct
    have hfresh : ∀ f ∈ es, f.1 ∉ m.insert e.1 e.2 := by
      intro f hf hmem
      rcases mem_insert.mp hmem with h | h
      · exact hhead f hf h
      · exact fresh f (List.mem_cons_of_mem _ hf) h
    rw [List.foldl_cons, ih htail hfresh, mem_entries_insert (fresh e List.mem_cons_self),
      List.mem_cons, or_comm (a := x = e), or_assoc]

/-! ## Choosing entries -/

/-- A filtered map records what the entries that were kept record. -/
theorem get?_filter {m : PathMap α} {keep : Path → α → Bool} {p : Path} {a : α} :
    (m.filter keep).get? p = some a ↔ ∃ q, (q, a) ∈ m.entries ∧ p.Same q ∧ keep q a = true := by
  rw [get?_eq_some_iff]
  refine exists_congr fun q => ?_
  rw [filter, List.mem_filter, and_assoc, and_comm (a := keep q a = true)]

/-- A filtered map holds the paths of the entries that were kept. -/
theorem mem_filter {m : PathMap α} {keep : Path → α → Bool} {p : Path} :
    p ∈ m.filter keep ↔ ∃ e ∈ m.entries, p.Same e.1 ∧ keep e.1 e.2 = true := by
  rw [mem_iff_get?]
  constructor
  · rintro ⟨a, ha⟩
    obtain ⟨q, hq, h⟩ := get?_filter.mp ha
    exact ⟨(q, a), hq, h⟩
  · rintro ⟨e, he, h⟩
    exact ⟨e.2, get?_filter.mpr ⟨e.1, he, h⟩⟩

/-- The entries of a map whose values are replaced or dropped, each with the entry it came from.
-/
theorem mem_entries_filterMap {m : PathMap α} {f : Path → α → Option β} {p : Path} {b : β} :
    (p, b) ∈ (m.filterMap f).entries ↔ ∃ a, (p, a) ∈ m.entries ∧ f p a = some b := by
  rw [filterMap, List.mem_filterMap]
  constructor
  · rintro ⟨⟨q, a⟩, ha, hb⟩
    obtain ⟨c, hc, heq⟩ := Option.map_eq_some_iff.mp hb
    obtain ⟨rfl, rfl⟩ := Prod.mk.inj heq
    exact ⟨a, ha, hc⟩
  · rintro ⟨a, ha, hb⟩
    exact ⟨(p, a), ha, by rw [hb]; rfl⟩

/-- A map whose values are replaced or dropped holds the paths whose value was not dropped. -/
theorem mem_filterMap {m : PathMap α} {f : Path → α → Option β} {p : Path} :
    p ∈ m.filterMap f ↔ ∃ e ∈ m.entries, p.Same e.1 ∧ (f e.1 e.2).isSome := by
  constructor
  · rintro ⟨⟨q, b⟩, he, hp⟩
    obtain ⟨a, ha, hb⟩ := mem_entries_filterMap.mp he
    exact ⟨(q, a), ha, hp, by rw [hb]; rfl⟩
  · rintro ⟨⟨q, a⟩, he, hp, hf⟩
    obtain ⟨b, hb⟩ := Option.isSome_iff_exists.mp hf
    exact ⟨(q, b), mem_entries_filterMap.mpr ⟨a, he, hb⟩, hp⟩

/-- A choice that looks at the values alone commutes with looking up. -/
theorem get?_filterMap {m : PathMap α} {f : α → Option β} {p : Path} :
    (m.filterMap fun _ a => f a).get? p = (m.get? p).bind f := by
  ext b
  rw [get?_eq_some_iff, Option.bind_eq_some_iff]
  constructor
  · rintro ⟨q, hq, hpq⟩
    obtain ⟨a, ha, hb⟩ := mem_entries_filterMap.mp hq
    exact ⟨a, get?_eq_some_iff.mpr ⟨q, ha, hpq⟩, hb⟩
  · rintro ⟨a, ha, hb⟩
    obtain ⟨q, hq, hpq⟩ := get?_eq_some_iff.mp ha
    exact ⟨q, mem_entries_filterMap.mpr ⟨a, hq, hb⟩, hpq⟩

/-- Replacing the values of a map leaves its paths as they are. -/
theorem mem_map {m : PathMap α} {f : Path → α → β} {p : Path} : p ∈ m.map f ↔ p ∈ m := by
  unfold map
  rw [mem_filterMap]
  simp [mem_iff]

/-- A value that depends on the path, but not on its spelling. -/
theorem get?_map_of_mem {m : PathMap α} {f : Path → β} (hf : ∀ q r : Path, q.Same r → f q = f r)
    {p : Path} (hp : p ∈ m) : (m.map fun q _ => f q).get? p = some (f p) := by
  obtain ⟨e, he, hpe⟩ := hp
  refine get?_eq_some_iff.mpr ⟨e.1, mem_entries_filterMap.mpr ⟨e.2, he, ?_⟩, hpe⟩
  rw [hf p e.1 hpe]

end PathMap

namespace PathSet

variable {s t : PathSet} {p q : Path}

/-- The listed paths of a set are its entries. -/
theorem mem_toList : p ∈ s.toList ↔ (p, ()) ∈ s.entries := by
  unfold toList
  rw [PathMap.mem_keys]
  exact ⟨fun ⟨_, h⟩ => h, fun h => ⟨(), h⟩⟩

/-- A path is in a set when some spelling of it is listed. -/
theorem mem_iff_toList : p ∈ s ↔ ∃ q ∈ s.toList, p.Same q := by
  constructor
  · rintro ⟨e, he, h⟩
    exact ⟨e.1, mem_toList.mpr he, h⟩
  · rintro ⟨q, hq, h⟩
    exact ⟨(q, ()), mem_toList.mp hq, h⟩

/-- A listed path is in the set. -/
theorem mem_of_mem_toList (h : p ∈ s.toList) : p ∈ s :=
  mem_iff_toList.mpr ⟨p, h, .refl _⟩

/-- A set lists each path under one spelling. -/
theorem eq_of_same (hp : p ∈ s.toList) (hq : q ∈ s.toList) (h : p.Same q) : p = q :=
  congrArg Prod.fst (PathMap.entry_unique (mem_toList.mp hp) (mem_toList.mp hq) h)

/-- A set is empty exactly when it lists nothing. -/
theorem isEmpty_iff_toList : PathMap.isEmpty s = true ↔ s.toList = [] := by
  unfold PathMap.isEmpty toList PathMap.keys
  rw [List.isEmpty_iff, List.map_eq_nil_iff]

/-- A set that is not empty lists some path. -/
theorem exists_mem_toList (h : ¬PathMap.isEmpty s = true) : ∃ q, q ∈ s.toList :=
  List.exists_mem_of_ne_nil _ fun hnil => h (isEmpty_iff_toList.mpr hnil)

/-- Adding a path adds all its spellings and nothing else. -/
theorem mem_add : q ∈ s.add p ↔ q.Same p ∨ q ∈ s :=
  PathMap.mem_insert

/-- A path of the list after adding one is that one or was there. -/
theorem mem_toList_add (h : q ∈ (s.add p).toList) : q = p ∨ q ∈ s.toList := by
  rcases PathMap.mem_insertEntry (mem_toList.mp h) with h | ⟨e, he, h⟩
  · exact .inl h
  · have hq : q = e.1 := h
    exact .inr (mem_toList.mpr (hq ▸ he))

/-- Adding several paths adds all their spellings and nothing else. -/
theorem mem_addAll {ps : List Path} : q ∈ s.addAll ps ↔ q ∈ s ∨ ∃ p ∈ ps, q.Same p := by
  unfold addAll
  induction ps generalizing s with
  | nil => simp
  | cons p ps ih =>
    rw [List.foldl_cons, ih, mem_add, List.exists_mem_cons_iff, or_comm (a := q.Same p), or_assoc]

/-- A path that is in a set stays as it is spelled there. -/
theorem add_of_mem (h : p ∈ s) : s.add p = s := by
  obtain ⟨q, hq, hpq⟩ := mem_iff_toList.mp h
  exact PathMap.insert_of_mem_entries (mem_toList.mp hq) hpq

/-- The paths of the list after adding some are spelled as they were, or new. -/
theorem mem_toList_addAll {ps : List Path} (h : q ∈ (s.addAll ps).toList) :
    q ∈ s.toList ∨ q ∈ ps ∧ q ∉ s := by
  unfold addAll at h
  induction ps generalizing s with
  | nil => exact .inl h
  | cons p ps ih =>
    rcases ih (s := s.add p) h with h | ⟨hps, hnot⟩
    · by_cases hp : p ∈ s
      · rw [add_of_mem hp] at h
        exact .inl h
      · rcases mem_toList_add h with rfl | h
        · exact .inr ⟨List.mem_cons_self, hp⟩
        · exact .inl h
    · exact .inr ⟨List.mem_cons_of_mem _ hps, fun hq => hnot (mem_add.mpr (.inr hq))⟩

/-- The set of a list holds the spellings of the listed paths. -/
theorem mem_ofList {ps : List Path} : q ∈ ofList ps ↔ ∃ p ∈ ps, q.Same p := by
  unfold ofList
  induction ps with
  | nil => simp [PathMap.not_mem_empty]
  | cons p ps ih => rw [List.foldr_cons, mem_add, ih, List.exists_mem_cons_iff]

/-- A set keeps one of the spellings it was given, and makes up none. -/
theorem mem_toList_ofList {ps : List Path} (h : q ∈ (ofList ps).toList) : q ∈ ps := by
  unfold ofList at h
  induction ps with
  | nil => exact absurd (mem_of_mem_toList h) (PathMap.not_mem_empty q)
  | cons p ps ih =>
    rcases mem_toList_add h with rfl | h
    · exact List.mem_cons_self
    · exact List.mem_cons_of_mem _ (ih h)

/-- A set without the paths of a map. -/
theorem mem_filter_not_mem {α : Type} {m : PathMap α} :
    q ∈ PathMap.filter s (fun p _ => !m.contains p) ↔ q ∈ s ∧ q ∉ m := by
  rw [PathMap.mem_filter]
  constructor
  · rintro ⟨e, he, hq, hnot⟩
    have hem : e.1 ∉ m := by
      rw [← PathMap.contains_iff, Bool.not_eq_true]
      simpa using hnot
    exact ⟨⟨e, he, hq⟩, fun h => hem ((PathMap.mem_congr hq).mp h)⟩
  · rintro ⟨⟨e, he, hq⟩, hnot⟩
    have hem : e.1 ∉ m := fun h => hnot ((PathMap.mem_congr hq).mpr h)
    rw [← PathMap.contains_iff, Bool.not_eq_true] at hem
    exact ⟨e, he, hq, by rw [hem]; rfl⟩

/-- A set without the paths of a map keeps the spellings of the others. -/
theorem mem_toList_filter {keep : Path → Unit → Bool}
    (h : q ∈ toList (PathMap.filter s keep)) : q ∈ s.toList :=
  mem_toList.mpr (List.mem_filter.mp (mem_toList.mp h)).1

/-- The difference of two sets holds what the first holds and the second does not. -/
theorem mem_diff : q ∈ s.diff t ↔ q ∈ s ∧ q ∉ t :=
  mem_filter_not_mem

/-- The places of the paths of a set, in order and without repetition. -/
theorem sorted_keys (s : PathSet) : (s.toList.map Path.key).Pairwise (· < ·) := by
  unfold toList PathMap.keys
  rw [List.map_map, List.pairwise_map]
  exact s.sorted

/-- Two sets have the same list of paths, up to spelling, if they have the same members. -/
theorem same_iff : Same s t ↔ ∀ p, p ∈ s ↔ p ∈ t := by
  have hmem : ∀ (u : PathSet) (p : Path), p ∈ u ↔ p.key ∈ u.toList.map Path.key := by
    intro u p
    rw [mem_iff_toList, List.mem_map]
    refine exists_congr fun q => and_congr_right fun _ => ?_
    rw [eq_comm, Path.key_eq_iff]
  have hkeys : ∀ u : PathSet,
      (u.toList.map Path.components).map (List.map Path.Component.key) = u.toList.map Path.key :=
    fun u => List.map_map
  constructor
  · intro h p
    rw [hmem, hmem, ← hkeys s, ← hkeys t, show s.toList.map Path.components = _ from h]
  · intro h
    have hkey : s.toList.map Path.key = t.toList.map Path.key := by
      refine (sorted_keys s).eq_of_mem_iff (sorted_keys t) fun k => ?_
      constructor
      · intro hk
        obtain ⟨p, hp, rfl⟩ := List.mem_map.mp hk
        exact (hmem t p).mp ((h p).mp (mem_of_mem_toList hp))
      · intro hk
        obtain ⟨p, hp, rfl⟩ := List.mem_map.mp hk
        exact (hmem s p).mp ((h p).mpr (mem_of_mem_toList hp))
    rw [← hkeys s, ← hkeys t] at hkey
    refine List.map_injective_iff.mpr (fun a b hab => ?_) hkey
    exact List.map_injective_iff.mpr (fun c d => Path.Component.key_inj) hab

/-- Holding the same paths is symmetric. -/
theorem Same.symm (h : Same s t) : Same t s :=
  Eq.symm h

/-- Holding the same paths is transitive. -/
theorem Same.trans {u : PathSet} (h : Same s t) (h' : Same t u) : Same s u :=
  Eq.trans h h'

/-- A path is in both or in neither of two sets with the same paths. -/
theorem Same.mem_iff (h : Same s t) : p ∈ s ↔ p ∈ t :=
  same_iff.mp h p

end PathSet

end Recompile
