import Recompile.Path.Order

/-!
# Maps and sets of paths

A map keeps its entries in path order, one for each path; that invariant is part of
the type, so a map is determined by its entries. Putting a value under a path that is
there already replaces the value and keeps the spelling of the path. A set is a map
without values.
-/

set_option autoImplicit false

namespace Recompile

/-- Values for finitely many paths, in path order. -/
structure PathMap (α : Type) where
  entries : List (Path × α)
  sorted : entries.Pairwise fun a b => a.1 < b.1

/-- Finitely many paths, in path order. -/
abbrev PathSet : Type :=
  PathMap Unit

namespace PathMap

variable {α β : Type}

/-- Two maps with the same entries are equal, since the order of the entries is only a proof. -/
theorem ext {m n : PathMap α} (h : m.entries = n.entries) : m = n := by
  cases m; cases n; simp_all

instance [DecidableEq α] : DecidableEq (PathMap α) := fun m n =>
  if h : m.entries = n.entries then isTrue (ext h) else isFalse fun he => h (he ▸ rfl)

instance [Repr α] : Repr (PathMap α) :=
  ⟨fun m n => reprPrec m.entries n⟩

/-- The map without entries. -/
def empty : PathMap α :=
  ⟨[], .nil⟩

instance : EmptyCollection (PathMap α) :=
  ⟨empty⟩

instance : Inhabited (PathMap α) :=
  ⟨empty⟩

/-- The paths of a map, in order. -/
def keys (m : PathMap α) : List Path :=
  m.entries.map Prod.fst

/-- The values of a map, in the order of their paths. -/
def values (m : PathMap α) : List α :=
  m.entries.map Prod.snd

/-- The number of entries. -/
def size (m : PathMap α) : Nat :=
  m.entries.length

/-- Whether a map has no entries. -/
def isEmpty (m : PathMap α) : Bool :=
  m.entries.isEmpty

/-- The value of a path. -/
def get? (m : PathMap α) (p : Path) : Option α :=
  (m.entries.find? fun e => p.Same e.1).map Prod.snd

/-- Whether a path has an entry. -/
def contains (m : PathMap α) (p : Path) : Bool :=
  (m.get? p).isSome

/-- Puts an entry at its place among sorted entries. -/
def insertEntry (p : Path) (a : α) : List (Path × α) → List (Path × α)
  | [] => [(p, a)]
  | e :: es =>
    if p < e.1 then (p, a) :: e :: es
    else if e.1 < p then e :: insertEntry p a es
    else (e.1, a) :: es

/-- An entry after insertion has the path of the new entry or of an old one. -/
theorem mem_insertEntry {p : Path} {a : α} {es : List (Path × α)} {x : Path × α}
    (hx : x ∈ insertEntry p a es) : x.1 = p ∨ ∃ e ∈ es, x.1 = e.1 := by
  induction es with
  | nil => exact .inl (by simp_all [insertEntry])
  | cons e es ih =>
    unfold insertEntry at hx
    split at hx
    · rcases List.mem_cons.1 hx with rfl | hx
      · exact .inl rfl
      · exact .inr ⟨x, hx, rfl⟩
    · split at hx
      · rcases List.mem_cons.1 hx with rfl | hx
        · exact .inr ⟨x, List.mem_cons_self, rfl⟩
        · rcases ih hx with h | ⟨y, hy, h⟩
          · exact .inl h
          · exact .inr ⟨y, List.mem_cons_of_mem _ hy, h⟩
      · rcases List.mem_cons.1 hx with rfl | hx
        · exact .inr ⟨e, List.mem_cons_self, rfl⟩
        · exact .inr ⟨x, List.mem_cons_of_mem _ hx, rfl⟩

/-- Insertion keeps entries in order. -/
theorem sorted_insertEntry (p : Path) (a : α) {es : List (Path × α)}
    (h : es.Pairwise fun a b => a.1 < b.1) :
    (insertEntry p a es).Pairwise fun a b => a.1 < b.1 := by
  induction es with
  | nil => simp [insertEntry]
  | cons e es ih =>
    obtain ⟨he, hes⟩ := List.pairwise_cons.1 h
    unfold insertEntry
    split
    · rename_i hp
      refine List.pairwise_cons.2 ⟨fun x hx => ?_, h⟩
      rcases List.mem_cons.1 hx with rfl | hx
      · exact hp
      · exact Path.lt_trans hp (he x hx)
    · split
      · rename_i hp
        refine List.pairwise_cons.2 ⟨fun x hx => ?_, ih hes⟩
        rcases mem_insertEntry hx with h | ⟨y, hy, h⟩
        · exact h ▸ hp
        · exact h ▸ he y hy
      · exact List.pairwise_cons.2 ⟨he, hes⟩

/-- The map with a value under a path. -/
def insert (m : PathMap α) (p : Path) (a : α) : PathMap α :=
  ⟨insertEntry p a m.entries, sorted_insertEntry p a m.sorted⟩

/-- The entries that satisfy a test. -/
def filter (m : PathMap α) (keep : Path → α → Bool) : PathMap α :=
  ⟨m.entries.filter fun e => keep e.1 e.2, m.sorted.filter _⟩

/-- The entries whose values are mapped to something, with what they are mapped to. -/
def filterMap (m : PathMap α) (f : Path → α → Option β) : PathMap β where
  entries := m.entries.filterMap fun e => (f e.1 e.2).map (e.1, ·)
  sorted := by
    refine m.sorted.filterMap _ fun a a' h b hb b' hb' => ?_
    obtain ⟨x, -, rfl⟩ := Option.map_eq_some_iff.1 hb
    obtain ⟨y, -, rfl⟩ := Option.map_eq_some_iff.1 hb'
    exact h

/-- The map with each value replaced. -/
def map (m : PathMap α) (f : Path → α → β) : PathMap β :=
  m.filterMap fun p a => some (f p a)

/-- The map with further entries put into it one after the other. -/
def insertAll (m : PathMap α) (es : List (Path × α)) : PathMap α :=
  es.foldl (fun m e => m.insert e.1 e.2) m

end PathMap

namespace PathSet

/-- The paths of a set, in order. -/
def toList (s : PathSet) : List Path :=
  s.keys

/-- The set with a path; a path that is there already keeps its spelling. -/
def add (s : PathSet) (p : Path) : PathSet :=
  s.insert p ()

/-- The set with further paths, added one after the other. -/
def addAll (s : PathSet) (ps : List Path) : PathSet :=
  ps.foldl add s

/-- The set of the paths of a list; of several spellings of one path the last stays. -/
def ofList (ps : List Path) : PathSet :=
  ps.foldr (fun p s => s.add p) ∅

/-- The paths of one set that are not in another. -/
def diff (s t : PathSet) : PathSet :=
  PathMap.filter s fun p _ => !t.contains p

/-- Whether two sets have the same paths, however they are spelled. -/
def Same (s t : PathSet) : Prop :=
  s.toList.map Path.components = t.toList.map Path.components

instance (s t : PathSet) : Decidable (Same s t) :=
  inferInstanceAs (Decidable (s.toList.map Path.components = t.toList.map Path.components))

end PathSet

end Recompile
