import Recompile.Proofs.Json.RoundTrip
import Recompile.State.Codec

/-!
# Records are read as they were written

A state that is written and read back is the same state, with the spellings of its paths
(`State.ofJson?_toJson`), and so is a record (`Record.decode?_encode`). Sets and maps are
written in path order, and entries that come in path order are put behind each other.
-/

set_option autoImplicit false

namespace Recompile

/-! ## Lists and records -/

/-- Items that are decoded from what they are encoded to make up the list again. -/
theorem mapM_map_eq_some {α β : Type} {encode : α → β} {decode : β → Option α} {items : List α}
    (h : ∀ item ∈ items, decode (encode item) = some item) :
    (items.map encode).mapM decode = some items := by
  induction items with
  | nil => rfl
  | cons item items ih =>
    rw [List.map_cons, List.mapM_cons, h item List.mem_cons_self,
      ih fun i hi => h i (List.mem_cons_of_mem _ hi)]
    rfl

/-- The fields of a record are those it was made of. -/
theorem Json.fields?_record (fields : List (String × Json)) :
    (Json.record fields).fields? = some fields :=
  mapM_map_eq_some fun _ _ => rfl

/-- The members of an object with readable keys are looked up by their names. -/
theorem Json.members?_record (names : List String) (fields : List (String × Json)) :
    (Json.record fields).members? names = names.mapM (Json.uniqueField? fields) := by
  show (Json.record fields).objectMembers? names = _
  rw [Json.objectMembers?, Json.fields?_record]
  rfl

/-! ## Sets and maps -/

namespace PathMap

variable {α : Type}

/-- An entry that comes after all others in path order is put behind them. -/
theorem insertEntry_eq_append {p : Path} {a : α} {es : List (Path × α)}
    (h : ∀ e ∈ es, e.1 < p) : insertEntry p a es = es ++ [(p, a)] := by
  induction es with
  | nil => rfl
  | cons e es ih =>
    have he := h e List.mem_cons_self
    rw [insertEntry, if_neg (Path.lt_asymm he), if_pos he,
      ih fun e he => h e (List.mem_cons_of_mem _ he)]
    rfl

/-- Entries that come in path order, after those of a map, are put behind them. -/
theorem entries_insertAll {m : PathMap α} {es : List (Path × α)}
    (h : (m.entries ++ es).Pairwise fun a b => a.1 < b.1) :
    (m.insertAll es).entries = m.entries ++ es := by
  induction es generalizing m with
  | nil => exact (List.append_nil _).symm
  | cons e es ih =>
    have hlast : ∀ x ∈ m.entries, x.1 < e.1 := fun x hx =>
      (List.pairwise_append.mp h).2.2 x hx e List.mem_cons_self
    have hinsert : (m.insert e.1 e.2).entries = m.entries ++ [e] :=
      insertEntry_eq_append hlast
    show ((m.insert e.1 e.2).insertAll es).entries = _
    rw [ih, hinsert, List.append_assoc]
    · rfl
    · rw [hinsert, List.append_assoc]
      exact h

/-- Inserting the entries of a map one by one gives the map. -/
theorem insertAll_entries (m : PathMap α) : insertAll ∅ m.entries = m :=
  ext (entries_insertAll m.sorted)

end PathMap

namespace PathSet

/-- The paths of a set make up the set again. -/
theorem addAll_toList (s : PathSet) : addAll ∅ s.toList = s := by
  have hadd : ∀ (es : List (Path × Unit)) (s' : PathSet),
      (es.map Prod.fst).foldl add s' = PathMap.insertAll s' es := by
    intro es s'
    rw [List.foldl_map]
    rfl
  have hall : addAll ∅ s.toList = PathMap.insertAll ∅ s.entries := hadd s.entries ∅
  rw [hall, PathMap.insertAll_entries]

end PathSet

/-! ## States -/

/-- A path is read back from its text. -/
theorem Path.ofString_toString (p : Path) : Path.ofString p.toString = p := by
  simp [Path.ofString, Path.toString]

/-- A path is read back from its JSON value. -/
theorem Path.ofJson?_toJson (p : Path) : Path.ofJson? p.toJson = some p := by
  show some (Path.ofString p.toString) = some p
  rw [Path.ofString_toString]

/-- A set of paths is read back from its JSON value. -/
theorem PathSet.ofJson?_toJson (s : PathSet) : PathSet.ofJson? s.toJson = some s := by
  have hlist : s.toJson.list? Path.ofJson? = some s.toList :=
    mapM_map_eq_some fun p _ => p.ofJson?_toJson
  rw [PathSet.ofJson?, hlist, Option.map_some, PathSet.addAll_toList]

/-- The state of a file is read back from its JSON value. -/
theorem FileState.ofJson?_toJson (f : FileState) : FileState.ofJson? f.toJson = some f := by
  have hmembers : f.toJson.members? ["fingerprint", "resolved_includes"] =
      some [some (.string f.fingerprint.text), some (PathSet.toJson f.resolved)] := by
    rw [FileState.toJson, Json.members?_record]
    rfl
  rw [FileState.ofJson?, hmembers]
  simp [Json.needed, Json.given, Json.string, Json.text?, PathSet.ofJson?_toJson]

namespace State

/-- The states of files are read back from their record. -/
theorem filesOfJson?_record (files : PathMap FileState) :
    filesOfJson? (.record (files.entries.map fun e => (e.1.toString, e.2.toJson))) =
      some files := by
  have hentries : (files.entries.map fun e => (e.1.toString, e.2.toJson)).mapM
      (fun f => (FileState.ofJson? f.2).map (Path.ofString f.1, ·)) = some files.entries := by
    refine mapM_map_eq_some fun e _ => ?_
    rw [FileState.ofJson?_toJson, Option.map_some, Path.ofString_toString]
  rw [filesOfJson?, Json.fields?_record]
  simp only [Option.bind_eq_bind, Option.bind_some, hentries, PathMap.insertAll_entries]

/-- A state is decoded from what it is encoded to. -/
theorem ofJson?_toJson (s : State) : ofJson? s.toJson = some s := by
  have hmembers : s.toJson.members? ["sources", "files", "used_macro_include"] =
      some [some (PathSet.toJson s.sources),
        some (.record (s.files.entries.map fun e => (e.1.toString, e.2.toJson))),
        some (.bool s.usedMacroInclude)] := by
    rw [toJson, Json.members?_record]
    rfl
  rw [ofJson?, hmembers]
  simp [Json.given, Json.bool?, PathSet.ofJson?_toJson, filesOfJson?_record]

end State

/-! ## Values that are written without spelled numbers -/

/-- The JSON value of a set of paths is plain. -/
theorem PathSet.plain_toJson (s : PathSet) : s.toJson.Plain := by
  refine Json.plainItems_iff.mpr fun item hitem => ?_
  obtain ⟨p, -, rfl⟩ := List.mem_map.mp hitem
  trivial

/-- A record of plain values is plain. -/
theorem Json.plain_record {fields : List (String × Json)} (h : ∀ f ∈ fields, f.2.Plain) :
    (Json.record fields).Plain := by
  refine Json.plainFields_iff.mpr fun field hfield => ?_
  obtain ⟨f, hf, rfl⟩ := List.mem_map.mp hfield
  exact h f hf

/-- The JSON value of a file's state is plain. -/
theorem FileState.plain_toJson (f : FileState) : f.toJson.Plain := by
  refine Json.plain_record ?_
  simpa using ⟨trivial, f.resolved.plain_toJson⟩

/-- The JSON value of a state is plain. -/
theorem State.plain_toJson (s : State) : s.toJson.Plain := by
  have hfiles : (Json.record
      (s.files.entries.map fun e => (e.1.toString, e.2.toJson))).Plain := by
    refine Json.plain_record fun field hfield => ?_
    obtain ⟨e, -, rfl⟩ := List.mem_map.mp hfield
    exact e.2.plain_toJson
  refine Json.plain_record ?_
  simpa using ⟨s.sources.plain_toJson, hfiles, trivial⟩

/-- A state is decoded from the bytes that are written for it. -/
theorem State.decode?_encode (s : State) : State.decode? s.encode = some s := by
  rw [State.decode?, State.encode, Json.ofBytes?_compact s.plain_toJson, Option.bind_some]
  exact State.ofJson?_toJson s

/-! ## Records -/

namespace Record

/-- A record is read back from its JSON value, if its version is one that can be stored. -/
theorem ofJson?_toJson {r : Record} (h : r.version < UInt32.size) :
    ofJson? r.toJson = some r := by
  have hmembers : r.toJson.members? ["version", "unit_id", "state"] =
      some [some (.nat r.version), some (.string r.unit), some r.state.toJson] := by
    rw [toJson, Json.members?_record]
    rfl
  rw [ofJson?, hmembers]
  simp [Json.needed, Json.natBelow?, h, Json.string, Json.text?, State.ofJson?_toJson]

/-- The JSON value of a record is plain. -/
theorem plain_toJson (r : Record) : r.toJson.Plain := by
  refine Json.plain_record ?_
  simpa using ⟨trivial, trivial, r.state.plain_toJson⟩

/-- A record of a possible version is decoded from the bytes that are stored for it. -/
theorem decode?_encode {r : Record} (h : r.version < UInt32.size) :
    decode? (encode r) = some r := by
  rw [decode?, encode, Json.ofBytes?_compact r.plain_toJson, Option.bind_some]
  exact ofJson?_toJson h

/-- A state that is written on its own is no record. -/
theorem decode?_encode_state (s : State) : decode? s.encode = none := by
  have hmembers : s.toJson.members? ["version", "unit_id", "state"] =
      some [none, none, none] := by
    rw [State.toJson, Json.members?_record]
    rfl
  rw [decode?, State.encode, Json.ofBytes?_compact s.plain_toJson, Option.bind_some, ofJson?,
    hmembers]
  rfl

end Record

end Recompile
