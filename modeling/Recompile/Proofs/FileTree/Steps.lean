import Recompile.FileTree.Lookup

/-!
# One step of a look-up

Following a path treats `.` and `..` steps at once; for any other step it asks what the
name holds, and the answer means different things for the last step and for those before
it. `FileTree.Way` has one case for each answer, with what stands at the name, and the proofs
about look-ups up to the first link are inductions on the way that the steps lead
(`FileTree.way_advance`). A claim about two trees goes along the way in the one and takes the
same steps in the other, by the equation of the case.
-/

set_option autoImplicit false

namespace Recompile.FileTree

variable {t : FileTree} {last : Bool} {dir : Location} {n : Name} {rest : List Name}

/-- A step that names an entry. -/
structure IsName (n : Name) : Prop where
  ne_dot : n ≠ ['.']
  ne_up : n ≠ ['.', '.']

/-- A step is `.`, `..` or a name. -/
theorem step_cases (n : Name) : n = ['.'] ∨ n = ['.', '.'] ∨ IsName n := by
  by_cases hdot : n = ['.']
  · exact .inl hdot
  · by_cases hup : n = ['.', '.']
    · exact .inr (.inl hup)
    · exact .inr (.inr ⟨hdot, hup⟩)

/-- Without steps the way ends inside the directory where it started. -/
@[simp] theorem advance_nil : t.advance last dir [] = .inside dir := by
  simp [advance]

/-- A `.` step stays in the directory. -/
@[simp] theorem advance_dot : t.advance last dir (['.'] :: rest) = t.advance last dir rest := by
  simp [advance]

/-- A `..` step goes to the directory above. -/
@[simp] theorem advance_up :
    t.advance last dir (['.', '.'] :: rest) = t.advance last dir.tail rest := by
  simp [advance]

/-- The last step stays before its name, unless that is a link to go through. -/
theorem advance_single (hn : IsName n) : t.advance last dir [n] =
    if Path.nameByteLimit < Path.byteSize n then .failed .nameTooLong
    else
      match t.entry? (n :: dir) with
      | some (.link target) => if last then .link dir target [] else .before dir n
      | _ => .before dir n := by
  cases h : t.entry? (n :: dir) with
  | none => simp [advance, h, hn.ne_dot, hn.ne_up]
  | some e => cases e <;> simp [advance, h, hn.ne_dot, hn.ne_up]

/-- The last step stays before its name if that is no link to go through. -/
theorem advance_single_of_not_link (hn : IsName n)
    (hshort : ¬ Path.nameByteLimit < Path.byteSize n)
    (hlink : last = true → ∀ target, t.entry? (n :: dir) ≠ some (.link target)) :
    t.advance last dir [n] = .before dir n := by
  rw [advance_single hn, if_neg hshort]
  split
  · rename_i target heq
    cases last with
    | false => rfl
    | true => exact absurd heq (hlink rfl target)
  · rfl

/-- A step before the last has to go into a directory or through a link. -/
theorem advance_cons (hn : IsName n) (hrest : rest ≠ []) : t.advance last dir (n :: rest) =
    if Path.nameByteLimit < Path.byteSize n then .failed .nameTooLong
    else
      match t.entry? (n :: dir) with
      | some (.link target) => .link dir target rest
      | some .directory => t.advance last (n :: dir) rest
      | some _ => .failed .notDirectory
      | none => .failed .notFound := by
  cases h : t.entry? (n :: dir) with
  | none => simp [advance, h, hn.ne_dot, hn.ne_up]
  | some e => cases e <;> simp [advance, h, hn.ne_dot, hn.ne_up]

/-- A name that is too long ends every way. -/
theorem advance_long (hn : IsName n) (hlong : Path.nameByteLimit < Path.byteSize n) :
    t.advance last dir (n :: rest) = .failed .nameTooLong := by
  by_cases hrest : rest = []
  · rw [hrest, advance_single hn, if_pos hlong]
  · rw [advance_cons hn hrest, if_pos hlong]

/-- A step into a directory goes on from there. -/
theorem advance_down (hn : IsName n) (hshort : ¬ Path.nameByteLimit < Path.byteSize n)
    (hrest : rest ≠ []) (hentry : t.entry? (n :: dir) = some .directory) :
    t.advance last dir (n :: rest) = t.advance last (n :: dir) rest := by
  rw [advance_cons hn hrest, if_neg hshort, hentry]

/-- A step to a link halts there, unless it is the last one and stays before its name. -/
theorem advance_link {target : Path} (hn : IsName n)
    (hshort : ¬ Path.nameByteLimit < Path.byteSize n) (hthrough : rest = [] → last = true)
    (hentry : t.entry? (n :: dir) = some (.link target)) :
    t.advance last dir (n :: rest) = .link dir target rest := by
  by_cases hrest : rest = []
  · rw [hthrough hrest, hrest, advance_single hn, if_neg hshort, hentry]
    rfl
  · rw [advance_cons hn hrest, if_neg hshort, hentry]

/-- Nothing is found below a name that is missing. -/
theorem advance_missing (hn : IsName n) (hshort : ¬ Path.nameByteLimit < Path.byteSize n)
    (hrest : rest ≠ []) (hentry : t.entry? (n :: dir) = none) :
    t.advance last dir (n :: rest) = .failed .notFound := by
  rw [advance_cons hn hrest, if_neg hshort, hentry]

/-- No step leads into a file. -/
theorem advance_blocked {entry : Entry} (hn : IsName n)
    (hshort : ¬ Path.nameByteLimit < Path.byteSize n) (hrest : rest ≠ [])
    (hentry : t.entry? (n :: dir) = some entry) (hfile : entry.isFile = true) :
    t.advance last dir (n :: rest) = .failed .notDirectory := by
  rw [advance_cons hn hrest, if_neg hshort, hentry]
  cases entry with
  | file | locked => rfl
  | directory | link => cases hfile

/-- How steps lead to their first halt, with what stands at each name on the way. -/
inductive Way (t : FileTree) (last : Bool) : Location → List Name → Halt → Prop where
  | nil {dir : Location} : Way t last dir [] (.inside dir)
  | dot {dir : Location} {rest : List Name} {halt : Halt} (onward : Way t last dir rest halt) :
      Way t last dir (['.'] :: rest) halt
  | up {dir : Location} {rest : List Name} {halt : Halt}
      (onward : Way t last dir.tail rest halt) : Way t last dir (['.', '.'] :: rest) halt
  | long {dir : Location} {n : Name} {rest : List Name} (isName : IsName n)
      (long : Path.nameByteLimit < Path.byteSize n) :
      Way t last dir (n :: rest) (.failed .nameTooLong)
  /-- The last name is no link, or links at the end are not gone through. -/
  | stops {dir : Location} {n : Name} (isName : IsName n)
      (short : ¬ Path.nameByteLimit < Path.byteSize n)
      (noLink : last = true → ∀ target, t.entry? (n :: dir) ≠ some (.link target)) :
      Way t last dir [n] (.before dir n)
  | link {dir : Location} {n : Name} {rest : List Name} {target : Path} (isName : IsName n)
      (short : ¬ Path.nameByteLimit < Path.byteSize n) (through : rest = [] → last = true)
      (entry : t.entry? (n :: dir) = some (.link target)) :
      Way t last dir (n :: rest) (.link dir target rest)
  | missing {dir : Location} {n : Name} {rest : List Name} (isName : IsName n)
      (short : ¬ Path.nameByteLimit < Path.byteSize n) (more : rest ≠ [])
      (entry : t.entry? (n :: dir) = none) : Way t last dir (n :: rest) (.failed .notFound)
  | blocked {dir : Location} {n : Name} {rest : List Name} {held : Entry} (isName : IsName n)
      (short : ¬ Path.nameByteLimit < Path.byteSize n) (more : rest ≠ [])
      (entry : t.entry? (n :: dir) = some held) (isFile : held.isFile = true) :
      Way t last dir (n :: rest) (.failed .notDirectory)
  | down {dir : Location} {n : Name} {rest : List Name} {halt : Halt} (isName : IsName n)
      (short : ¬ Path.nameByteLimit < Path.byteSize n) (more : rest ≠ [])
      (entry : t.entry? (n :: dir) = some .directory)
      (onward : Way t last (n :: dir) rest halt) : Way t last dir (n :: rest) halt

/-- Steps lead to the halt to which they are followed. -/
theorem way_advance (t : FileTree) (last : Bool) (dir : Location) (steps : List Name) :
    t.Way last dir steps (t.advance last dir steps) := by
  induction steps generalizing dir with
  | nil =>
    rw [advance_nil]
    exact .nil
  | cons n rest ih =>
    rcases step_cases n with rfl | rfl | hn
    · rw [advance_dot]
      exact .dot (ih dir)
    · rw [advance_up]
      exact .up (ih dir.tail)
    by_cases hlong : Path.nameByteLimit < Path.byteSize n
    · rw [advance_long hn hlong]
      exact .long hn hlong
    by_cases hlink : (∃ target, t.entry? (n :: dir) = some (.link target)) ∧
        (rest = [] → last = true)
    · obtain ⟨⟨target, hentry⟩, hthrough⟩ := hlink
      rw [advance_link hn hlong hthrough hentry]
      exact .link hn hlong hthrough hentry
    by_cases hrest : rest = []
    · subst hrest
      have hnot (hlast : last = true) (target : Path) :
          t.entry? (n :: dir) ≠ some (.link target) :=
        fun hentry => hlink ⟨⟨target, hentry⟩, fun _ => hlast⟩
      rw [advance_single_of_not_link hn hlong hnot]
      exact .stops hn hlong hnot
    cases hentry : t.entry? (n :: dir) with
    | none =>
      rw [advance_missing hn hlong hrest hentry]
      exact .missing hn hlong hrest hentry
    | some entry =>
      cases entry with
      | file | locked =>
        rw [advance_blocked hn hlong hrest hentry rfl]
        exact .blocked hn hlong hrest hentry rfl
      | directory =>
        rw [advance_down hn hlong hrest hentry]
        exact .down hn hlong hrest hentry (ih (n :: dir))
      | link target => exact absurd ⟨⟨target, hentry⟩, fun hnil => absurd hnil hrest⟩ hlink

/-- Steps are followed to the halt to which they lead. -/
theorem Way.advance_eq {steps : List Name} {halt : Halt} (h : t.Way last dir steps halt) :
    t.advance last dir steps = halt := by
  induction h with
  | nil => exact advance_nil
  | dot _ ih => rwa [advance_dot]
  | up _ ih => rwa [advance_up]
  | long hn hlong => exact advance_long hn hlong
  | stops hn hshort hnot => exact advance_single_of_not_link hn hshort hnot
  | link hn hshort hthrough hentry => exact advance_link hn hshort hthrough hentry
  | missing hn hshort hrest hentry => exact advance_missing hn hshort hrest hentry
  | blocked hn hshort hrest hentry hfile => exact advance_blocked hn hshort hrest hentry hfile
  | down hn hshort hrest hentry _ ih => rwa [advance_down hn hshort hrest hentry]

/-- Following steps: a link is replaced by the steps of its target, as long as links may be
followed. -/
theorem follow_of_advance {links : Nat} {steps : List Name}
    (h : ∀ d target rest, t.advance last dir steps ≠ .link d target rest) :
    t.follow last links dir steps = t.advance last dir steps := by
  cases links with
  | zero =>
    unfold follow
    split
    · rename_i d target rest heq
      exact absurd heq (h d target rest)
    · rfl
  | succ links =>
    unfold follow
    split
    · rename_i d target rest heq
      exact absurd heq (h d target rest)
    · rfl

/-- What fails before any link fails when links are followed too. -/
theorem follow_of_failed {links : Nat} {steps : List Name} {e : OsError}
    (h : t.advance last dir steps = .failed e) : t.follow last links dir steps = .failed e := by
  rw [follow_of_advance (by simp [h]), h]

/-- A link where none may be followed any more is a failure. -/
theorem follow_zero_of_link {steps : List Name} {d : Location} {target : Path}
    (h : t.advance last dir steps = .link d target rest) :
    t.follow last 0 dir steps = .failed .tooManyLinks := by
  unfold follow
  rw [h]

/-- Following a link goes on with the steps of its target and then with the rest. -/
theorem follow_succ_of_link {links : Nat} {steps : List Name} {d : Location} {target : Path}
    (h : t.advance last dir steps = .link d target rest) :
    t.follow last (links + 1) dir steps =
      t.follow last links (origin d target) (target.lookupSteps ++ rest) := by
  rw [follow, h]

/-- A last name is come to at once, or after a link that may be followed. -/
theorem follow_eq_before {links : Nat} {steps : List Name} {d : Location}
    (h : t.follow last links dir steps = .before d n) :
    t.advance last dir steps = .before d n ∨
      ∃ links' e target rest, links = links' + 1 ∧ t.advance last dir steps = .link e target rest ∧
        t.follow last links' (origin e target) (target.lookupSteps ++ rest) = .before d n := by
  cases hadv : t.advance last dir steps with
  | link e target rest =>
    right
    cases links with
    | zero => rw [follow_zero_of_link hadv] at h; exact absurd h (by simp)
    | succ links => exact ⟨links, e, target, rest, rfl, rfl, follow_succ_of_link hadv ▸ h⟩
  | _ =>
    left
    rw [follow_of_advance (by simp [hadv]), hadv] at h
    exact h

/-- A last name that is come to is a name, not too long for one, and that of no link if links
at the end are gone through. -/
theorem stops_of_advance {steps : List Name} {d : Location}
    (h : t.advance last dir steps = .before d n) :
    IsName n ∧ (¬ Path.nameByteLimit < Path.byteSize n) ∧
      (last = true → ∀ target, t.entry? (n :: d) ≠ some (.link target)) := by
  have hway := t.way_advance last dir steps
  generalize t.advance last dir steps = halt at h hway
  induction hway with
  | nil | long | link | missing | blocked => cases h
  | dot _ ih | up _ ih | down _ _ _ _ _ ih => exact ih h
  | stops hn hshort hnot =>
    cases h
    exact ⟨hn, hshort, hnot⟩

/-- A last name that is come to is come to without a link from somewhere. -/
theorem exists_advance_of_follow {links : Nat} {steps : List Name} {d : Location}
    (h : t.follow last links dir steps = .before d n) :
    ∃ dir' steps', t.advance last dir' steps' = .before d n := by
  induction links generalizing dir steps with
  | zero =>
    rcases follow_eq_before h with hadv | ⟨links', -, -, -, hzero, -⟩
    · exact ⟨dir, steps, hadv⟩
    · cases hzero
  | succ links ih =>
    rcases follow_eq_before h with hadv | ⟨links', e, target, rest, hsucc, hadv, hrest⟩
    · exact ⟨dir, steps, hadv⟩
    · cases hsucc
      exact ih hrest

/-- Following halts before a name only, and before none that is too long. -/
theorem isName_of_follow {links : Nat} {steps : List Name} {d : Location}
    (h : t.follow last links dir steps = .before d n) :
    IsName n ∧ ¬ Path.nameByteLimit < Path.byteSize n := by
  obtain ⟨dir', steps', hadv⟩ := exists_advance_of_follow h
  obtain ⟨hn, hshort, -⟩ := stops_of_advance hadv
  exact ⟨hn, hshort⟩

/-- Following steps never comes to a halt at a link. -/
theorem follow_ne_link {links : Nat} {steps : List Name} {d : Location} {target : Path} :
    t.follow last links dir steps ≠ .link d target rest := by
  induction links generalizing dir steps with
  | zero =>
    unfold follow
    split
    · simp
    · rename_i hnot
      exact fun h => hnot d target rest h
  | succ links ih =>
    unfold follow
    split
    · exact ih
    · rename_i hnot
      exact fun h => hnot d target rest h

/-- A path leads to the entry before which its walk halts. -/
theorem find_of_walk {p : Path} {d : Location} {entry : Entry} (h : t.walk true p = .before d n)
    (hentry : t.entry? (n :: d) = some entry) : t.find p = .ok (n :: d, entry) := by
  unfold find
  rw [h]
  simp only [hentry]

/-- A file at the end of a path is read. -/
theorem read_of_walk {p : Path} {d : Location} {bytes : List UInt8}
    (h : t.walk true p = .before d n) (hentry : t.entry? (n :: d) = some (.file bytes)) :
    t.read p = .ok bytes := by
  unfold read
  rw [find_of_walk h hentry]

/-- A file that can be read stands at the end of its path. -/
theorem walk_of_read {p : Path} {bytes : List UInt8} (h : t.read p = .ok bytes) :
    ∃ d n, t.walk true p = .before d n ∧ t.entry? (n :: d) = some (.file bytes) := by
  unfold read find at h
  cases hwalk : t.walk true p with
  | inside d => simp [hwalk] at h
  | link d target rest => simp [hwalk] at h
  | failed e => simp [hwalk] at h
  | before d n =>
    simp only [hwalk] at h
    cases hentry : t.entry? (n :: d) with
    | none => simp [hentry] at h
    | some e =>
      cases e with
      | directory | locked | link => simp [hentry] at h
      | file bytes' =>
        simp only [hentry, Except.ok.injEq] at h
        exact ⟨d, n, rfl, h ▸ hentry⟩

/-- A path leads to a file if one stands at its end, be it one that may be opened or not. -/
theorem isFile_of_walk {p : Path} {d : Location} {entry : Entry}
    (h : t.walk true p = .before d n) (hentry : t.entry? (n :: d) = some entry)
    (hfile : entry.isFile = true) : t.isFile p = true := by
  unfold isFile
  rw [find_of_walk h hentry]
  exact hfile

/-- What a path leads to as a file stands at its end. -/
theorem walk_of_isFile {p : Path} (h : t.isFile p = true) :
    ∃ d n entry, t.walk true p = .before d n ∧ t.entry? (n :: d) = some entry ∧
      entry.isFile = true := by
  unfold isFile find at h
  cases hwalk : t.walk true p with
  | inside d => simp [hwalk, Entry.isFile] at h
  | link d target rest => simp [hwalk] at h
  | failed e => simp [hwalk] at h
  | before d n =>
    simp only [hwalk] at h
    cases hentry : t.entry? (n :: d) with
    | none => simp [hentry] at h
    | some entry =>
      rw [hentry] at h
      exact ⟨d, n, entry, rfl, hentry, h⟩

/-- What is a file can be read, or it may not be opened. -/
theorem read_of_isFile {p : Path} (h : t.isFile p = true) :
    (∃ bytes, t.read p = .ok bytes) ∨ t.read p = .error .permissionDenied := by
  obtain ⟨d, n, entry, hwalk, hentry, hkind⟩ := walk_of_isFile h
  have hfind := find_of_walk hwalk hentry
  cases entry with
  | file bytes => exact .inl ⟨bytes, read_of_walk hwalk hentry⟩
  | locked => exact .inr (by rw [read, hfind])
  | directory | link => cases hkind

/-- The system takes a path along which a walk halts before a name. -/
theorem refusal?_of_walk {p : Path} {d : Location} (h : t.walk last p = .before d n) :
    p.refusal? = none := by
  cases hrefusal : p.refusal? with
  | none => rfl
  | some e => simp [walk, hrefusal] at h

/-- A walk that halts before a name follows the steps that the path is looked up by. -/
theorem follow_of_walk {p : Path} {d : Location} (h : t.walk last p = .before d n) :
    t.follow last linkLimit (origin t.workingDir p) p.lookupSteps = .before d n := by
  unfold walk at h
  split at h
  · exact absurd h (by simp)
  · exact h

end Recompile.FileTree
