import Recompile.Proofs.Path.Membership

/-!
# Clean spellings

`Path.clean` spells a path anew from its components. The components of the new spelling
are those of the old one without a leading `.` (`Path.components_clean`), so the clean
spelling of a path is its own clean spelling, and two clean spellings of one path are the
same text (`Path.clean_eq_of_same`).

The proof follows the pieces of a spelling between its slashes. Joining a piece to a path
adds it at the end of the pieces that count, whether or not the path ends with a slash.
-/

set_option autoImplicit false

namespace Recompile.Path

/-! ## Pieces -/

/-- Even the empty text has one piece, the empty one. -/
theorem pieces_ne_nil (cs : List Char) : pieces cs ≠ [] := by
  cases cs with
  | nil => simp [pieces]
  | cons c cs =>
    unfold pieces
    split
    · simp
    · split <;> simp

/-- A slash in front adds one empty piece in front. -/
theorem pieces_cons_slash (cs : List Char) : pieces ('/' :: cs) = [] :: pieces cs := by
  simp [pieces]

/-- Another character than a slash goes in front of the first piece. -/
theorem pieces_cons {c : Char} {cs : List Char} (hc : c ≠ '/') {first : Name}
    {rest : List Name} (h : pieces cs = first :: rest) :
    pieces (c :: cs) = (c :: first) :: rest := by
  unfold pieces
  rw [if_neg hc, h]

/-- A slash separates the pieces before it from those after it. -/
theorem pieces_append_slash (xs ys : List Char) :
    pieces (xs ++ '/' :: ys) = pieces xs ++ pieces ys := by
  induction xs with
  | nil => simp [pieces]
  | cons c xs ih =>
    by_cases hc : c = '/'
    · subst hc
      rw [List.cons_append, pieces_cons_slash, pieces_cons_slash, ih, List.cons_append]
    · obtain ⟨first, rest, h⟩ := List.exists_cons_of_ne_nil (pieces_ne_nil xs)
      have happ : pieces (xs ++ '/' :: ys) = first :: (rest ++ pieces ys) := by
        rw [ih, h, List.cons_append]
      rw [List.cons_append, pieces_cons hc happ, pieces_cons hc h, List.cons_append]

/-- A text without a slash is its own only piece. -/
theorem pieces_eq_singleton {cs : List Char} (h : '/' ∉ cs) : pieces cs = [cs] := by
  induction cs with
  | nil => rfl
  | cons c cs ih =>
    have hc : c ≠ '/' := fun hc => h (hc ▸ List.mem_cons_self)
    exact pieces_cons hc (ih fun hmem => h (List.mem_cons_of_mem _ hmem))

/-- No piece of a text has a slash in it. -/
theorem slash_not_mem_of_mem_pieces {cs : List Char} {piece : Name} (h : piece ∈ pieces cs) :
    '/' ∉ piece := by
  induction cs generalizing piece with
  | nil =>
    rw [List.mem_singleton.mp h]
    exact List.not_mem_nil
  | cons c cs ih =>
    by_cases hc : c = '/'
    · subst hc
      rw [pieces_cons_slash] at h
      rcases List.mem_cons.mp h with rfl | h
      · exact List.not_mem_nil
      · exact ih h
    · obtain ⟨first, rest, hcs⟩ := List.exists_cons_of_ne_nil (pieces_ne_nil cs)
      rw [pieces_cons hc hcs] at h
      rw [hcs] at ih
      rcases List.mem_cons.mp h with rfl | h
      · intro hmem
        rcases List.mem_cons.mp hmem with heq | hmem
        · exact hc heq.symm
        · exact ih List.mem_cons_self hmem
      · exact ih (List.mem_cons_of_mem _ h)

/-- The components that the pieces of a spelling give. -/
def named (p : Path) : List Component :=
  (pieces p.chars).filterMap Component.ofPiece?

/-- The components of a path are the ones its beginning gives and then the named ones. -/
theorem components_eq (p : Path) : p.components = p.leading ++ p.named :=
  rfl

/-- A component that stands for a piece: neither the root nor a leading `.`. -/
structure Component.Plain (c : Component) : Prop where
  ofPiece : Component.ofPiece? c.chars = some c
  no_slash : '/' ∉ c.chars

namespace Component

variable {c : Component} {piece : Name}

/-- The component a piece makes is written the way the piece was. -/
theorem chars_of_ofPiece? (h : ofPiece? piece = some c) : c.chars = piece := by
  unfold ofPiece? at h
  split at h
  · exact absurd h (by simp)
  · exact absurd h (by simp)
  · rw [← Option.some.inj h]; rfl
  · rw [← Option.some.inj h]; rfl

/-- A plain component is never written as nothing. -/
theorem Plain.chars_ne_nil (h : c.Plain) : c.chars ≠ [] := by
  intro hnil
  have := h.ofPiece
  rw [hnil] at this
  exact absurd this (by simp [ofPiece?])

/-- A plain component is never written as a single dot. -/
theorem Plain.chars_ne_dot (h : c.Plain) : c.chars ≠ ['.'] := by
  intro hdot
  have := h.ofPiece
  rw [hdot] at this
  exact absurd this (by simp [ofPiece?])

/-- The leading `.` is not a plain component. -/
theorem Plain.ne_current (h : c.Plain) : c ≠ .current := by
  rintro rfl
  exact h.chars_ne_dot rfl

/-- The root is not a plain component. -/
theorem Plain.ne_root (h : c.Plain) : c ≠ .root := by
  rintro rfl
  exact h.no_slash (by simp [chars])

end Component

/-- Every named component of a path is plain. -/
theorem plain_of_mem_named {p : Path} {c : Component} (h : c ∈ p.named) : c.Plain := by
  obtain ⟨piece, hpiece, hc⟩ := List.mem_filterMap.mp h
  have hchars := Component.chars_of_ofPiece? hc
  exact ⟨hchars ▸ hc, hchars ▸ slash_not_mem_of_mem_pieces hpiece⟩

/-! ## Joining -/

/-- A path ends with a slash exactly when its text is some text followed by one. -/
theorem endsWithSlash_iff {p : Path} : p.endsWithSlash = true ↔ ∃ xs, p.chars = xs ++ ['/'] := by
  unfold endsWithSlash
  rw [beq_iff_eq, List.getLast?_eq_some_iff]

/-- A path is absolute exactly when its text begins with a slash. -/
theorem isAbsolute_iff {p : Path} : p.isAbsolute = true ↔ ∃ xs, p.chars = '/' :: xs := by
  unfold isAbsolute
  rw [beq_iff_eq, List.head?_eq_some_iff]

variable {c : Component}

/-- A plain component, read as a path, is relative. -/
theorem not_isAbsolute_of_plain (hc : c.Plain) : ¬ (⟨c.chars⟩ : Path).isAbsolute = true := by
  rw [isAbsolute_iff]
  rintro ⟨xs, hxs⟩
  have hxs : c.chars = '/' :: xs := hxs
  exact hc.no_slash (hxs ▸ List.mem_cons_self)

/-- The spelling of a path with one more component, case by case. -/
theorem join_plain (hc : c.Plain) (p : Path) :
    (p.join ⟨c.chars⟩).chars = c.chars ∧ p.chars = [] ∨
    (∃ xs, p.chars = xs ++ ['/'] ∧ (p.join ⟨c.chars⟩).chars = xs ++ '/' :: c.chars) ∨
    p.chars ≠ [] ∧ (p.join ⟨c.chars⟩).chars = p.chars ++ '/' :: c.chars := by
  unfold join
  rw [if_neg (not_isAbsolute_of_plain hc)]
  by_cases hnil : p.chars = []
  · left
    simp [hnil]
  · right
    by_cases hslash : p.endsWithSlash = true
    · left
      obtain ⟨xs, hxs⟩ := endsWithSlash_iff.mp hslash
      exact ⟨xs, hxs, by simp [hslash, hxs]⟩
    · right
      simp [hnil, hslash]

/-- Joining one plain component adds it at the end of the named components. -/
theorem named_join (hc : c.Plain) (p : Path) : (p.join ⟨c.chars⟩).named = p.named ++ [c] := by
  have hsingle : (pieces c.chars).filterMap Component.ofPiece? = [c] := by
    rw [pieces_eq_singleton hc.no_slash]
    simp [hc.ofPiece]
  unfold named
  rcases join_plain hc p with ⟨hjoin, hnil⟩ | ⟨xs, hp, hjoin⟩ | ⟨-, hjoin⟩
  · rw [hjoin, hnil, hsingle]
    rfl
  · rw [hjoin, hp, pieces_append_slash, pieces_append_slash, List.filterMap_append, hsingle,
      List.filterMap_append]
    simp [pieces, Component.ofPiece?]
  · rw [hjoin, pieces_append_slash, List.filterMap_append, hsingle]

/-- Joining one plain component leaves an absolute path absolute and a relative one relative. -/
theorem isAbsolute_join (hc : c.Plain) (p : Path) :
    (p.join ⟨c.chars⟩).isAbsolute = p.isAbsolute := by
  rcases join_plain hc p with ⟨hjoin, hnil⟩ | ⟨xs, hp, hjoin⟩ | ⟨hne, hjoin⟩
  · have hleft : (p.join ⟨c.chars⟩).isAbsolute = false := by
      have h := not_isAbsolute_of_plain hc
      unfold isAbsolute at h ⊢
      rw [hjoin]
      simpa using h
    rw [hleft, isAbsolute, hnil]
    rfl
  · unfold isAbsolute
    rw [hjoin, hp]
    cases xs <;> rfl
  · obtain ⟨d, ds, hd⟩ := List.exists_cons_of_ne_nil hne
    unfold isAbsolute
    rw [hjoin, hd]
    rfl

/-- A path does not come to start with a `.` by joining a component. -/
theorem head_pieces_join (hc : c.Plain) {p : Path} (hp : (pieces p.chars).head? ≠ some ['.']) :
    (pieces (p.join ⟨c.chars⟩).chars).head? ≠ some ['.'] := by
  rcases join_plain hc p with ⟨hjoin, hnil⟩ | ⟨xs, hxs, hjoin⟩ | ⟨-, hjoin⟩
  · rw [hjoin, pieces_eq_singleton hc.no_slash]
    simpa using hc.chars_ne_dot
  · obtain ⟨first, rest, h⟩ := List.exists_cons_of_ne_nil (pieces_ne_nil xs)
    rw [hxs, pieces_append_slash, h] at hp
    rw [hjoin, pieces_append_slash, h]
    exact hp
  · obtain ⟨first, rest, h⟩ := List.exists_cons_of_ne_nil (pieces_ne_nil p.chars)
    rw [h] at hp
    rw [hjoin, pieces_append_slash, h]
    exact hp

/-! ## Extending and cleaning -/

variable {cs : List Component}

/-- Joining plain components one by one adds them at the end of the named components. -/
theorem named_extend (hcs : ∀ c ∈ cs, c.Plain) (p : Path) :
    (p.extend cs).named = p.named ++ cs := by
  unfold extend
  induction cs generalizing p with
  | nil => simp
  | cons c cs ih =>
    rw [List.foldl_cons, ih fun d hd => hcs d (List.mem_cons_of_mem _ hd),
      named_join (hcs c List.mem_cons_self), List.append_assoc]
    rfl

/-- Joining plain components one by one leaves an absolute path absolute and a relative one
relative. -/
theorem isAbsolute_extend (hcs : ∀ c ∈ cs, c.Plain) (p : Path) :
    (p.extend cs).isAbsolute = p.isAbsolute := by
  unfold extend
  induction cs generalizing p with
  | nil => rfl
  | cons c cs ih =>
    rw [List.foldl_cons, ih fun d hd => hcs d (List.mem_cons_of_mem _ hd),
      isAbsolute_join (hcs c List.mem_cons_self)]

/-- A path that does not begin with `.` still does not after plain components were joined to it.
-/
theorem head_pieces_extend (hcs : ∀ c ∈ cs, c.Plain) {p : Path}
    (hp : (pieces p.chars).head? ≠ some ['.']) :
    (pieces (p.extend cs).chars).head? ≠ some ['.'] := by
  unfold extend
  induction cs generalizing p with
  | nil => exact hp
  | cons c cs ih =>
    exact ih (fun d hd => hcs d (List.mem_cons_of_mem _ hd))
      (head_pieces_join (hcs c List.mem_cons_self) hp)

/-- Leaving out a leading `.` leaves the components that the pieces give. -/
theorem filter_components (p : Path) :
    p.components.filter (· ≠ .current) =
      if p.isAbsolute then .root :: p.named else p.named := by
  have hnamed : p.named.filter (· ≠ .current) = p.named :=
    List.filter_eq_self.mpr fun c hc => decide_eq_true (plain_of_mem_named hc).ne_current
  rw [components_eq, List.filter_append, hnamed]
  unfold leading
  by_cases habs : p.isAbsolute = true
  · simp [habs]
  · by_cases hdot : (pieces p.chars).head? = some ['.']
    · simp [habs, hdot]
    · simp [habs, hdot]

/-- The clean spelling has the components of the path, but for a leading `.`. -/
theorem components_clean (p : Path) : p.clean.components = p.components.filter (· ≠ .current) := by
  have hplain : ∀ c ∈ p.named, c.Plain := fun _ hc => plain_of_mem_named hc
  unfold clean
  rw [filter_components]
  by_cases habs : p.isAbsolute = true
  · have hroot : empty.extend (.root :: p.named) = (⟨['/']⟩ : Path).extend p.named := rfl
    rw [if_pos habs, hroot, components_eq, named_extend hplain]
    unfold leading
    rw [isAbsolute_extend hplain]
    rfl
  · have hhead : (pieces (empty.extend p.named).chars).head? ≠ some ['.'] :=
      head_pieces_extend hplain (by decide)
    rw [if_neg habs, components_eq, named_extend hplain]
    unfold leading
    rw [isAbsolute_extend hplain, if_neg hhead]
    rfl

/-- Cleaning a path twice is cleaning it once. -/
theorem clean_clean (p : Path) : p.clean.clean = p.clean := by
  rw [clean, components_clean, List.filter_filter]
  simp only [Bool.and_self]
  rfl

/-- Two spellings of one path are cleaned to one text. -/
theorem clean_congr {p q : Path} (h : p.Same q) : p.clean = q.clean := by
  unfold clean
  rw [show p.components = q.components from h]

/-- Two clean spellings of one path are the same text. -/
theorem clean_eq_of_same {p q : Path} (h : p.clean.Same q.clean) : p.clean = q.clean := by
  rw [← clean_clean p, ← clean_clean q, clean_congr h]

end Recompile.Path
