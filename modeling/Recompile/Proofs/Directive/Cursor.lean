import Recompile.Proofs.Directive.Order

/-!
# Scanning one character at a time

The scan of a text looks ahead: it sees at once whether a slash opens a comment, a star
closes one, or a backslash continues the line. A cursor reads one character at a time
instead and remembers what it cannot decide on yet (`Pending`). Both yield the same lines
(`scan_eq_run`), and a cursor can stop anywhere: what it makes of a text is what it makes
of the first part, followed by what it makes of the rest from the place where it has come
to (`Cursor.run_append`).
-/

set_option autoImplicit false

namespace Recompile

namespace LogicalLine

/-- What has been read and may still come to mean something with the next character. -/
inductive Pending where
  | nothing
  /-- A slash in code, which may open a comment. -/
  | slash
  /-- A star in a block comment, which may close it. -/
  | star
  /-- A backslash, which may continue the line or escape a character of a literal. -/
  | backslash
  /-- A backslash and a carriage return, which may continue the line. -/
  | backslashReturn
  deriving DecidableEq, Repr

/-- The characters that have been read of what is pending. -/
def Pending.chars : Pending → List Char
  | .nothing => []
  | .slash => ['/']
  | .star => ['*']
  | .backslash => ['\\']
  | .backslashReturn => ['\\', '\r']

/-- A place in a text, with the draft of the line that it is in. -/
structure Cursor where
  mode : Mode
  pending : Pending
  draft : Draft
  deriving DecidableEq, Repr

/-- Whether a text that follows a backslash continues the line. -/
def continues : List Char → Bool
  | '\n' :: _ => true
  | '\r' :: '\n' :: _ => true
  | _ => false

namespace Cursor

/-- The beginning of a text. -/
def start : Cursor :=
  ⟨.code, .nothing, .fresh 1⟩

/-- Where the next character leads if it completes what is pending. A literal keeps
whatever is escaped in it. -/
def completed? (s : Cursor) (c : Char) : Option Cursor :=
  match s.mode, s.pending with
  | .code, .slash =>
    if c = '/' then some ⟨.lineComment, .nothing, s.draft⟩
    else if c = '*' then some ⟨.blockComment, .nothing, s.draft.push ' '⟩
    else none
  | .blockComment, .star => if c = '/' then some ⟨.code, .nothing, s.draft⟩ else none
  | mode, .backslash =>
    if c = '\n' then some ⟨mode, .nothing, s.draft.goOn⟩
    else if c = '\r' then some ⟨mode, .backslashReturn, s.draft⟩
    else
      match mode with
      | .literal _ => some ⟨mode, .nothing, (s.draft.push '\\').push c⟩
      | _ => none
  | mode, .backslashReturn => if c = '\n' then some ⟨mode, .nothing, s.draft.goOn⟩ else none
  | _, _ => none

/-- The draft if what is pending has no meaning of its own. -/
def settled (s : Cursor) : Draft :=
  match s.mode, s.pending with
  | .code, .slash => s.draft.push '/'
  | .code, .backslash | .code, .backslashReturn | .literal _, .backslash => s.draft.push '\\'
  | .literal _, .backslashReturn => (s.draft.push '\\').push '\r'
  | _, _ => s.draft

/-- Where a character leads that neither ends the line nor may continue it. -/
def plain : Mode → Draft → Char → Cursor
  | .code, d, c =>
    if c = '/' then ⟨.code, .slash, d⟩
    else if c = '\r' then ⟨.code, .nothing, d⟩
    else if c = '"' ∨ c = '\'' then ⟨.literal c, .nothing, d.push c⟩
    else ⟨.code, .nothing, d.push c⟩
  | .literal quote, d, c => ⟨if c = quote then .code else .literal quote, .nothing, d.push c⟩
  | .blockComment, d, c => ⟨.blockComment, if c = '*' then .star else .nothing, d⟩
  | .lineComment, d, _ => ⟨.lineComment, .nothing, d⟩

/-- The lines that a character completes, and where it leads, if nothing is pending. -/
def read (mode : Mode) (d : Draft) (c : Char) : List LogicalLine × Cursor :=
  if c = '\\' then ([], ⟨mode, .backslash, d⟩)
  else if c = '\n' then
    if mode = .blockComment then ([], ⟨.blockComment, .nothing, d.goOn⟩)
    else ([d.line], ⟨.code, .nothing, .fresh (d.current + 1)⟩)
  else ([], plain mode d c)

/-- The lines that a character completes, and where it leads. -/
def step (s : Cursor) (c : Char) : List LogicalLine × Cursor :=
  match s.completed? c with
  | some s' => ([], s')
  | none => read s.mode s.settled c

/-- The last line, unless it has no character. -/
def finish (s : Cursor) : List LogicalLine :=
  if s.settled.reversed = [] then [] else [s.settled.line]

/-- The lines of a text from a place on. -/
def run : Cursor → List Char → List LogicalLine
  | s, [] => s.finish
  | s, c :: cs => (s.step c).1 ++ (s.step c).2.run cs

/-- The place to which a text leads. -/
def after (s : Cursor) (cs : List Char) : Cursor :=
  cs.foldl (fun s c => (s.step c).2) s

/-- The lines that are complete where a text leads to. -/
def emitted : Cursor → List Char → List LogicalLine
  | _, [] => []
  | s, c :: cs => (s.step c).1 ++ (s.step c).2.emitted cs

variable {s : Cursor} {mode : Mode} {d : Draft} {c : Char} {cs : List Char}

/-- At the end of the text the line that was begun is finished. -/
@[simp] theorem run_nil : s.run [] = s.finish :=
  rfl

/-- Reading a text is taking its first character and then reading the rest. -/
@[simp] theorem run_cons : s.run (c :: cs) = (s.step c).1 ++ (s.step c).2.run cs :=
  rfl

/-- A text can be read in two parts. -/
theorem run_append (s : Cursor) (xs ys : List Char) :
    s.run (xs ++ ys) = s.emitted xs ++ (s.after xs).run ys := by
  induction xs generalizing s with
  | nil => rfl
  | cons c xs ih =>
    rw [List.cons_append, run_cons, ih, emitted, List.append_assoc]
    rfl

/-- After two texts in a row the cursor is where the second leads from where the first did. -/
theorem after_append (s : Cursor) (xs ys : List Char) :
    s.after (xs ++ ys) = (s.after xs).after ys :=
  List.foldl_append

/-- Two texts in a row complete the lines of the one and then those of the other. -/
theorem emitted_append (s : Cursor) (xs ys : List Char) :
    s.emitted (xs ++ ys) = s.emitted xs ++ (s.after xs).emitted ys := by
  induction xs generalizing s with
  | nil => rfl
  | cons c xs ih =>
    rw [List.cons_append, emitted, ih, emitted, List.append_assoc]
    rfl

/-- The lines of a text are those that are complete at its end, and the last one. -/
theorem run_eq_emitted (s : Cursor) (cs : List Char) :
    s.run cs = s.emitted cs ++ (s.after cs).finish := by
  conv => lhs; rw [← List.append_nil cs]
  exact s.run_append cs []

/-- Where nothing is pending, no character completes anything. -/
@[simp] theorem completed?_nothing : (⟨mode, .nothing, d⟩ : Cursor).completed? c = none := by
  cases mode <;> rfl

/-- Where nothing is pending, settling changes nothing. -/
@[simp] theorem settled_nothing : (⟨mode, .nothing, d⟩ : Cursor).settled = d := by
  cases mode <;> rfl

/-- Where nothing is pending, taking a character is reading it. -/
@[simp] theorem step_nothing : (⟨mode, .nothing, d⟩ : Cursor).step c = read mode d c := by
  rw [step, completed?_nothing, settled_nothing]

/-- At the end a line that has characters is completed. -/
theorem finish_nothing : (⟨mode, .nothing, d⟩ : Cursor).finish =
    if d.reversed = [] then [] else [d.line] := by
  cases mode <;> rfl

/-- A backslash is pending in every mode. -/
theorem read_backslash : read mode d '\\' = ([], ⟨mode, .backslash, d⟩) :=
  rfl

/-- A character other than a backslash and a line feed completes no line. -/
theorem read_plain (hbackslash : c ≠ '\\') (hbreak : c ≠ '\n') :
    read mode d c = ([], plain mode d c) := by
  rw [read, if_neg hbackslash, if_neg hbreak]

/-- A character that completes what is pending is taken together with it. -/
theorem step_of_completed? {s' : Cursor} (h : s.completed? c = some s') : s.step c = ([], s') := by
  rw [step, h]

/-- Any other character is read after what is pending was settled. -/
theorem step_of_completed?_eq_none (h : s.completed? c = none) :
    s.step c = read s.mode s.settled c := by
  rw [step, h]

/-- What is pending in a comment adds nothing to the line. -/
theorem settled_blockComment (pending : Pending) (d : Draft) :
    (⟨.blockComment, pending, d⟩ : Cursor).settled = d := by
  cases pending <;> rfl

/-- In a line comment nothing that is pending gets into the line. -/
theorem settled_lineComment (pending : Pending) (d : Draft) :
    (⟨.lineComment, pending, d⟩ : Cursor).settled = d := by
  cases pending <;> rfl

/-- What the next character does not complete has no meaning of its own. -/
theorem run_settled (h : ∀ c ∈ cs.head?, s.completed? c = none) :
    s.run cs = run ⟨s.mode, .nothing, s.settled⟩ cs := by
  cases cs with
  | nil => simp [finish]
  | cons c cs =>
    rw [run_cons, run_cons, step_nothing, step_of_completed?_eq_none (h c rfl)]

/-- What is pending may be settled first if the next character does not complete it. -/
theorem run_settled_of_next (h : ∀ c after, cs = c :: after → s.completed? c = none) :
    s.run cs = run ⟨s.mode, .nothing, s.settled⟩ cs := by
  apply run_settled
  intro c hc
  obtain ⟨after, hcs⟩ := List.head?_eq_some_iff.mp hc
  exact h c after hcs

/-- Outside literals a backslash that does not continue the line has no meaning of its
own. -/
theorem run_backslash (hmode : ∀ quote, mode ≠ .literal quote) (h : continues cs = false) :
    run ⟨mode, .backslash, d⟩ cs =
      run ⟨mode, .nothing, (⟨mode, .backslash, d⟩ : Cursor).settled⟩ cs := by
  cases cs with
  | nil => exact run_settled (by simp)
  | cons c rest =>
    have hbreak : c ≠ '\n' := by
      rintro rfl
      simp [continues] at h
    by_cases hreturn : c = '\r'
    · subst hreturn
      -- The carriage return is pending too, until the character after it is known.
      have hnext (c : Char) (after : List Char) (hrest : rest = c :: after) :
          completed? ⟨mode, .backslashReturn, d⟩ c = none := by
        have hne : c ≠ '\n' := by
          rintro rfl
          rw [hrest] at h
          simp [continues] at h
        cases mode <;> simp [completed?, hne]
      have hstep : step ⟨mode, .backslash, d⟩ '\r' = ([], ⟨mode, .backslashReturn, d⟩) :=
        step_of_completed? (by cases mode <;> simp [completed?])
      rw [run_cons, hstep, run_settled_of_next hnext]
      cases mode with
      | literal quote => exact absurd rfl (hmode quote)
      | code | blockComment | lineComment => simp [settled, read, plain]
    · refine run_settled fun c' hc' => ?_
      obtain rfl : c = c' := Option.some.inj hc'
      cases mode with
      | literal quote => exact absurd rfl (hmode quote)
      | code | blockComment | lineComment => simp [completed?, hbreak, hreturn]

/-- A character other than a backslash and a line feed leads where it does alone. -/
theorem run_cons_plain (hbackslash : c ≠ '\\') (hbreak : c ≠ '\n') :
    run ⟨mode, .nothing, d⟩ (c :: cs) = (plain mode d c).run cs := by
  rw [run_cons, step_nothing, read_plain hbackslash hbreak]
  rfl

/-- Outside of a literal, a backslash that does not continue the line may be settled at once. -/
theorem run_cons_backslash (hmode : ∀ quote, mode ≠ .literal quote)
    (h : continues cs = false) : run ⟨mode, .nothing, d⟩ ('\\' :: cs) =
      run ⟨mode, .nothing, (⟨mode, .backslash, d⟩ : Cursor).settled⟩ cs := by
  rw [run_cons, step_nothing, read_backslash]
  exact run_backslash hmode h

/-! ## What is pending at a place -/

/-- Completing what is pending leaves nothing pending, unless a carriage return follows a
backslash. -/
theorem pending_of_completed? {s' : Cursor} (h : s.completed? c = some s') :
    s'.pending = .nothing ∨
      c = '\r' ∧ s.pending = .backslash ∧ s'.pending = .backslashReturn := by
  obtain ⟨mode, pending, d⟩ := s
  unfold Cursor.completed? at h
  cases mode <;> cases pending <;> grind

/-- Reading leaves at most the character itself pending. -/
theorem pending_read (mode : Mode) (d : Draft) (c : Char) :
    (read mode d c).2.pending.chars <:+ [c] := by
  unfold read
  split_ifs with hbackslash
  · rw [hbackslash]
    exact List.suffix_refl _
  · exact List.nil_suffix
  · exact List.nil_suffix
  · cases mode <;> grind [plain, Pending.chars]

/-- What is pending after a character are the last characters taken. -/
theorem pending_step (s : Cursor) (c : Char) :
    (s.step c).2.pending.chars <:+ s.pending.chars ++ [c] := by
  unfold Cursor.step
  cases hcompleted : s.completed? c with
  | none => exact (pending_read _ _ c).trans (List.suffix_append _ _)
  | some s' =>
    obtain h | ⟨rfl, hs, h⟩ := pending_of_completed? hcompleted
    · show s'.pending.chars <:+ _
      rw [h]
      exact List.nil_suffix
    · show s'.pending.chars <:+ _
      rw [h, hs]
      exact List.suffix_refl _

/-- What is pending has been read last. -/
theorem pending_after (s : Cursor) (cs : List Char) :
    (s.after cs).pending.chars <:+ s.pending.chars ++ cs := by
  induction cs generalizing s with
  | nil => simp [after]
  | cons c cs ih =>
    have hstep : (s.step c).2.pending.chars ++ cs <:+ s.pending.chars ++ [c] ++ cs := by
      obtain ⟨before, h⟩ := s.pending_step c
      exact ⟨before, by rw [← List.append_assoc, h]⟩
    rw [List.append_cons]
    exact (ih _).trans hstep

end Cursor

/-- A backslash that no line break follows does not continue the line. -/
theorem continues_eq_false {c : Char} {rest : List Char} (hc : c = '\\')
    (hbreak : ∀ after, c = '\\' → rest = '\n' :: after → False)
    (hreturn : ∀ after, c = '\\' → rest = '\r' :: '\n' :: after → False) :
    continues rest = false := by
  unfold continues
  split
  · exact absurd rfl (hbreak _ hc)
  · exact absurd rfl (hreturn _ hc)
  · rfl

/-- A cursor that starts in a mode, with nothing pending, yields the lines of a scan. -/
theorem scan_eq_run (mode : Mode) (d : Draft) (cs : List Char) :
    scan mode d cs = Cursor.run ⟨mode, .nothing, d⟩ cs := by
  fun_induction scan mode d cs
  case case1 | case2 => simp [Cursor.finish_nothing, *]
  case case3 ih | case4 ih | case5 ih | case7 ih | case8 ih | case9 ih | case14 ih =>
    simp [Cursor.read, Cursor.step, Cursor.completed?, Cursor.plain, ih]
  case case6 mode d rest hmode ih =>
    have hmode : mode ≠ .blockComment := hmode
    simp [Cursor.read, hmode, ih]
  case case10 d c rest _ _ _ _ _ _ hquote ih =>
    rcases hquote with rfl | rfl <;> simp [Cursor.read, Cursor.plain, ih]
  -- In code a backslash or a slash is held back for one character; the other characters lead on
  -- at once.
  case case11 d c rest hgoOn hgoOn' hbreak hline hblock hreturn hquote ih =>
    by_cases hbackslash : c = '\\'
    · have hcontinues := continues_eq_false hbackslash hgoOn hgoOn'
      subst hbackslash
      rw [Cursor.run_cons_backslash (by simp) hcontinues, ih]
      rfl
    · rw [Cursor.run_cons_plain hbackslash hbreak]
      by_cases hslash : c = '/'
      · subst hslash
        have hnext (c : Char) (after : List Char) (hrest : rest = c :: after) :
            Cursor.completed? ⟨.code, .slash, d⟩ c = none := by
          have hslash : c ≠ '/' := fun h => hline after rfl (by rw [hrest, h])
          have hstar : c ≠ '*' := fun h => hblock after rfl (by rw [hrest, h])
          simp [Cursor.completed?, hslash, hstar]
        rw [ih]
        exact (Cursor.run_settled_of_next hnext).symm
      · simp [Cursor.plain, hslash, hreturn, hquote, ih]
  case case12 quote d c rest hbreak hreturn ih =>
    have hbreak : c ≠ '\n' := hbreak
    by_cases hc : c = '\r'
    · subst hc
      have hnext (c : Char) (after : List Char) (hrest : rest = c :: after) :
          Cursor.completed? ⟨.literal quote, .backslashReturn, d⟩ c = none := by
        have hne : c ≠ '\n' := fun h => hreturn after rfl (by rw [hrest, h])
        simp [Cursor.completed?, hne]
      rw [ih]
      exact (Cursor.run_settled_of_next hnext).symm
    · simp [Cursor.read_backslash, Cursor.step, Cursor.completed?, hbreak, hc, ih]
  case case13 quote d c rest hgoOn hgoOn' hbreak hescape ih =>
    by_cases hbackslash : c = '\\'
    · -- Only at the end of the text does a backslash in a literal escape nothing.
      have hrest : rest = [] := List.eq_nil_iff_forall_not_mem.mpr fun x hx => by
        obtain ⟨y, after, rfl⟩ := List.exists_cons_of_ne_nil (List.ne_nil_of_mem hx)
        exact hescape y after hbackslash rfl
      subst hbackslash hrest
      rw [ih, Cursor.run_nil, Cursor.finish_nothing]
      rfl
    · rw [Cursor.run_cons_plain hbackslash hbreak, ih]
      rfl
  -- In a block comment a star is held back in the same way.
  case case15 d c rest hgoOn hgoOn' hbreak hcloses ih =>
    by_cases hbackslash : c = '\\'
    · have hcontinues := continues_eq_false hbackslash hgoOn hgoOn'
      subst hbackslash
      rw [Cursor.run_cons_backslash (by simp) hcontinues, ih]
      rfl
    · rw [Cursor.run_cons_plain hbackslash hbreak]
      by_cases hstar : c = '*'
      · subst hstar
        have hnext (c : Char) (after : List Char) (hrest : rest = c :: after) :
            Cursor.completed? ⟨.blockComment, .star, d⟩ c = none := by
          have hslash : c ≠ '/' := fun h => hcloses after rfl (by rw [hrest, h])
          simp [Cursor.completed?, hslash]
        rw [ih]
        exact (Cursor.run_settled_of_next hnext).symm
      · simp [Cursor.plain, hstar, ih]
  case case16 d c rest hgoOn hgoOn' hbreak ih =>
    by_cases hbackslash : c = '\\'
    · have hcontinues := continues_eq_false hbackslash hgoOn hgoOn'
      subst hbackslash
      rw [Cursor.run_cons_backslash (by simp) hcontinues, ih]
      rfl
    · rw [Cursor.run_cons_plain hbackslash hbreak, ih]
      rfl

/-- The logical lines of a text are those that the cursor completes along it. -/
theorem ofText_eq_run (text : List Char) : ofText text = Cursor.start.run text :=
  scan_eq_run .code (.fresh 1) text

end LogicalLine

end Recompile
