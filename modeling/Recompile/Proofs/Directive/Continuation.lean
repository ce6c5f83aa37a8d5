import Recompile.Proofs.Directive.Simulation

/-!
# Line continuations

At most places of a text a backslash and a line feed can be put in without changing what
its directives are, apart from the lines on which they stand
(`Directives.unnumbered_ofText_continued`). The exceptions are the places between two
characters that the scan only recognises side by side: the two characters of a comment
marker, and a backslash in a literal with the character that it escapes (`Cursor.between`).
A continuation there changes what the rest of the text is taken for, and may hide all
the directives after it (`Directives.not_forall_unnumbered_ofText_continued`).

Two cursors that differ in nothing but line numbers find the same lines, up to their numbers
(`Cursor.Alike.run`), so it is enough to see where the backslash and the line feed lead.
-/

set_option autoImplicit false

namespace Recompile

/-! ## Directives without line numbers -/

/-- The line with no number. -/
def LogicalLine.unnumbered (l : LogicalLine) : LogicalLine :=
  { l with start := 0 }

/-- The include directive with no line number. -/
def Include.unnumbered (i : Include) : Include :=
  { i with line := 0 }

/-- The event with no line number. -/
def MacroEvent.unnumbered : MacroEvent → MacroEvent
  | .define name value _ => .define name value 0
  | .defineFunction name _ => .defineFunction name 0
  | .undefine name conditional _ => .undefine name conditional 0

/-- The directives with no line numbers. -/
def Directives.unnumbered (ds : Directives) : Directives :=
  ⟨ds.includes.map Include.unnumbered, ds.macros.map MacroEvent.unnumbered⟩

/-- The kind of a line does not depend on its number. -/
theorem LogicalLine.kind_unnumbered (l : LogicalLine) : l.unnumbered.kind = l.kind :=
  rfl

/-- Gathering directives without line numbers is gathering them of the lines without numbers. -/
theorem Directives.unnumbered_gather (imports : Bool) (depth : Nat) (ls : List LogicalLine) :
    (gather imports depth ls).unnumbered =
      gather imports depth (ls.map LogicalLine.unnumbered) := by
  fun_induction gather imports depth ls
  case case1 => rfl
  case case2 hk ih | case3 hk ih | case10 hk ih =>
    rw [List.map_cons, gather, LogicalLine.kind_unnumbered, hk]
    exact ih
  case case4 hk himport ih =>
    simp only [List.map_cons, gather, LogicalLine.kind_unnumbered, hk, himport, if_true]
    exact ih
  case case5 hk himport _ _ htarget ih =>
    simp only [List.map_cons, gather, LogicalLine.kind_unnumbered, hk, himport, htarget, ← ih]
    rfl
  case case6 hk himport htarget ih =>
    simp only [List.map_cons, gather, LogicalLine.kind_unnumbered, hk, himport, htarget]
    exact ih
  case case7 hk ih | case8 hk ih | case9 hk ih =>
    rw [List.map_cons, gather, LogicalLine.kind_unnumbered, hk, ← ih]
    rfl

namespace LogicalLine

/-- Whether some backslash of a text continues the line that it is in. -/
def hasContinuation : List Char → Bool
  | [] => false
  | c :: cs => (c == '\\' && continues cs) || hasContinuation cs

/-- The end of a text without continuations has none. -/
theorem hasContinuation_of_suffix {xs ys : List Char} (hsuffix : xs <:+ ys)
    (h : hasContinuation ys = false) : hasContinuation xs = false := by
  obtain ⟨before, rfl⟩ := hsuffix
  induction before with
  | nil => exact h
  | cons c before ih =>
    rw [List.cons_append, hasContinuation, Bool.or_eq_false_iff] at h
    exact ih h.2

namespace Cursor

variable {s s' : Cursor} {xs ys cs : List Char}

/-! ## Cursors that differ in line numbers only -/

/-- Two places in texts of which nothing but the line numbers may differ so far. -/
structure Alike (s s' : Cursor) : Prop where
  mode : s.mode = s'.mode
  pending : s.pending = s'.pending
  reversed : s.draft.reversed = s'.draft.reversed

/-- Reading does the same for drafts that differ in their line numbers only. -/
theorem keeps_unnumbered : Keeps (fun d d' => d.reversed = d'.reversed)
    (fun l l' => l.unnumbered = l'.unnumbered) where
  push c h := congrArg (c :: ·) h
  goOn h := h
  next _ := rfl
  line h := by simp [unnumbered, Draft.line, h]
  isEmpty h := by rw [h]

/-- The lines of a text are the same from two places that are alike, up to their
numbers. -/
theorem Alike.run (h : s.Alike s') (cs : List Char) :
    (s.run cs).map unnumbered = (s'.run cs).map unnumbered := by
  have hrelated : Related (fun d d' => d.reversed = d'.reversed) s s' :=
    ⟨h.mode, h.pending, h.reversed⟩
  rw [← List.forall₂_eq_eq_eq, List.forall₂_map_left_iff, List.forall₂_map_right_iff]
  exact hrelated.run keeps_unnumbered cs

/-! ## The places that a continuation parts -/

/-- Whether a place lies between two characters that mean something only together. -/
def between (s : Cursor) (next : Option Char) : Bool :=
  match s.mode, s.pending with
  | .code, .slash => next == some '/' || next == some '*'
  | .blockComment, .star => next == some '/'
  | .literal _, .backslash => true
  | _, _ => false

/-- Where no two characters are parted, what is pending may be settled, if no continuation
follows. -/
theorem run_of_not_between (hplace : s.between cs.head? = false)
    (h : hasContinuation (s.pending.chars ++ cs) = false) :
    s.run cs = run ⟨s.mode, .nothing, s.settled⟩ cs := by
  obtain ⟨mode, pending, d⟩ := s
  cases pending with
  | nothing => rw [settled_nothing]
  | slash =>
    apply run_settled
    intro c hc
    rw [Option.mem_def.mp hc] at hplace
    cases mode <;> grind [between, Cursor.completed?]
  | star =>
    apply run_settled
    intro c hc
    rw [Option.mem_def.mp hc] at hplace
    cases mode <;> grind [between, Cursor.completed?]
  | backslash =>
    have hcontinues : continues cs = false := by
      simp only [Pending.chars, List.cons_append, hasContinuation, Bool.or_eq_false_iff] at h
      simpa using h.1
    apply run_backslash _ hcontinues
    intro quote hmode
    subst hmode
    exact Bool.noConfusion hplace
  | backslashReturn =>
    apply run_settled
    intro c hc
    have hbreak : c ≠ '\n' := by
      rintro rfl
      obtain ⟨rest, rfl⟩ := List.head?_eq_some_iff.mp hc
      simp [Pending.chars, hasContinuation, continues] at h
    cases mode <;> simp [Cursor.completed?, hbreak]

/-- A backslash and a line feed settle what is pending, and lead to the next line. -/
theorem run_continuation (hplace : s.between cs.head? = false) :
    s.run ('\\' :: '\n' :: cs) = run ⟨s.mode, .nothing, s.settled.goOn⟩ cs := by
  have hbackslash : s.completed? '\\' = none := by
    obtain ⟨mode, pending, d⟩ := s
    cases mode <;> cases pending <;> simp [Cursor.completed?, between] at hplace ⊢
  have hfirst : s.step '\\' = ([], ⟨s.mode, .backslash, s.settled⟩) := by
    rw [Cursor.step, hbackslash, read_backslash]
  have hbreak (mode : Mode) (d : Draft) :
      Cursor.step ⟨mode, .backslash, d⟩ '\n' = ([], ⟨mode, .nothing, d.goOn⟩) := by
    apply step_of_completed?
    cases mode <;> rfl
  rw [run_cons, run_cons, hfirst, hbreak]
  rfl

end Cursor

end LogicalLine

namespace Directives

open LogicalLine

/-- A backslash and a line feed, put in at a place that they do not part, change nothing
about the directives of a text but the numbers of their lines. -/
theorem unnumbered_ofText_continued (imports : Bool) (xs ys : List Char)
    (h : hasContinuation (xs ++ ys) = false)
    (hplace : (Cursor.start.after xs).between ys.head? = false) :
    (ofText imports (xs ++ '\\' :: '\n' :: ys)).unnumbered =
      (ofText imports (xs ++ ys)).unnumbered := by
  let s := Cursor.start.after xs
  have hpending : hasContinuation (s.pending.chars ++ ys) = false := by
    obtain ⟨before, hxs⟩ : s.pending.chars <:+ xs := Cursor.start.pending_after xs
    refine hasContinuation_of_suffix ⟨before, ?_⟩ h
    rw [← List.append_assoc, hxs]
  have hrest : (s.run ('\\' :: '\n' :: ys)).map LogicalLine.unnumbered =
      (s.run ys).map LogicalLine.unnumbered := by
    have halike : Cursor.Alike ⟨s.mode, .nothing, s.settled.goOn⟩ ⟨s.mode, .nothing, s.settled⟩ :=
      ⟨rfl, rfl, rfl⟩
    rw [Cursor.run_continuation hplace, Cursor.run_of_not_between hplace hpending]
    exact halike.run ys
  have hlines : (LogicalLine.ofText (xs ++ '\\' :: '\n' :: ys)).map LogicalLine.unnumbered =
      (LogicalLine.ofText (xs ++ ys)).map LogicalLine.unnumbered := by
    rw [ofText_eq_run, ofText_eq_run, Cursor.run_append, Cursor.run_append, List.map_append,
      List.map_append, hrest]
  unfold ofText
  rw [unnumbered_gather, unnumbered_gather, hlines]

/-- A keyword that goes on in the next line. -/
theorem unnumbered_ofText_continued_keyword :
    hasContinuation "#include \"a.h\"".toList = false ∧
      (Cursor.start.after "#inc".toList).between (some 'l') = false ∧
      (ofText false "#inc\\\nlude \"a.h\"".toList).unnumbered =
        (ofText false "#include \"a.h\"".toList).unnumbered := by
  have hplace : (Cursor.start.after "#inc".toList).between (some 'l') = false := by
    decide
  have hwhole : hasContinuation "#include \"a.h\"".toList = false := by
    decide
  exact ⟨hwhole, hplace,
    unnumbered_ofText_continued false "#inc".toList "lude \"a.h\"".toList hwhole hplace⟩

/-- Between the characters of a comment marker it is different: the comment does not end
where it should, and the include directive after it is lost. -/
theorem not_forall_unnumbered_ofText_continued :
    ¬ ∀ (imports : Bool) (xs ys : List Char), hasContinuation (xs ++ ys) = false →
      (ofText imports (xs ++ '\\' :: '\n' :: ys)).unnumbered =
        (ofText imports (xs ++ ys)).unnumbered := by
  intro h
  have hlost : (ofText false "/* *\\\n/\n#include \"a.h\"".toList).unnumbered = none := by
    decide
  have hfound : (ofText false "/* */\n#include \"a.h\"".toList).unnumbered =
      ⟨[⟨.quoted, "a.h", false, 0⟩], []⟩ := by
    decide
  have hsame : (ofText false "/* *\\\n/\n#include \"a.h\"".toList).unnumbered =
      (ofText false "/* */\n#include \"a.h\"".toList).unnumbered :=
    h false "/* *".toList "/\n#include \"a.h\"".toList (by decide)
  rw [hlost, hfound] at hsame
  cases hsame

end Directives

end Recompile
