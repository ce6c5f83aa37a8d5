import Mathlib.Data.List.Forall2
import Recompile.Proofs.Directive.Composition

/-!
# Line endings

A carriage return before each line feed changes nothing about the directives of a text
(`Directives.ofText_withReturns`). The scan comes to the same places with and without it
(`Cursor.step_return_feed`), and the lines that it finds are the same, but for a carriage
return at the end of those that end in a literal (`ReturnAdded`). A carriage return is blank
and belongs to no word, so it changes the meaning of a line in one way only: it stands at
the end of what follows the keyword of an include directive (`kind_concat_return`), and there
it is trimmed.
-/

set_option autoImplicit false

namespace Recompile

open Text

/-! ## A blank at the end -/

namespace Text

variable {c : Char}

/-- Trimming the end drops one more blank there. -/
theorem trimEnd_concat (h : isBlank c = true) (cs : List Char) :
    trimEnd (cs ++ [c]) = trimEnd cs := by
  rw [trimEnd, List.reverse_append, List.reverse_singleton, List.singleton_append,
    List.dropWhile_cons_of_pos h]
  rfl

/-- A blank at the end of a text is a leading one if there is nothing else. -/
theorem trimStart_concat (h : isBlank c = true) (cs : List Char) :
    trimStart cs = [] ∧ trimStart (cs ++ [c]) = [] ∨
      trimStart cs ≠ [] ∧ trimStart (cs ++ [c]) = trimStart cs ++ [c] := by
  unfold trimStart
  rw [List.dropWhile_append, List.dropWhile_cons_of_pos h]
  by_cases hcs : cs.dropWhile isBlank = []
  · exact .inl ⟨hcs, by simp [hcs]⟩
  · exact .inr ⟨hcs, by simp [hcs]⟩

/-- Trimming drops one more blank at the end. -/
theorem trim_concat (h : isBlank c = true) (cs : List Char) : trim (cs ++ [c]) = trim cs := by
  unfold trim
  obtain ⟨hcs, happend⟩ | ⟨-, happend⟩ := trimStart_concat h cs
  · rw [hcs, happend]
  · rw [happend, trimEnd_concat h]

end Text

/-! ## Beginnings of a text with one more character at its end -/

/-- A character at the end that is none of a word's stays behind what follows the word. -/
theorem isPrefixOf?_concat {c : Char} {word : List Char} (h : c ∉ word) (cs : List Char) :
    word.isPrefixOf? (cs ++ [c]) = (word.isPrefixOf? cs).map (· ++ [c]) := by
  induction word generalizing cs with
  | nil => simp [List.isPrefixOf?]
  | cons w word ih =>
    rw [List.mem_cons, not_or] at h
    obtain ⟨hw, hword⟩ := h
    cases cs with
    | nil => simp [List.isPrefixOf?, Ne.symm hw]
    | cons x cs =>
      rw [List.cons_append, List.isPrefixOf?, List.isPrefixOf?]
      split
      · exact ih hword cs
      · rfl

/-- An element at the end that fails the test is not taken. -/
theorem takeWhile_concat {α : Type} {p : α → Bool} {a : α} (h : p a = false) (l : List α) :
    (l ++ [a]).takeWhile p = l.takeWhile p := by
  induction l with
  | nil => simp [h]
  | cons x l ih => rw [List.cons_append, List.takeWhile_cons, List.takeWhile_cons, ih]

/-- An element at the end that fails the test is not dropped. -/
theorem dropWhile_concat {α : Type} {p : α → Bool} {a : α} (h : p a = false) (l : List α) :
    (l ++ [a]).dropWhile p = l.dropWhile p ++ [a] := by
  induction l with
  | nil => simp [h]
  | cons x l ih =>
    rw [List.cons_append, List.dropWhile_cons, List.dropWhile_cons, ih]
    split <;> rfl

/-- A carriage return is a blank. -/
theorem isBlank_return : isBlank '\r' = true := by
  decide

/-- A carriage return at the end stays behind the identifier. -/
theorem identifier?_concat_return (cs : List Char) :
    identifier? (cs ++ ['\r']) =
      (identifier? cs).map fun found => (found.1, found.2 ++ ['\r']) := by
  have hreturn : isIdentChar '\r' = false := by decide
  cases cs with
  | nil => rfl
  | cons c cs =>
    rw [List.cons_append, identifier?, identifier?, takeWhile_concat hreturn,
      dropWhile_concat hreturn]
    split <;> rfl

/-- A carriage return at the end makes no difference to a target. -/
theorem includeTarget?_concat_return (rest : List Char) :
    includeTarget? (rest ++ ['\r']) = includeTarget? rest := by
  unfold includeTarget?
  rw [trim_concat isBlank_return]

/-! ## The meaning of a line with a carriage return at its end -/

namespace LogicalLine

/-- The meaning of a line with a carriage return at its end. -/
def Kind.withReturn : Kind → Kind
  | .includes isImport rest => .includes isImport (rest ++ ['\r'])
  | k => k

/-- A carriage return at the end makes no difference to a conditional. -/
theorem conditional?_concat_return (cs : List Char) :
    conditional? (cs ++ ['\r']) = conditional? cs := by
  have hreturn : isWordChar '\r' = false := by decide
  unfold conditional?
  rw [takeWhile_concat hreturn]

/-- A carriage return may follow the keyword of an include directive, as the end of the line
may. -/
theorem mayFollowKeyword_concat_return (cs : List Char) :
    mayFollowKeyword (cs ++ ['\r']) = mayFollowKeyword cs := by
  cases cs with
  | nil => decide
  | cons c cs => rfl

/-- A carriage return at the end of an include is one at the end of its target. -/
theorem include?_concat_return (cs : List Char) :
    include? (cs ++ ['\r']) = (include? cs).map Kind.withReturn := by
  unfold include?
  rw [isPrefixOf?_concat (by decide), isPrefixOf?_concat (by decide)]
  cases ['i', 'n', 'c', 'l', 'u', 'd', 'e'].isPrefixOf? cs with
  | some rest =>
    simp only [Option.map_some, mayFollowKeyword_concat_return]
    split <;> rfl
  | none =>
    cases ['i', 'm', 'p', 'o', 'r', 't'].isPrefixOf? cs with
    | some rest =>
      simp only [Option.map_some, Option.map_none, mayFollowKeyword_concat_return]
      split <;> rfl
    | none => rfl

/-- A carriage return at the end stays behind an identifier with blanks in front. -/
theorem spacedIdentifier?_concat_return (cs : List Char) :
    spacedIdentifier? (cs ++ ['\r']) =
      (spacedIdentifier? cs).map fun found => (found.1, found.2 ++ ['\r']) := by
  cases cs with
  | nil => rfl
  | cons c cs =>
    unfold spacedIdentifier?
    dsimp only [List.cons_append]
    split
    · obtain ⟨hcs, happend⟩ | ⟨-, happend⟩ := trimStart_concat isBlank_return cs
      · rw [hcs, happend]
        rfl
      · rw [happend, identifier?_concat_return]
    · rfl

/-- A carriage return at the end makes no difference to a definition. -/
theorem define?_concat_return (cs : List Char) : define? (cs ++ ['\r']) = define? cs := by
  unfold define?
  rw [isPrefixOf?_concat (by decide)]
  cases ['d', 'e', 'f', 'i', 'n', 'e'].isPrefixOf? cs with
  | none => rfl
  | some rest =>
    dsimp only [Option.map_some]
    rw [spacedIdentifier?_concat_return]
    cases spacedIdentifier? rest with
    | none => rfl
    | some found =>
      obtain ⟨name, value⟩ := found
      dsimp only [Option.map_some]
      have htrim : trim (value ++ ['\r']) = trim value := trim_concat isBlank_return value
      -- A carriage return is no parenthesis, so it opens no parameters.
      cases value with
      | nil => exact congrArg (fun value => some (Kind.defines name value)) htrim
      | cons v value =>
        by_cases hv : v = '('
        · subst hv
          rfl
        · simp_all

/-- A carriage return at the end makes no difference to the end of a definition. -/
theorem undefine?_concat_return (cs : List Char) : undefine? (cs ++ ['\r']) = undefine? cs := by
  unfold undefine?
  rw [isPrefixOf?_concat (by decide)]
  cases ['u', 'n', 'd', 'e', 'f'].isPrefixOf? cs with
  | none => rfl
  | some rest =>
    simp only [Option.map_some, spacedIdentifier?_concat_return, Option.map_map]
    rfl

/-- A conditional has no target that could end with a carriage return. -/
theorem conditional?_withReturn {cs : List Char} {k : Kind} (h : conditional? cs = some k) :
    k.withReturn = k := by
  unfold conditional? at h
  dsimp only at h
  split_ifs at h <;> cases h <;> rfl

/-- A definition has no target that could end with a carriage return. -/
theorem define?_withReturn {cs : List Char} {k : Kind} (h : define? cs = some k) :
    k.withReturn = k := by
  unfold define? at h
  split at h
  · cases h
  · split at h <;> cases h <;> rfl

/-- The end of a definition has no target that could end with a carriage return. -/
theorem undefine?_withReturn {cs : List Char} {k : Kind} (h : undefine? cs = some k) :
    k.withReturn = k := by
  unfold undefine? at h
  split at h
  · cases h
  · obtain ⟨found, -, rfl⟩ := Option.map_eq_some_iff.mp h
    rfl

/-- A carriage return at the end makes a difference only to the target of an include. -/
theorem kindAfterHash_concat_return (cs : List Char) :
    kindAfterHash (cs ++ ['\r']) = (kindAfterHash cs).withReturn := by
  unfold kindAfterHash
  rw [conditional?_concat_return, include?_concat_return, define?_concat_return,
    undefine?_concat_return]
  cases hconditional : conditional? cs with
  | some k => exact (conditional?_withReturn hconditional).symm
  | none =>
    cases include? cs with
    | some k => rfl
    | none =>
      cases hdefine : define? cs with
      | some k => exact (define?_withReturn hdefine).symm
      | none =>
        cases hundefine : undefine? cs with
        | some k => exact (undefine?_withReturn hundefine).symm
        | none => rfl

/-- A carriage return at the end of a line is seen only at the end of what follows the
keyword of an include directive. -/
theorem kind_concat_return (n : Nat) (cs : List Char) :
    kind ⟨n, cs ++ ['\r']⟩ = (kind ⟨n, cs⟩).withReturn := by
  unfold kind
  dsimp only
  obtain ⟨hcs, happend⟩ | ⟨hcs, happend⟩ := trimStart_concat isBlank_return cs
  · rw [hcs, happend]
    rfl
  · rw [happend]
    obtain ⟨c, rest, hrest⟩ := List.exists_cons_of_ne_nil hcs
    rw [hrest, List.cons_append]
    by_cases hc : c = '#'
    · subst hc
      show kindAfterHash (trimStart (rest ++ ['\r'])) = (kindAfterHash (trimStart rest)).withReturn
      obtain ⟨hrest, happend⟩ | ⟨-, happend⟩ := trimStart_concat isBlank_return rest
      · rw [hrest, happend]
        decide
      · rw [happend, kindAfterHash_concat_return]
    · simp [hc, Kind.withReturn]

/-- A line is another one, or the other one with a carriage return at its end. -/
def ReturnAdded (l l' : LogicalLine) : Prop :=
  l' = l ∨ l' = ⟨l.start, l.chars ++ ['\r']⟩

namespace ReturnAdded

variable {l l' : LogicalLine}

/-- The two lines are of the same kind, but for a carriage return at the end of a target. -/
theorem kind (h : ReturnAdded l l') : l'.kind = l.kind ∨ l'.kind = l.kind.withReturn := by
  obtain rfl | rfl := h
  · exact .inl rfl
  · exact .inr (kind_concat_return l.start l.chars)

/-- The two lines begin at the same place. -/
theorem start (h : ReturnAdded l l') : l'.start = l.start := by
  obtain rfl | rfl := h <;> rfl

/-- The two lines open and close the same conditionals. -/
theorem depthAfter (h : ReturnAdded l l') (depth : Nat) :
    l'.depthAfter depth = l.depthAfter depth := by
  unfold LogicalLine.depthAfter
  obtain hkind | hkind := h.kind
  · rw [hkind]
  · rw [hkind]
    cases l.kind <;> rfl

/-- The two lines have the same event. -/
theorem event? (h : ReturnAdded l l') (depth : Nat) : l'.event? depth = l.event? depth := by
  unfold LogicalLine.event?
  rw [h.start]
  obtain hkind | hkind := h.kind
  · rw [hkind]
  · rw [hkind]
    cases l.kind <;> rfl

/-- The two lines have the same directive. -/
theorem directive? (h : ReturnAdded l l') (imports : Bool) :
    l'.directive? imports = l.directive? imports := by
  unfold LogicalLine.directive?
  rw [h.start]
  obtain hkind | hkind := h.kind
  · rw [hkind]
  · rw [hkind]
    cases l.kind with
    | includes isImport rest => simp only [Kind.withReturn, includeTarget?_concat_return]
    | opens | closes | defines | definesFunction | undefines | other => rfl

/-- Lines that differ so have the same events. -/
theorem events {ls ls' : List LogicalLine} (h : List.Forall₂ ReturnAdded ls ls') (depth : Nat) :
    LogicalLine.events depth ls' = LogicalLine.events depth ls := by
  induction h generalizing depth with
  | nil => rfl
  | cons hl _ ih =>
    rw [LogicalLine.events, LogicalLine.events, hl.event?, hl.depthAfter, ih]

/-- Lines that differ so have the same directives. -/
theorem filterMap_directive? {ls ls' : List LogicalLine} (h : List.Forall₂ ReturnAdded ls ls')
    (imports : Bool) :
    ls'.filterMap (LogicalLine.directive? imports) =
      ls.filterMap (LogicalLine.directive? imports) := by
  induction h with
  | nil => rfl
  | cons hl _ ih => rw [List.filterMap_cons, List.filterMap_cons, hl.directive?, ih]

end ReturnAdded

/-- Lines differ from themselves in no carriage return. -/
theorem forall₂_returnAdded_refl (ls : List LogicalLine) : List.Forall₂ ReturnAdded ls ls :=
  List.forall₂_same.mpr fun _ _ => .inl rfl

/-! ## The scan of a text with carriage returns -/

namespace Cursor

variable {s : Cursor}

/-- A carriage return before a line feed, if nothing is pending that it completes. -/
theorem read_return_feed (mode : Mode) (d : Draft) :
    (read mode d '\r').1 = [] ∧
      ((read mode d '\r').2.step '\n').2 = (read mode d '\n').2 ∧
      List.Forall₂ ReturnAdded (read mode d '\n').1 ((read mode d '\r').2.step '\n').1 := by
  cases mode with
  | code => exact ⟨rfl, rfl, forall₂_returnAdded_refl _⟩
  | literal quote =>
    -- The carriage return is kept here, whatever quote ends the literal.
    have hread : read (.literal quote) d '\r' =
        ([], ⟨if '\r' = quote then .code else .literal quote, .nothing, d.push '\r'⟩) := rfl
    have hline : ReturnAdded d.line (d.push '\r').line := .inr (by simp [Draft.line, Draft.push])
    rw [hread]
    refine ⟨rfl, ?_⟩
    split_ifs <;> exact ⟨rfl, .cons hline .nil⟩
  | blockComment => exact ⟨rfl, rfl, forall₂_returnAdded_refl _⟩
  | lineComment => exact ⟨rfl, rfl, forall₂_returnAdded_refl _⟩

/-- A line feed leads to the same place with a carriage return before it as without, and
completes the same line, but for this character. -/
theorem step_return_feed (h : s.pending ≠ .backslashReturn) :
    (s.step '\r').1 = [] ∧ ((s.step '\r').2.step '\n').2 = (s.step '\n').2 ∧
      List.Forall₂ ReturnAdded (s.step '\n').1 ((s.step '\r').2.step '\n').1 := by
  by_cases hbackslash : s.pending = .backslash
  · obtain ⟨mode, pending, d⟩ := s
    obtain rfl : pending = .backslash := hbackslash
    cases mode <;> exact ⟨rfl, rfl, .nil⟩
  · have hcompleted : s.completed? '\r' = none ∧ s.completed? '\n' = none := by
      obtain ⟨mode, pending, d⟩ := s
      cases mode <;> cases pending <;> simp_all [completed?]
    have hreturn : s.step '\r' = read s.mode s.settled '\r' :=
      step_of_completed?_eq_none hcompleted.1
    have hfeed : s.step '\n' = read s.mode s.settled '\n' :=
      step_of_completed?_eq_none hcompleted.2
    rw [hreturn, hfeed]
    exact read_return_feed s.mode s.settled

end Cursor

/-- The text with a carriage return before each line feed. -/
def withReturns (text : List Char) : List Char :=
  text.flatMap fun c => if c = '\n' then ['\r', '\n'] else [c]

/-- A text without carriage returns has the same lines with one before each line feed, but
for carriage returns at their ends. -/
theorem Cursor.forall₂_run_withReturns {text : List Char} (hreturn : '\r' ∉ text) {s : Cursor}
    (hpending : s.pending ≠ .backslashReturn) :
    List.Forall₂ ReturnAdded (s.run text) (s.run (withReturns text)) := by
  induction text generalizing s with
  | nil => exact forall₂_returnAdded_refl _
  | cons c text ih =>
    rw [List.mem_cons, not_or] at hreturn
    obtain ⟨hc, htext⟩ := hreturn
    have hnext : (s.step c).2.pending ≠ .backslashReturn := by
      intro h
      have hsuffix := s.pending_step c
      rw [h] at hsuffix
      obtain ⟨before, heq⟩ := hsuffix
      have hlast := congrArg List.getLast? heq
      simp [Pending.chars] at hlast
      exact hc hlast
    by_cases hfeed : c = '\n'
    · subst hfeed
      obtain ⟨hnone, hafter, hlines⟩ := step_return_feed hpending
      have htext' : withReturns ('\n' :: text) = '\r' :: '\n' :: withReturns text := rfl
      rw [htext', run_cons, run_cons, run_cons, hnone, hafter, List.nil_append]
      exact List.rel_append hlines (ih htext hnext)
    · have htext' : withReturns (c :: text) = c :: withReturns text := by
        simp [withReturns, hfeed]
      rw [htext', run_cons, run_cons]
      exact List.rel_append (forall₂_returnAdded_refl _) (ih htext hnext)

end LogicalLine

namespace Directives

open LogicalLine

/-- A text has the same directives with either line ending, down to the numbers of their
lines. -/
theorem ofText_withReturns (imports : Bool) (text : List Char) (h : '\r' ∉ text) :
    ofText imports (withReturns text) = ofText imports text := by
  have hlines : List.Forall₂ ReturnAdded (LogicalLine.ofText text)
      (LogicalLine.ofText (withReturns text)) := by
    rw [ofText_eq_run, ofText_eq_run]
    exact Cursor.forall₂_run_withReturns h (by decide)
  have hincludes : (ofText imports (withReturns text)).includes =
      (ofText imports text).includes := by
    rw [includes_ofText, includes_ofText, ReturnAdded.filterMap_directive? hlines]
  have hmacros : (ofText imports (withReturns text)).macros = (ofText imports text).macros := by
    rw [macros_ofText, macros_ofText, ReturnAdded.events hlines]
  calc ofText imports (withReturns text)
      = ⟨(ofText imports (withReturns text)).includes,
          (ofText imports (withReturns text)).macros⟩ := rfl
    _ = ofText imports text := by rw [hincludes, hmacros]

/-- Quotes that are not closed keep the carriage return at the end of their line. -/
theorem ofText_withReturns_quotes :
    let text := "#if A\n#define B \"b\\\n.h\n#undef it's\n#include <it's>\n#endif".toList
    '\r' ∉ text ∧ ofText false (withReturns text) = ofText false text := by
  intro text
  have hreturn : '\r' ∉ text := by decide
  exact ⟨hreturn, ofText_withReturns false text hreturn⟩

end Directives

end Recompile
