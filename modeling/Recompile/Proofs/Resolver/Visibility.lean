import Mathlib.Data.List.Induction
import Recompile.Proofs.Directive.Composition

/-!
# What a directive sees

The include directives and the macro events of a text are gathered in two lists, and only
their line numbers tell how they stand in the text. Here they are found in one list, in the
order of the text (`Directives.findings`). A finding has the number of the line on which its
logical line starts: one more than the line feeds of the text above it
(`LogicalLine.exists_above`). So the numbers increase from one finding to the next, and the
pass over both lists that resolves the directives of a file gives each of them the scope in
which all events above it have been applied, and nothing else
(`Resolver.resolveAll_sees_above`).
-/

set_option autoImplicit false

namespace Recompile

/-! ## Findings in the order of the text -/

/-- What a scan finds on one logical line. -/
inductive Finding where
  | directive (i : Include)
  | event (e : MacroEvent)
  deriving DecidableEq, Repr

namespace Finding

/-- The line of a finding. -/
def line : Finding → Nat
  | directive i => i.line
  | event e => e.line

/-- The include directive, if it is one. -/
def directive? : Finding → Option Include
  | directive i => some i
  | event _ => none

/-- The macro event, if it is one. -/
def event? : Finding → Option MacroEvent
  | directive _ => none
  | event e => some e

end Finding

namespace LogicalLine

/-- What is found on a line before which some conditional blocks are open. -/
def finding? (imports : Bool) (depth : Nat) (l : LogicalLine) : Option Finding :=
  match l.directive? imports with
  | some i => some (.directive i)
  | none => (l.event? depth).map .event

/-- What is found on lines before which some conditional blocks are open. -/
def findings (imports : Bool) : Nat → List LogicalLine → List Finding
  | _, [] => []
  | depth, l :: ls => (l.finding? imports depth).toList ++ findings imports (l.depthAfter depth) ls

variable {imports : Bool} {depth : Nat} {l : LogicalLine} {f : Finding}

/-- What is found on a logical line is on its first line. -/
theorem line_of_finding? (h : l.finding? imports depth = some f) : f.line = l.start := by
  unfold finding? at h
  split at h
  · rename_i i hi
    cases h
    exact line_of_directive? hi
  · obtain ⟨e, he, rfl⟩ := Option.map_eq_some_iff.mp h
    exact line_of_event? he

/-- A line with an include directive has no event. -/
theorem event?_of_directive? {i : Include} (h : l.directive? imports = some i) (depth : Nat) :
    l.event? depth = none := by
  unfold directive? at h
  unfold event?
  split at h
  · rename_i hkind
    rw [hkind]
  · cases h

/-- The directives among the findings of some lines are those of the lines. -/
theorem filterMap_directive?_findings (imports : Bool) (depth : Nat) (ls : List LogicalLine) :
    (findings imports depth ls).filterMap Finding.directive? =
      ls.filterMap (directive? imports) := by
  induction ls generalizing depth with
  | nil => rfl
  | cons l ls ih =>
    rw [findings, List.filterMap_append, ih, List.filterMap_cons, finding?]
    cases hdirective : l.directive? imports with
    | some i => rfl
    | none => cases l.event? depth <;> rfl

/-- The events among the findings of some lines are those of the lines. -/
theorem filterMap_event?_findings (imports : Bool) (depth : Nat) (ls : List LogicalLine) :
    (findings imports depth ls).filterMap Finding.event? = events depth ls := by
  induction ls generalizing depth with
  | nil => rfl
  | cons l ls ih =>
    rw [findings, List.filterMap_append, ih, events, finding?]
    cases hdirective : l.directive? imports with
    | some i =>
      rw [event?_of_directive? hdirective]
      rfl
    | none => cases l.event? depth <;> rfl

/-- What is found stands on one of the lines, and what is found before it on those before. -/
theorem exists_line_of_findings {before after : List Finding} {ls : List LogicalLine}
    (h : findings imports depth ls = before ++ f :: after) :
    ∃ linesBefore l linesAfter, ls = linesBefore ++ l :: linesAfter ∧
      findings imports depth linesBefore = before ∧
      l.finding? imports (linesBefore.foldl depthAfter depth) = some f := by
  induction ls generalizing depth before with
  | nil => cases before <;> cases h
  | cons l ls ih =>
    rw [findings] at h
    cases hfinding : l.finding? imports depth with
    | none =>
      rw [hfinding] at h
      obtain ⟨linesBefore, l', linesAfter, rfl, hbefore, hl'⟩ := ih h
      refine ⟨l :: linesBefore, l', linesAfter, rfl, ?_, hl'⟩
      rw [findings, hfinding, hbefore]
      rfl
    | some g =>
      rw [hfinding, Option.toList_some, List.singleton_append] at h
      cases before with
      | nil =>
        obtain ⟨rfl, -⟩ := List.cons.inj h
        exact ⟨[], l, ls, rfl, rfl, hfinding⟩
      | cons g' before =>
        obtain ⟨rfl, htail⟩ := List.cons.inj h
        obtain ⟨linesBefore, l', linesAfter, rfl, hbefore, hl'⟩ := ih htail
        refine ⟨l :: linesBefore, l', linesAfter, rfl, ?_, hl'⟩
        rw [findings, hfinding, hbefore]
        rfl

/-- Each finding is on the first line of one of the lines. -/
theorem exists_of_mem_findings {ls : List LogicalLine} (h : f ∈ findings imports depth ls) :
    ∃ l ∈ ls, f.line = l.start := by
  obtain ⟨before, after, hsplit⟩ := List.append_of_mem h
  obtain ⟨linesBefore, l, linesAfter, rfl, -, hl⟩ := exists_line_of_findings hsplit
  exact ⟨l, by simp, line_of_finding? hl⟩

/-- The numbers of findings increase as those of the lines do. -/
theorem pairwise_findings {ls : List LogicalLine}
    (ordered : ls.Pairwise fun l l' => l.start < l'.start) (imports : Bool) (depth : Nat) :
    (findings imports depth ls).Pairwise fun f g => f.line < g.line := by
  induction ls generalizing depth with
  | nil => exact List.Pairwise.nil
  | cons l ls ih =>
    obtain ⟨hfirst, hrest⟩ := List.pairwise_cons.mp ordered
    rw [findings]
    refine List.pairwise_append.mpr ⟨?_, ih hrest _, ?_⟩
    · cases l.finding? imports depth <;> simp
    · intro f hf g hg
      obtain ⟨l', hl', hline⟩ := exists_of_mem_findings hg
      rw [line_of_finding? (Option.mem_toList.mp hf), hline]
      exact hfirst l' hl'

/-! ## The text above a line -/

/-- The first line that a scan yields starts where its draft does. -/
theorem start_of_scan (mode : Mode) (d : Draft) (cs : List Char) :
    ∀ l ∈ (scan mode d cs).head?, l.start = d.start := by
  fun_induction scan mode d cs <;> simp_all [Draft.line, Draft.push, Draft.goOn]

/-- A character completes a line only if it is a line feed that continues no line and stands
in no block comment. -/
theorem Cursor.eq_feed_of_step {s : Cursor} {c : Char} (h : (s.step c).1 ≠ []) :
    c = '\n' ∧ s.pending.continuesLine = false ∧ s.mode ≠ .blockComment := by
  have hcompleted : s.completed? c = none := by
    cases hs : s.completed? c with
    | none => rfl
    | some s' => exact absurd (by rw [step_of_completed? hs]) h
  rw [step_of_completed?_eq_none hcompleted, read] at h
  split_ifs at h with hbackslash hfeed hmode
  · exact absurd rfl h
  · exact absurd rfl h
  · subst hfeed
    refine ⟨rfl, ?_, hmode⟩
    obtain ⟨mode, pending, d⟩ := s
    cases mode <;> cases pending <;> simp_all [completed?, Pending.continuesLine]
  · exact absurd rfl h

/-- The first lines that are complete at the end of a text are those of a text that ends a
line. The induction is on the text from its end. -/
theorem exists_endsLine {text : List Char} {before : List LogicalLine}
    (h : before <+: Cursor.start.emitted text) :
    ∃ above, above <+: text ∧ EndsLine above ∧ ofText above = before := by
  induction text using List.reverseRecOn with
  | nil =>
    obtain rfl := List.prefix_nil.mp h
    exact ⟨[], List.prefix_rfl, ⟨.inl rfl, by decide⟩, rfl⟩
  | append_singleton text c ih =>
    have hemitted : Cursor.start.emitted (text ++ [c]) =
        Cursor.start.emitted text ++ ((Cursor.start.after text).step c).1 := by
      rw [Cursor.emitted_append]
      exact congrArg _ (List.append_nil _)
    by_cases hstep : ((Cursor.start.after text).step c).1 = []
    · rw [hemitted, hstep, List.append_nil] at h
      obtain ⟨above, hfirst, habove⟩ := ih h
      exact ⟨above, hfirst.trans (List.prefix_append _ _), habove⟩
    · obtain ⟨rfl, hpending, hmode⟩ := Cursor.eq_feed_of_step hstep
      have hfeed := Cursor.step_feed hpending hmode
      have hends : EndsLine (text ++ ['\n']) := by
        refine ⟨.inr ⟨text, rfl, hpending⟩, ?_⟩
        rw [Cursor.after_append]
        show ((Cursor.start.after text).step '\n').2.mode ≠ _
        rw [hfeed]
        exact Mode.noConfusion
      have hlines := hends.ofText_eq_emitted
      rw [hemitted, hfeed] at h hlines
      obtain rfl | h := List.prefix_concat_iff.mp h
      · exact ⟨text ++ ['\n'], List.prefix_rfl, hends, hlines⟩
      · obtain ⟨above, hfirst, habove⟩ := ih h
        exact ⟨above, hfirst.trans (List.prefix_append _ _), habove⟩

/-- Above each line stands a text with the lines before it, and the line has the number of
the line feeds in there, counted from one. -/
theorem exists_above {text : List Char} {before after : List LogicalLine} {l : LogicalLine}
    (h : ofText text = before ++ l :: after) :
    ∃ above, above <+: text ∧ EndsLine above ∧ ofText above = before ∧
      l.start = 1 + above.count '\n' := by
  have hcomplete : before <+: Cursor.start.emitted text := by
    have hlines := h
    rw [ofText_eq_run, Cursor.run_eq_emitted] at hlines
    have hfinish : (Cursor.start.after text).finish.length ≤ 1 := by
      unfold Cursor.finish
      split_ifs <;> simp
    have hlength := congrArg List.length hlines
    simp only [List.length_append, List.length_cons] at hlength
    exact List.prefix_of_prefix_length_le ⟨l :: after, hlines.symm⟩ (List.prefix_append _ _)
      (by omega)
  obtain ⟨above, ⟨below, rfl⟩, hends, habove⟩ := exists_endsLine hcomplete
  refine ⟨above, List.prefix_append _ _, hends, habove, ?_⟩
  rw [ofText_append hends, habove] at h
  obtain ⟨l', rest, hbelow, rfl, -⟩ := List.map_eq_cons_iff.mp (List.append_cancel_left h)
  have hstart : l'.start = 1 := by
    apply start_of_scan .code (.fresh 1) below
    show l' ∈ (ofText below).head?
    rw [hbelow]
    rfl
  show l'.start + above.count '\n' = _
  rw [hstart]

end LogicalLine

namespace Directives

open LogicalLine

/-- The include directives and macro events of a text, in its order. -/
def findings (imports : Bool) (text : List Char) : List Finding :=
  LogicalLine.findings imports 0 (LogicalLine.ofText text)

/-- The directives among the findings of a text are its includes. -/
theorem filterMap_directive?_findings (imports : Bool) (text : List Char) :
    (findings imports text).filterMap Finding.directive? = (ofText imports text).includes := by
  rw [includes_ofText]
  exact LogicalLine.filterMap_directive?_findings imports 0 _

/-- The events among the findings of a text are its macro events. -/
theorem filterMap_event?_findings (imports : Bool) (text : List Char) :
    (findings imports text).filterMap Finding.event? = (ofText imports text).macros := by
  rw [macros_ofText]
  exact LogicalLine.filterMap_event?_findings imports 0 _

end Directives

open LogicalLine in
/-- The place of a finding in a text: its logical line is the first one after `above`, which
ends a line and in which `before` is found. -/
structure Finding.StandsBelow (imports : Bool) (text above : List Char) (before : List Finding)
    (f : Finding) : Prop where
  isPrefix : above <+: text
  endsLine : EndsLine above
  before : Directives.findings imports above = before
  next : ∃ l after, LogicalLine.ofText text = LogicalLine.ofText above ++ l :: after ∧
    l.finding? imports (openBlocks above) = some f

/-- Each finding stands somewhere, and its line tells how many line feeds are above it. -/
theorem Finding.exists_standsBelow {imports : Bool} {text : List Char}
    {before after : List Finding} {f : Finding}
    (h : Directives.findings imports text = before ++ f :: after) :
    ∃ above, f.StandsBelow imports text above before ∧ f.line = 1 + above.count '\n' := by
  obtain ⟨linesBefore, l, linesAfter, hlines, hbefore, hl⟩ :=
    LogicalLine.exists_line_of_findings h
  obtain ⟨above, hfirst, hends, habove, hstart⟩ := LogicalLine.exists_above hlines
  refine ⟨above, ⟨hfirst, hends, ?_, l, linesAfter, ?_, ?_⟩, ?_⟩
  · rw [Directives.findings, habove, hbefore]
  · rw [hlines, habove]
  · rw [LogicalLine.openBlocks, habove, hl]
  · rw [LogicalLine.line_of_finding? hl, hstart]

/-! ## The scope of a directive -/

namespace Resolver

variable {imports : Bool} {text : List Char} {before after : List Finding} {i : Include}

/-- Each directive of a file is resolved in a scope that is made for it: from the macros
given from outside and the events with a smaller line. -/
theorem resolveAll_eq_map (r : Resolver) (t : FileTree) (imports : Bool) (text : List Char)
    (file : Path) :
    r.resolveAll t (.ofText imports text) file = (Directives.ofText imports text).includes.map
      fun i => (i, r.resolve t ((MacroScope.ofExternal r.macros).applyAll
        ((Directives.ofText imports text).macros.takeWhile fun e => e.line < i.line))
          (directoryOf file) i) := by
  rw [resolveAll, targets, targetsFrom_eq_map _ _ _ (Directives.pairwise_includes imports text),
    List.map_map]
  rfl

/-- The events with a smaller line than a directive are those that stand before it. -/
theorem takeWhile_macros (h : Directives.findings imports text = before ++ .directive i :: after) :
    (Directives.ofText imports text).macros.takeWhile (fun e => e.line < i.line) =
      before.filterMap Finding.event? := by
  obtain ⟨linesBefore, l, linesAfter, hlines, hbefore, hl⟩ :=
    LogicalLine.exists_line_of_findings h
  have hline : i.line = l.start := LogicalLine.line_of_finding? hl
  have hordered := LogicalLine.pairwise_ofText text
  rw [hlines] at hordered
  rw [Directives.macros_ofText, hlines, hline, LogicalLine.takeWhile_events hordered, ← hbefore,
    LogicalLine.filterMap_event?_findings]

/-- A directive is resolved in the scope of exactly the events that were found before it. -/
theorem getElem?_resolveAll (r : Resolver) (t : FileTree) (file : Path)
    (h : Directives.findings imports text = before ++ .directive i :: after) :
    (r.resolveAll t (.ofText imports text) file)[(before.filterMap Finding.directive?).length]? =
      some (i, r.resolve t ((MacroScope.ofExternal r.macros).applyAll
        (before.filterMap Finding.event?)) (directoryOf file) i) := by
  have hinclude : (Directives.ofText imports text).includes[
      (before.filterMap Finding.directive?).length]? = some i := by
    rw [← Directives.filterMap_directive?_findings, h, List.filterMap_append,
      List.getElem?_append_right (Nat.le_refl _), Nat.sub_self]
    rfl
  rw [resolveAll_eq_map, List.getElem?_map, hinclude, Option.map_some, takeWhile_macros h]

/-- The findings of a text are its include directives and its macro events, and their line
numbers increase strictly. Each stands on the line that comes after the line feeds of the text
above it. All directives are resolved in one pass, each in the scope that the macros given from
outside and the events above it make. -/
theorem resolveAll_sees_above (r : Resolver) (t : FileTree) (imports : Bool) (text : List Char)
    (file : Path) :
    let ds := Directives.ofText imports text
    let found := Directives.findings imports text
    (found.filterMap Finding.directive? = ds.includes ∧
      found.filterMap Finding.event? = ds.macros) ∧
    found.Pairwise (fun f g => f.line < g.line) ∧
    (∀ before f after, found = before ++ f :: after →
      ∃ above, f.StandsBelow imports text above before ∧ f.line = 1 + above.count '\n') ∧
    (r.resolveAll t ds file).map Prod.fst = ds.includes ∧
    ∀ before i after, found = before ++ .directive i :: after →
      (r.resolveAll t ds file)[(before.filterMap Finding.directive?).length]? =
        some (i, r.resolve t ((MacroScope.ofExternal r.macros).applyAll
          (before.filterMap Finding.event?)) (directoryOf file) i) := by
  intro ds found
  have hordered : found.Pairwise fun f g => f.line < g.line :=
    LogicalLine.pairwise_findings (LogicalLine.pairwise_ofText text) imports 0
  have heach : (r.resolveAll t ds file).map Prod.fst = ds.includes := by
    rw [resolveAll_eq_map, List.map_map]
    exact List.map_id _
  refine ⟨⟨?_, ?_⟩, hordered, ?_, heach, ?_⟩
  · exact Directives.filterMap_directive?_findings imports text
  · exact Directives.filterMap_event?_findings imports text
  · exact fun before f after h => Finding.exists_standsBelow h
  · exact fun before i after h => getElem?_resolveAll r t file h

/-- A directive below the definition of its macro sees it, though the first line begins in a
comment of two lines and the definition goes on in the next line. -/
theorem resolveAll_sees_above_define :
    let r : Resolver := ⟨[], [("M", "<m>")]⟩
    let text := "/*\n*/#include N\n#define N \\\n \"x\"\n#include N".toList
    let definition : MacroEvent := .define "N" "\"x\"" 3
    let before : List Finding := [.directive ⟨.macroName, "N", false, 1⟩, .event definition]
    let i : Include := ⟨.macroName, "N", false, 5⟩
    Directives.findings false text = before ++ [.directive i] ∧
      (r.resolveAll (.bare []) (.ofText false text) .here)[1]? =
        some (i, r.resolve (.bare []) ((MacroScope.ofExternal r.macros).applyAll [definition])
          (directoryOf .here) i) := by
  intro r text definition before i
  have hfound : Directives.findings false text = before ++ [.directive i] := by decide +kernel
  obtain ⟨-, -, -, -, hseen⟩ := resolveAll_sees_above r (.bare []) false text .here
  exact ⟨hfound, hseen before i [] hfound⟩

end Resolver

end Recompile
