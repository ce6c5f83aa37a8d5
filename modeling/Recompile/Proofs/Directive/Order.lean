import Mathlib.Data.List.TakeWhile
import Recompile.Directive.Parser
import Recompile.Resolver

/-!
# The order of directives

The lines on which logical lines start strictly increase, so the number of a line tells
the logical line. What a scan gathers is therefore told line by line, and the macro
events with a smaller line than an include directive are those of the lines before it.
This is what makes the look-up by line numbers a look-up in the order of the text.
-/

set_option autoImplicit false

namespace Recompile

namespace LogicalLine

/-! ## The starts of logical lines -/

/-- The lines start no earlier than a given line of the text, and strictly later one
after the other. -/
def StartFrom (first : Nat) (lines : List LogicalLine) : Prop :=
  (∀ l ∈ lines, first ≤ l.start) ∧ lines.Pairwise fun l l' => l.start < l'.start

/-- A scan yields lines that start from the line of its draft on. -/
theorem startFrom_scan (mode : Mode) (d : Draft) (cs : List Char)
    (hd : d.start ≤ d.current) : StartFrom d.start (scan mode d cs) := by
  fun_induction scan mode d cs
  case case1 => exact ⟨by simp, List.Pairwise.nil⟩
  case case2 => exact ⟨by simp [Draft.line], by simp⟩
  case case6 d rest _ ih =>
    -- The one place where a line is complete: the next draft starts after it.
    obtain ⟨hfirst, hlater⟩ := ih (Nat.le_refl _)
    have hnext : ∀ l ∈ scan .code (.fresh (d.current + 1)) rest, d.start < l.start := by
      intro l hl
      have hl : d.current + 1 ≤ l.start := hfirst l hl
      omega
    refine ⟨?_, List.pairwise_cons.mpr ⟨hnext, hlater⟩⟩
    intro l hl
    rcases List.mem_cons.mp hl with rfl | hl
    · exact Nat.le_refl _
    · exact Nat.le_of_lt (hnext l hl)
  case case3 ih | case4 ih | case5 ih => exact ih (Nat.le_succ_of_le hd)
  all_goals
    rename_i ih
    exact ih hd

/-- The logical lines of a text start on different lines, in the order of the text. -/
theorem pairwise_ofText (text : List Char) :
    (ofText text).Pairwise fun l l' => l.start < l'.start :=
  (startFrom_scan .code (.fresh 1) text (Nat.le_refl 1)).2

/-! ## What a line adds to the directives -/

/-- The number of open conditional blocks after a line. -/
def depthAfter (depth : Nat) (l : LogicalLine) : Nat :=
  match l.kind with
  | .opens => depth + 1
  | .closes => depth - 1
  | _ => depth

/-- The macro event of a line before which some conditional blocks are open. -/
def event? (depth : Nat) (l : LogicalLine) : Option MacroEvent :=
  match l.kind with
  | .defines name value => some (.define (String.ofList name) (String.ofList value) l.start)
  | .definesFunction name => some (.defineFunction (String.ofList name) l.start)
  | .undefines name => some (.undefine (String.ofList name) (decide (0 < depth)) l.start)
  | _ => none

/-- The include directive of a line; `imports` says whether `#import` is one. -/
def directive? (imports : Bool) (l : LogicalLine) : Option Include :=
  match l.kind with
  | .includes isImport rest =>
    if isImport && !imports then none
    else (includeTarget? rest).map fun found =>
      ⟨found.1, String.ofList found.2, isImport, l.start⟩
  | _ => none

/-- The macro events of lines before which some conditional blocks are open. -/
def events : Nat → List LogicalLine → List MacroEvent
  | _, [] => []
  | depth, l :: ls => (l.event? depth).toList ++ events (l.depthAfter depth) ls

/-- An event stands on the line on which its logical line starts. -/
theorem line_of_event? {depth : Nat} {l : LogicalLine} {e : MacroEvent}
    (h : l.event? depth = some e) : e.line = l.start := by
  unfold event? at h
  split at h <;> cases h <;> rfl

/-- An include directive stands on the line on which its logical line starts. -/
theorem line_of_directive? {imports : Bool} {l : LogicalLine} {i : Include}
    (h : l.directive? imports = some i) : i.line = l.start := by
  unfold directive? at h
  split at h
  · split at h
    · cases h
    · obtain ⟨found, -, rfl⟩ := Option.map_eq_some_iff.mp h
      rfl
  · cases h

/-- Every event of some lines is the event of one of them. -/
theorem exists_of_mem_events {e : MacroEvent} :
    ∀ {depth : Nat} {ls : List LogicalLine}, e ∈ events depth ls →
      ∃ l ∈ ls, e.line = l.start
  | depth, l :: ls, h => by
    rcases List.mem_append.mp h with h | h
    · exact ⟨l, List.mem_cons_self, line_of_event? (Option.mem_toList.mp h)⟩
    · obtain ⟨l', hl', he⟩ := exists_of_mem_events h
      exact ⟨l', List.mem_cons_of_mem _ hl', he⟩

/-- The events of the lines of a text are those of its first lines, followed by those of
the other lines. -/
theorem events_append (depth : Nat) (before after : List LogicalLine) :
    events depth (before ++ after) =
      events depth before ++ events (before.foldl depthAfter depth) after := by
  induction before generalizing depth with
  | nil => rfl
  | cons l before ih =>
    simp only [List.cons_append, events, ih, List.append_assoc, List.foldl_cons]

/-- The events with a smaller line than a logical line are those of the lines before it. -/
theorem takeWhile_events {before after : List LogicalLine} {l : LogicalLine}
    (ordered : (before ++ l :: after).Pairwise fun l l' => l.start < l'.start)
    (depth : Nat) :
    (events depth (before ++ l :: after)).takeWhile (fun e => e.line < l.start) =
      events depth before := by
  obtain ⟨-, hafter, hbefore⟩ := List.pairwise_append.mp ordered
  have hpos : ∀ e ∈ events depth before, decide (e.line < l.start) = true := by
    intro e he
    obtain ⟨l', hl', hline⟩ := exists_of_mem_events he
    rw [decide_eq_true_eq, hline]
    exact hbefore l' hl' l List.mem_cons_self
  have hneg : ∀ e ∈ events (before.foldl depthAfter depth) (l :: after),
      ¬ e.line < l.start := by
    intro e he
    obtain ⟨l', hl', hline⟩ := exists_of_mem_events he
    rw [hline, Nat.not_lt]
    rcases List.mem_cons.mp hl' with rfl | hl'
    · exact Nat.le_refl _
    · exact Nat.le_of_lt ((List.pairwise_cons.mp hafter).1 l' hl')
  rw [events_append, List.takeWhile_append_of_pos hpos]
  rw [List.takeWhile_eq_nil_iff.mpr, List.append_nil]
  intro hlength
  simpa using hneg _ (List.getElem_mem hlength)

end LogicalLine

namespace Directives

open LogicalLine

/-- The macro events gathered from some lines are those of the lines, in their order. -/
theorem macros_gather (imports : Bool) (depth : Nat) (ls : List LogicalLine) :
    (gather imports depth ls).macros = events depth ls := by
  fun_induction gather imports depth ls <;>
    simp_all [events, event?, depthAfter, none, addInclude, addMacro]

/-- The includes gathered from some lines are those of the lines, in their order. -/
theorem includes_gather (imports : Bool) (depth : Nat) (ls : List LogicalLine) :
    (gather imports depth ls).includes = ls.filterMap (directive? imports) := by
  fun_induction gather imports depth ls <;>
    simp_all [directive?, none, addInclude, addMacro]

/-- The includes of a text are those of its logical lines. -/
theorem includes_ofText (imports : Bool) (text : List Char) :
    (ofText imports text).includes = (LogicalLine.ofText text).filterMap (directive? imports) :=
  includes_gather imports 0 _

/-- The macro events of a text are those of its logical lines. -/
theorem macros_ofText (imports : Bool) (text : List Char) :
    (ofText imports text).macros = events 0 (LogicalLine.ofText text) :=
  macros_gather imports 0 _

/-- The lines of include directives increase. -/
theorem pairwise_includes (imports : Bool) (text : List Char) :
    (ofText imports text).includes.Pairwise fun i j => i.line < j.line := by
  rw [includes_ofText]
  refine List.Pairwise.filterMap _ ?_ (pairwise_ofText text)
  intro l l' hlt i hi j hj
  rw [line_of_directive? hi, line_of_directive? hj]
  exact hlt

end Directives

/-! ## Targets in the order of the text -/

namespace Resolver

/-- Each include directive sees all macro events with a smaller line, however many
directives stand before it. -/
theorem targetsFrom_eq_map (scope : MacroScope) (events : List MacroEvent)
    (is : List Include) (ordered : is.Pairwise fun i j => i.line < j.line) :
    targetsFrom scope events is = is.map fun i =>
      (i, target? (scope.applyAll (events.takeWhile fun e => e.line < i.line)) i) := by
  induction is generalizing scope events with
  | nil => rfl
  | cons i is ih =>
    obtain ⟨hfirst, hrest⟩ := List.pairwise_cons.mp ordered
    simp only [targetsFrom, List.map_cons, List.cons.injEq, true_and]
    rw [ih _ _ hrest]
    refine List.map_congr_left fun j hj => ?_
    -- The events that the earlier directive has used up are the first of those that the
    -- later one sees.
    have hpos : ∀ e ∈ events.takeWhile (fun e => e.line < i.line),
        decide (e.line < j.line) = true := by
      intro e he
      have he := List.mem_takeWhile_imp he
      have hij := hfirst j hj
      simp only [decide_eq_true_eq] at he ⊢
      omega
    have hsplit : events.takeWhile (fun e => e.line < j.line) =
        events.takeWhile (fun e => e.line < i.line) ++
          (events.dropWhile fun e => e.line < i.line).takeWhile fun e => e.line < j.line := by
      rw [← List.takeWhile_append_of_pos hpos, List.takeWhile_append_dropWhile]
    rw [hsplit]
    simp only [MacroScope.applyAll, List.foldl_append]

end Resolver

end Recompile
