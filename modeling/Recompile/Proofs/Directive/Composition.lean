import Recompile.Proofs.Directive.Simulation

/-!
# Texts in two parts

A text can be parted where a logical line ends (`LogicalLine.EndsLine`). There the scan has
come to the state that it starts with, but for the number of the line, so it finds in the
second part what it finds in a text of its own, further down by the line feeds of the first
part (`LogicalLine.ofText_append`). The directives are composed in the same way
(`Directives.ofText_append_of_endsLine`). Only the conditional blocks reach over the end of
a line: the events of the second part are told with the number of blocks that the first part
leaves open (`LogicalLine.openBlocks`), and this number decides which of its `#undef` lines
are conditional.
-/

set_option autoImplicit false

namespace Recompile

/-! ## Further down in a text -/

/-- The directive as it is found with more lines before it. -/
def Include.later (n : Nat) (i : Include) : Include :=
  { i with line := i.line + n }

/-- The event as it is found with more lines before it. -/
def MacroEvent.later (n : Nat) : MacroEvent → MacroEvent
  | .define name value line => .define name value (line + n)
  | .defineFunction name line => .defineFunction name (line + n)
  | .undefine name conditional line => .undefine name conditional (line + n)

/-- The event, an `#undef` taken for one that is not conditional. -/
def MacroEvent.unconditional : MacroEvent → MacroEvent
  | .undefine name _ line => .undefine name false line
  | e => e

namespace LogicalLine

variable {n : Nat}

/-- The line as it is found with more lines before it. -/
def later (n : Nat) (l : LogicalLine) : LogicalLine :=
  { l with start := l.start + n }

/-- The draft as it is with more lines before it. -/
def Draft.later (n : Nat) (d : Draft) : Draft :=
  { d with start := d.start + n, current := d.current + n }

/-- Lines further down are of the same kind. -/
theorem kind_later (l : LogicalLine) : (l.later n).kind = l.kind :=
  rfl

/-- Whether a line feed that comes next belongs to a line continuation. -/
def Pending.continuesLine : Pending → Bool
  | .backslash | .backslashReturn => true
  | .nothing | .slash | .star => false

namespace Cursor

/-- The same place with more lines before it. -/
def later (n : Nat) (s : Cursor) : Cursor :=
  { s with draft := s.draft.later n }

/-- Reading does the same further down, with later line numbers. -/
theorem keeps_later (n : Nat) :
    Keeps (fun d d' => d' = d.later n) (fun l l' => l' = l.later n) where
  push c h := by rw [h]; rfl
  goOn h := by simp [h, Draft.goOn, Draft.later, Nat.add_right_comm]
  next h := by simp [h, Draft.fresh, Draft.later, Nat.add_right_comm]
  line h := by rw [h]; rfl
  isEmpty h := by rw [h]; rfl

/-- With more lines before it, a text has the same lines further down. -/
theorem run_later (s : Cursor) (cs : List Char) :
    (s.later n).run cs = (s.run cs).map (LogicalLine.later n) := by
  have hrelated : Related (fun d d' => d' = d.later n) s (s.later n) := ⟨rfl, rfl, rfl⟩
  have hlines := hrelated.run (keeps_later n) cs
  rw [← List.forall₂_eq_eq_eq, List.forall₂_map_right_iff]
  exact hlines.flip

/-! ## The number of the line -/

/-- What is pending has no line feed in it. -/
theorem current_settled (s : Cursor) : s.settled.current = s.draft.current := by
  obtain ⟨mode, pending, d⟩ := s
  cases mode <;> cases pending <;> rfl

/-- A character that completes what is pending is on the next line if it is a line feed. -/
theorem current_completed? {s s' : Cursor} {c : Char} (h : s.completed? c = some s') :
    s'.draft.current = s.draft.current + [c].count '\n' := by
  obtain ⟨mode, pending, d⟩ := s
  unfold completed? at h
  cases mode <;> cases pending <;> dsimp only at h
  all_goals first | cases h | split_ifs at h
  all_goals cases h; simp_all [Draft.goOn, Draft.push]

/-- A character that ends no line leaves the line number. -/
theorem current_plain (mode : Mode) (d : Draft) (c : Char) :
    (plain mode d c).draft.current = d.current := by
  cases mode with
  | code =>
    simp only [plain]
    split_ifs <;> rfl
  | literal | blockComment | lineComment => rfl

/-- Reading a line feed goes to the next line, and nothing else does. -/
theorem current_read (mode : Mode) (d : Draft) (c : Char) :
    (read mode d c).2.draft.current = d.current + [c].count '\n' := by
  unfold read
  split_ifs with hbackslash hbreak
  · simp [hbackslash]
  · simp [hbreak, Draft.goOn]
  · simp [hbreak, Draft.fresh]
  · simp [current_plain, hbreak]

/-- Taking a line feed goes to the next line, and nothing else does. -/
theorem current_step (s : Cursor) (c : Char) :
    (s.step c).2.draft.current = s.draft.current + [c].count '\n' := by
  unfold step
  cases hcompleted : s.completed? c with
  | some s' => exact current_completed? hcompleted
  | none => rw [← s.current_settled]; exact current_read s.mode s.settled c

/-- Each line feed leads to the next line, whatever it means. -/
theorem current_after (s : Cursor) (cs : List Char) :
    (s.after cs).draft.current = s.draft.current + cs.count '\n' := by
  induction cs generalizing s with
  | nil => rfl
  | cons c cs ih =>
    have hcons : (c :: cs).count '\n' = [c].count '\n' + cs.count '\n' := by
      rw [← List.count_append, List.singleton_append]
    show ((s.step c).2.after cs).draft.current = _
    rw [ih, current_step, hcons, Nat.add_assoc]

/-! ## Where logical lines end -/

/-- A line feed that continues no line and stands in no block comment completes a line. -/
theorem step_feed {s : Cursor} (hpending : s.pending.continuesLine = false)
    (hmode : s.mode ≠ .blockComment) :
    s.step '\n' = ([s.settled.line], ⟨.code, .nothing, .fresh (s.draft.current + 1)⟩) := by
  have hcompleted : s.completed? '\n' = none := by
    obtain ⟨mode, pending, d⟩ := s
    cases mode <;> cases pending <;> simp_all [completed?, Pending.continuesLine]
  rw [step_of_completed?_eq_none hcompleted, read, if_neg (by decide), if_pos rfl, if_neg hmode,
    current_settled]

/-- In a block comment a line feed ends nothing. -/
theorem mode_step_feed {s : Cursor} (hmode : s.mode = .blockComment) :
    (s.step '\n').2.mode = .blockComment := by
  obtain ⟨mode, pending, d⟩ := s
  obtain rfl : mode = .blockComment := hmode
  cases pending <;> rfl

end Cursor

/-- A text is empty, or it ends with a line feed that continues no line, and it ends
outside block comments. -/
structure EndsLine (text : List Char) : Prop where
  feed : text = [] ∨ ∃ before, text = before ++ ['\n'] ∧
    (Cursor.start.after before).pending.continuesLine = false
  outside : (Cursor.start.after text).mode ≠ .blockComment

namespace EndsLine

variable {text : List Char}

/-- After a text that ends a line the scan starts again, on a line of a higher number. -/
theorem after_start (h : EndsLine text) :
    Cursor.start.after text = Cursor.start.later (text.count '\n') := by
  obtain rfl | ⟨before, rfl, hpending⟩ := h.feed
  · rfl
  have houtside := h.outside
  rw [Cursor.after_append] at houtside ⊢
  have hmode : (Cursor.start.after before).mode ≠ .blockComment :=
    fun hmode => houtside (Cursor.mode_step_feed hmode)
  show ((Cursor.start.after before).step '\n').2 = _
  rw [Cursor.step_feed hpending hmode, Cursor.current_after]
  simp [Cursor.start, Cursor.later, Draft.fresh, Draft.later, Nat.add_assoc]

/-- All lines of a text that ends a line are complete at its end. -/
theorem ofText_eq_emitted (h : EndsLine text) : ofText text = Cursor.start.emitted text := by
  rw [ofText_eq_run, Cursor.run_eq_emitted, h.after_start]
  exact List.append_nil _

end EndsLine

/-- The lines after the end of a line are those of a text of its own, further down. -/
theorem ofText_append {a : List Char} (h : EndsLine a) (b : List Char) :
    ofText (a ++ b) = ofText a ++ (ofText b).map (later (a.count '\n')) := by
  rw [h.ofText_eq_emitted, ofText_eq_run, ofText_eq_run, Cursor.run_append, h.after_start,
    Cursor.run_later]

/-! ## What the lines of two parts mean -/

/-- Lines further down open and close the same conditionals. -/
theorem depthAfter_later (depth : Nat) (l : LogicalLine) :
    (l.later n).depthAfter depth = l.depthAfter depth :=
  rfl

/-- Lines further down have the same event, with a later line number. -/
theorem event?_later (depth : Nat) (l : LogicalLine) :
    (l.later n).event? depth = (l.event? depth).map (MacroEvent.later n) := by
  unfold event?
  rw [kind_later]
  cases l.kind <;> rfl

/-- Lines further down have the same directive, with a later line number. -/
theorem directive?_later (imports : Bool) (l : LogicalLine) :
    (l.later n).directive? imports = (l.directive? imports).map (Include.later n) := by
  unfold directive?
  rw [kind_later]
  cases l.kind with
  | includes isImport rest =>
    dsimp only
    split_ifs
    · rfl
    · rw [Option.map_map]
      rfl
  | opens | closes | defines | definesFunction | undefines | other => rfl

/-- Lines further down have the same events, with later line numbers. -/
theorem events_later (depth : Nat) (ls : List LogicalLine) :
    events depth (ls.map (later n)) = (events depth ls).map (MacroEvent.later n) := by
  induction ls generalizing depth with
  | nil => rfl
  | cons l ls ih =>
    rw [List.map_cons, events, events, event?_later, depthAfter_later, ih, List.map_append]
    cases l.event? depth <;> rfl

/-- How many conditional blocks are open decides nothing but which `#undef` lines are
conditional. -/
theorem unconditional_events (depth depth' : Nat) (ls : List LogicalLine) :
    (events depth ls).map MacroEvent.unconditional =
      (events depth' ls).map MacroEvent.unconditional := by
  induction ls generalizing depth depth' with
  | nil => rfl
  | cons l ls ih =>
    have hevent : (l.event? depth).toList.map MacroEvent.unconditional =
        (l.event? depth').toList.map MacroEvent.unconditional := by
      unfold event?
      cases l.kind <;> rfl
    rw [events, events, List.map_append, List.map_append, hevent,
      ih (l.depthAfter depth) (l.depthAfter depth')]

/-- The number of conditional blocks that a text leaves open. -/
def openBlocks (text : List Char) : Nat :=
  (ofText text).foldl depthAfter 0

end LogicalLine

namespace Directives

open LogicalLine

variable {a : List Char}

/-- Behind a text that ends its last line, the includes of another are added with later line
numbers. -/
theorem includes_ofText_append (imports : Bool) (h : EndsLine a) (b : List Char) :
    (ofText imports (a ++ b)).includes = (ofText imports a).includes ++
      (ofText imports b).includes.map (Include.later (a.count '\n')) := by
  simp only [includes_ofText, LogicalLine.ofText_append h, List.filterMap_append,
    List.filterMap_map, List.map_filterMap]
  congr 2
  funext l
  exact directive?_later imports l

/-- The events of the second part are told with the blocks that the first one leaves open. -/
theorem macros_ofText_append (imports : Bool) (h : EndsLine a) (b : List Char) :
    (ofText imports (a ++ b)).macros = (ofText imports a).macros ++
      (events (openBlocks a) (LogicalLine.ofText b)).map (MacroEvent.later (a.count '\n')) := by
  rw [macros_ofText, macros_ofText, LogicalLine.ofText_append h, events_append, events_later]
  rfl

/-- The directives of a text that is parted at the end of a line are those of the first part
and those of the second, further down. The events are composed in the same way if the
first part leaves no conditional block open; otherwise they are so up to the conditions of
the `#undef` lines of the second part. -/
theorem ofText_append_of_endsLine (imports : Bool) (a b : List Char) (h : EndsLine a) :
    (ofText imports (a ++ b)).includes = (ofText imports a).includes ++
        (ofText imports b).includes.map (Include.later (a.count '\n')) ∧
      (openBlocks a = 0 → (ofText imports (a ++ b)).macros = (ofText imports a).macros ++
        (ofText imports b).macros.map (MacroEvent.later (a.count '\n'))) ∧
      ∃ events, (ofText imports (a ++ b)).macros = (ofText imports a).macros ++ events ∧
        events.map MacroEvent.unconditional =
          ((ofText imports b).macros.map (MacroEvent.later (a.count '\n'))).map
            MacroEvent.unconditional := by
  refine ⟨includes_ofText_append imports h b, ?_, _, macros_ofText_append imports h b, ?_⟩
  · intro hopen
    rw [macros_ofText_append imports h, hopen, macros_ofText imports b]
  · rw [macros_ofText imports b, ← events_later, ← events_later]
    exact unconditional_events _ _ _

/-- The first part has an end without a block, and an apostrophe opens quotes in its last
line, at the end of which one backslash escapes the other. -/
theorem ofText_append_of_endsLine_quotes :
    let a := "#endif\n#if A\n#endif\nit's \\\\\n".toList
    let b := "#undef B\n#include \"x\"".toList
    EndsLine a ∧ openBlocks a = 0 ∧
      (ofText false (a ++ b)).includes = (ofText false a).includes ++
        (ofText false b).includes.map (Include.later (a.count '\n')) ∧
      (ofText false (a ++ b)).macros = (ofText false a).macros ++
        (ofText false b).macros.map (MacroEvent.later (a.count '\n')) := by
  intro a b
  have hends : EndsLine a :=
    ⟨.inr ⟨"#endif\n#if A\n#endif\nit's \\\\".toList, by decide, by decide⟩, by decide⟩
  have hopen : openBlocks a = 0 := by decide
  obtain ⟨hincludes, hmacros, -⟩ := ofText_append_of_endsLine false a b hends
  exact ⟨hends, hopen, hincludes, hmacros hopen⟩

end Directives

end Recompile
