import Mathlib.Data.List.Forall2
import Recompile.Proofs.Directive.Cursor

/-!
# Two scans of the same characters

What a scan does next depends on the mode of a place and on what is pending there, but not on
the draft: characters are put into it, it goes on with the next line, or a new one is started.
So a relation of drafts that these operations keep (`Keeps`) is kept by two scans of the same
characters, and the lines that they complete are related one by one
(`Cursor.Related.run`).
-/

set_option autoImplicit false

namespace Recompile

namespace LogicalLine

/-- A relation of drafts that is kept by all that reading a character can do to them, and the
relation of the lines that come of them. -/
structure Keeps (R : Draft → Draft → Prop) (Q : LogicalLine → LogicalLine → Prop) : Prop where
  push : ∀ {d d' : Draft} (c : Char), R d d' → R (d.push c) (d'.push c)
  goOn : ∀ {d d' : Draft}, R d d' → R d.goOn d'.goOn
  next : ∀ {d d' : Draft}, R d d' → R (.fresh (d.current + 1)) (.fresh (d'.current + 1))
  line : ∀ {d d' : Draft}, R d d' → Q d.line d'.line
  isEmpty : ∀ {d d' : Draft}, R d d' → (d.reversed = [] ↔ d'.reversed = [])

namespace Cursor

variable {R : Draft → Draft → Prop} {Q : LogicalLine → LogicalLine → Prop}
  {s s' : Cursor} {d d' : Draft}

/-- Two places that differ in their drafts only, and these are related. -/
structure Related (R : Draft → Draft → Prop) (s s' : Cursor) : Prop where
  mode : s.mode = s'.mode
  pending : s.pending = s'.pending
  draft : R s.draft s'.draft

/-- Related drafts stay related by a character that ends no line. -/
theorem related_plain (keeps : Keeps R Q) (h : R d d') (mode : Mode) (c : Char) :
    Related R (plain mode d c) (plain mode d' c) := by
  cases mode with
  | code =>
    simp only [plain]
    split_ifs
    · exact ⟨rfl, rfl, h⟩
    · exact ⟨rfl, rfl, h⟩
    · exact ⟨rfl, rfl, keeps.push c h⟩
    · exact ⟨rfl, rfl, keeps.push c h⟩
  | literal => exact ⟨rfl, rfl, keeps.push c h⟩
  | blockComment | lineComment => exact ⟨rfl, rfl, h⟩

/-- Related drafts complete related lines by a character, and stay related. -/
theorem related_read (keeps : Keeps R Q) (h : R d d') (mode : Mode) (c : Char) :
    List.Forall₂ Q (read mode d c).1 (read mode d' c).1 ∧
      Related R (read mode d c).2 (read mode d' c).2 := by
  unfold read
  split_ifs
  · exact ⟨.nil, rfl, rfl, h⟩
  · exact ⟨.nil, rfl, rfl, keeps.goOn h⟩
  · exact ⟨.cons (keeps.line h) .nil, rfl, rfl, keeps.next h⟩
  · exact ⟨.nil, related_plain keeps h mode c⟩

namespace Related

/-- Related cursors are settled to related drafts. -/
theorem settled (keeps : Keeps R Q) (h : Related R s s') : R s.settled s'.settled := by
  obtain ⟨mode, pending, d⟩ := s
  obtain ⟨mode', pending', d'⟩ := s'
  obtain ⟨rfl, rfl, hd⟩ := h
  have hslash := keeps.push '/' hd
  have hbackslash := keeps.push '\\' hd
  have hreturn := keeps.push '\r' hbackslash
  cases mode <;> cases pending <;> assumption

/-- What completes what is pending at one of two places does so at the other. -/
theorem completed? (keeps : Keeps R Q) (h : Related R s s') (c : Char) :
    Option.Rel (Related R) (s.completed? c) (s'.completed? c) := by
  obtain ⟨mode, pending, d⟩ := s
  obtain ⟨mode', pending', d'⟩ := s'
  obtain ⟨rfl, rfl, hd⟩ := h
  have hblank := keeps.push ' ' hd
  have hescaped := keeps.push c (keeps.push '\\' hd)
  have hgoOn := keeps.goOn hd
  unfold Cursor.completed?
  cases mode <;> cases pending <;> dsimp only
  all_goals first | exact .none | split_ifs
  all_goals first | exact .none | exact .some ⟨rfl, rfl, by assumption⟩

/-- Equal characters complete related lines at two places, and lead to related places. -/
theorem step (keeps : Keeps R Q) (h : Related R s s') (c : Char) :
    List.Forall₂ Q (s.step c).1 (s'.step c).1 ∧ Related R (s.step c).2 (s'.step c).2 := by
  have hcompleted := h.completed? keeps c
  unfold Cursor.step
  cases hs : s.completed? c <;> cases hs' : s'.completed? c <;> rw [hs, hs'] at hcompleted
  · rw [h.mode]
    exact related_read keeps (h.settled keeps) s'.mode c
  · cases hcompleted
  · cases hcompleted
  · cases hcompleted with
    | some hnext => exact ⟨.nil, hnext⟩

/-- Related cursors complete related lines at the end. -/
theorem finish (keeps : Keeps R Q) (h : Related R s s') :
    List.Forall₂ Q s.finish s'.finish := by
  have hsettled := h.settled keeps
  have hempty := keeps.isEmpty hsettled
  unfold Cursor.finish
  by_cases hs : s.settled.reversed = []
  · rw [if_pos hs, if_pos (hempty.mp hs)]
    exact .nil
  · rw [if_neg hs, if_neg (fun hs' => hs (hempty.mpr hs'))]
    exact .cons (keeps.line hsettled) .nil

/-- A text has related lines from related places on. -/
theorem run (keeps : Keeps R Q) (h : Related R s s') (cs : List Char) :
    List.Forall₂ Q (s.run cs) (s'.run cs) := by
  induction cs generalizing s s' with
  | nil => exact h.finish keeps
  | cons c cs ih =>
    obtain ⟨hlines, hnext⟩ := h.step keeps c
    exact List.rel_append hlines (ih hnext)

end Related

end Cursor

end LogicalLine

end Recompile
