import Recompile.Proofs.Directive.Composition
import Recompile.Proofs.Directive.Written

/-!
# Written definitions

An include directive that names its target can be written as two lines: one that defines a
macro as what stands in the directive (`Include.definition`), and a directive that names the
macro (`Include.through`). Each is a logical line of its own
(`LogicalLine.ofText_line_append`), and the first defines the macro as the target with its
delimiters, neither more nor less (`Include.Legible.kind_definition`).
-/

set_option autoImplicit false

namespace Recompile

open Text

/-- An identifier is read up to a character that cannot belong to it. -/
theorem identifier?_append {name rest : List Char} (h : MacroScope.isIdentifier name = true)
    (hrest : ∀ c ∈ rest.head?, isIdentChar c = false) :
    identifier? (name ++ rest) = some (name, rest) := by
  cases name with
  | nil => cases h
  | cons c name =>
    obtain ⟨hstart, hname⟩ := MacroScope.isIdentifier_cons.mp h
    have hstop : rest.takeWhile isIdentChar = [] ∧ rest.dropWhile isIdentChar = rest := by
      cases rest with
      | nil => exact ⟨rfl, rfl⟩
      | cons x rest => simp [hrest x rfl]
    rw [List.cons_append, identifier?, if_pos hstart, List.takeWhile_append_of_pos hname,
      List.dropWhile_append_of_pos hname, hstop.1, hstop.2, List.append_nil]

/-- A definition of a macro without parameters. -/
theorem LogicalLine.kind_define {name cs : List Char}
    (hname : MacroScope.isIdentifier name = true) (n : Nat) :
    kind ⟨n, "#define ".toList ++ (name ++ ' ' :: cs)⟩ = .defines name (trim (' ' :: cs)) := by
  have hstart : trimStart (name ++ ' ' :: cs) = name ++ ' ' :: cs := by
    cases name with
    | nil => cases hname
    | cons c name =>
      have hc := isBlank_of_isIdentChar (MacroScope.isIdentChar_of_mem hname List.mem_cons_self)
      rw [List.cons_append, trimStart, List.dropWhile_cons_of_neg (by simp [hc])]
  have hidentifier : spacedIdentifier? (' ' :: (name ++ ' ' :: cs)) = some (name, ' ' :: cs) := by
    rw [spacedIdentifier?, if_pos (by decide), hstart]
    exact identifier?_append hname (by simp; decide)
  have hkeyword : ['d', 'e', 'f', 'i', 'n', 'e'].isPrefixOf?
      ("define ".toList ++ (name ++ ' ' :: cs)) = some (' ' :: (name ++ ' ' :: cs)) := rfl
  have hdefine : define? ("define ".toList ++ (name ++ ' ' :: cs)) =
      some (.defines name (trim (' ' :: cs))) := by
    rw [define?, hkeyword]
    simp only [hidentifier]
    rfl
  show (none <|> none <|> define? ("define ".toList ++ (name ++ ' ' :: cs)) <|> none).getD
    .other = _
  rw [hdefine]
  rfl

namespace Include

variable {i : Include} {name : String}

/-- The line that makes a macro stand for what a directive names. -/
def definition (i : Include) (name : String) : List Char :=
  "#define ".toList ++ (name.toList ++ ' ' :: i.spelled)

/-- The directive that names a macro instead. -/
def through (i : Include) (name : String) : Include :=
  { i with form := .macroName, target := name }

/-- The spelling of a legible target has no blanks at its ends. -/
theorem Legible.trim_spelled (h : i.Legible) : trim (' ' :: i.spelled) = i.spelled := by
  have hdelimited := h.delimited
  cases hform : i.form with
  | quoted =>
    rw [spelled_quoted hform]
    exact trim_delimited _ (by decide) (by decide)
  | system =>
    rw [spelled_system hform]
    exact trim_delimited _ (by decide) (by decide)
  | macroName =>
    rw [hform] at hdelimited
    rw [spelled_macroName hform]
    exact trim_identifier hdelimited

/-- The definition of a name as a legible target is read as one. -/
theorem Legible.kind_definition (h : i.Legible)
    (hname : MacroScope.isIdentifier name.toList = true) (n : Nat) :
    LogicalLine.kind ⟨n, i.definition name⟩ = .defines name.toList i.spelled := by
  refine (LogicalLine.kind_define hname n).trans ?_
  rw [h.trim_spelled]

/-- A written directive is not empty. -/
theorem written_ne_nil (i : Include) : i.written.toList ≠ [] := by
  rw [i.toList_written]
  cases i.isImport <;> exact List.cons_ne_nil _ _

/-- A written definition is not empty. -/
theorem definition_ne_nil (i : Include) (name : String) : i.definition name ≠ [] :=
  List.cons_ne_nil _ _

/-- The directive that names a macro is legible if the name is an identifier. -/
theorem legible_through (hname : MacroScope.isIdentifier name.toList = true) :
    (i.through name).Legible where
  nonempty := by
    rintro rfl
    cases hname
  feed hmem := absurd (MacroScope.isIdentChar_of_mem hname hmem) (by decide)
  carriageReturn hmem := absurd (MacroScope.isIdentChar_of_mem hname hmem) (by decide)
  delimited := hname

/-- A definition is the keyword, the name and the spelling of the target. -/
theorem definition_eq (i : Include) (name : String) :
    i.definition name = ("#define ".toList ++ name.toList ++ [' ']) ++ i.spelled := by
  rw [List.append_assoc, List.append_assoc]
  rfl

/-- Nothing before the value of the macro continues the line or opens a comment. -/
theorem not_mem_definition (hname : MacroScope.isIdentifier name.toList = true) {c : Char}
    (hc : isIdentChar c = false) (hkeyword : c ∉ "#define ".toList) (hblank : c ≠ ' ') :
    c ∉ "#define ".toList ++ name.toList ++ [' '] := by
  intro hmem
  simp only [List.mem_append, List.mem_singleton] at hmem
  obtain (hmem | hmem) | hmem := hmem
  · exact hkeyword hmem
  · rw [MacroScope.isIdentChar_of_mem hname hmem] at hc
    cases hc
  · exact hblank hmem

/-- The definition of a name as a legible target stays on one line. -/
theorem Legible.unbroken_definition (h : i.Legible)
    (hname : MacroScope.isIdentifier name.toList = true) :
    LogicalLine.Unbroken (i.definition name) := by
  rw [definition_eq]
  exact .append (not_mem_definition hname (by decide) (by decide) (by decide))
    (not_mem_definition hname (by decide) (by decide) (by decide)) h.unbroken_spelled
    h.spelled_ne_nil

/-- The definition of a name as a legible target opens no comment, if the target does not. -/
theorem Legible.opensComment_definition (h : i.Legible)
    (hname : MacroScope.isIdentifier name.toList = true)
    (hcomment : i.form = .system → LogicalLine.opensComment .none i.target.toList = false) :
    LogicalLine.opensComment .none (i.definition name) = false := by
  rw [definition_eq, LogicalLine.opensComment_append]
  · exact h.opensComment_spelled hcomment
  · refine fun c hc => ⟨?_, ?_, ?_⟩ <;> rintro rfl
    all_goals exact not_mem_definition hname (by decide) (by decide) (by decide) hc

end Include

/-- A written line at the beginning of a text is its first logical line. -/
theorem LogicalLine.ofText_line_append {cs : List Char} (h : Unbroken cs) (hne : cs ≠ [])
    (hcomment : opensComment none cs = false) (b : List Char) :
    ofText (cs ++ '\n' :: b) = ⟨1, cs⟩ :: (ofText b).map (later 1) := by
  have hrest : scan .code (.fresh 2) b = (ofText b).map (later 1) := by
    rw [ofText_eq_run, ← Cursor.run_later, scan_eq_run]
    rfl
  rw [ofText, scan_line h hne hcomment (by simp), ← hrest]
  rfl

end Recompile
