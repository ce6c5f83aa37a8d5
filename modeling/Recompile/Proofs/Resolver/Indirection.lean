import Recompile.Proofs.Directive.Definition
import Recompile.Proofs.Macro.Agreement

/-!
# Directives through a macro

An include directive may name its target itself, or a macro that stands for it. The target is
read in two ways then, as part of the directive or as the value of the macro, but what comes
of it is the same, for this directive and for all others of the text
(`Resolver.resolveAll_through`).

The targets of a text are told line by line for this, in a scope that goes along
(`Resolver.targetsAlong`). Above the directive nothing is known about the macro, since its name
is new to the text; so after its definition it stands for the target
(`Resolver.target?_through`). Below, the scopes agree but for the name
(`MacroScope.AgreeOff`), and lines without the name cannot tell them apart. It is the logical
lines that must not have the name: a line continuation may put it together in one of them,
though it occurs nowhere in the text (`Resolver.not_forall_resolveAll_through`).
-/

set_option autoImplicit false

namespace Recompile

/-! ## Targets line by line -/

/-- Applying two lists of events in a row is applying the one and then the other. -/
theorem MacroScope.applyAll_append (s : MacroScope) (before after : List MacroEvent) :
    s.applyAll (before ++ after) = (s.applyAll before).applyAll after :=
  List.foldl_append

/-- On which line an event stands makes no difference to what it does. -/
theorem MacroScope.apply_later (s : MacroScope) (n : Nat) (e : MacroEvent) :
    s.apply (e.later n) = s.apply e := by
  cases e with
  | define | defineFunction => rfl
  | undefine m conditional => cases conditional <;> rfl

namespace Resolver

open LogicalLine

/-- The targets of the directives on lines before which some conditional blocks are open, in a
scope that changes with each line. -/
def targetsAlong (imports : Bool) : Nat → MacroScope → List LogicalLine →
    List (Option (IncludeForm × String))
  | _, _, [] => []
  | depth, s, l :: ls =>
    ((l.directive? imports).map (target? s)).toList ++
      targetsAlong imports (l.depthAfter depth) (s.applyAll (l.event? depth).toList) ls

variable {imports : Bool} {depth : Nat} {s s' : MacroScope} {i : Include} {name : String}

/-- The targets along two texts in a row, the second in the scope and at the depth in which the
first ends. -/
theorem targetsAlong_append (before after : List LogicalLine) :
    targetsAlong imports depth s (before ++ after) = targetsAlong imports depth s before ++
      targetsAlong imports (before.foldl depthAfter depth) (s.applyAll (events depth before))
        after := by
  induction before generalizing depth s with
  | nil => rfl
  | cons l before ih =>
    rw [List.cons_append, targetsAlong, ih, targetsAlong, List.append_assoc, events,
      MacroScope.applyAll_append]
    rfl

/-- The targets do not depend on the numbers of the lines. -/
theorem targetsAlong_later (n : Nat) (ls : List LogicalLine) :
    targetsAlong imports depth s (ls.map (later n)) = targetsAlong imports depth s ls := by
  induction ls generalizing depth s with
  | nil => rfl
  | cons l ls ih =>
    have hscope : s.applyAll ((l.later n).event? depth).toList =
        s.applyAll (l.event? depth).toList := by
      rw [event?_later]
      cases l.event? depth with
      | none => rfl
      | some e => exact s.apply_later n e
    rw [List.map_cons, targetsAlong, ih, targetsAlong, depthAfter_later, hscope,
      directive?_later, Option.map_map]
    rfl

/-- Scopes that agree off a name give a directive the same target, unless it names that one. -/
theorem target?_of_agreeOff (h : s.AgreeOff name s') (hi : i.target ≠ name) :
    target? s' i = target? s i := by
  unfold target?
  cases i.form with
  | macroName => exact h.expandWithin_eq hi _
  | quoted | system => rfl

/-- Scopes that agree but for a name give the same targets on lines without it. -/
theorem targetsAlong_of_agreeOff {ls : List LogicalLine} (h : s.AgreeOff name s')
    (hname : ∀ l ∈ ls, ¬ name.toList <:+: l.chars) :
    targetsAlong imports depth s' ls = targetsAlong imports depth s ls := by
  induction ls generalizing depth s s' with
  | nil => rfl
  | cons l ls ih =>
    have hl : ¬ name.toList <:+: l.chars := hname l List.mem_cons_self
    have hevent : ∀ e ∈ (l.event? depth).toList, ¬ e.Mentions name := fun e he =>
      not_mentions_of_event? hl (Option.mem_toList.mp he)
    have htarget : (l.directive? imports).map (target? s') =
        (l.directive? imports).map (target? s) := by
      refine Option.map_congr fun i hi => target?_of_agreeOff h ?_
      exact target_ne_of_directive? hl hi
    rw [targetsAlong, targetsAlong, htarget,
      ih (h.applyAll hevent) fun l' hl' => hname l' (List.mem_cons_of_mem l hl')]

/-- The targets of a file are those of its logical lines, one after the other. -/
theorem map_snd_targets (r : Resolver) (imports : Bool) (text : List Char) :
    (r.targets (.ofText imports text)).map Prod.snd =
      targetsAlong imports 0 (.ofExternal r.macros) (LogicalLine.ofText text) := by
  have hsplit : ∀ before after, LogicalLine.ofText text = before ++ after →
      (after.filterMap (directive? imports)).map (fun i =>
        target? ((MacroScope.ofExternal r.macros).applyAll
          ((events 0 (LogicalLine.ofText text)).takeWhile fun e => e.line < i.line)) i) =
        targetsAlong imports (before.foldl depthAfter 0)
          ((MacroScope.ofExternal r.macros).applyAll (events 0 before)) after := by
    intro before after h
    induction after generalizing before with
    | nil => rfl
    | cons l after ih =>
      have hrest := ih (before ++ [l]) (by rw [h, List.append_assoc]; rfl)
      rw [events_append, List.foldl_append, MacroScope.applyAll_append, events, events,
        List.append_nil] at hrest
      rw [targetsAlong, List.filterMap_cons]
      cases hdirective : l.directive? imports with
      | none => exact hrest
      | some i =>
        have hordered := LogicalLine.pairwise_ofText text
        rw [h] at hordered
        rw [List.map_cons, hrest, h, line_of_directive? hdirective, takeWhile_events hordered]
        rfl
  rw [targets, targetsFrom_eq_map _ _ _ (Directives.pairwise_includes imports text),
    List.map_map, Directives.includes_ofText, Directives.macros_ofText]
  exact hsplit [] _ rfl

/-! ## The same target over a macro -/

/-- A written directive names its target. -/
theorem targetsAlong_written (h : i.Legible) (n : Nat) (ls : List LogicalLine) :
    targetsAlong imports depth s (⟨n, i.written.toList⟩ :: ls) =
      (if i.isImport && !imports then [] else [target? s i]) ++
        targetsAlong imports depth s ls := by
  have hkind : kind ⟨n, i.written.toList⟩ = .includes i.isImport (' ' :: i.spelled) := by
    rw [i.toList_written]
    exact kind_keyword n i.isImport i.spelled
  rw [targetsAlong, directive?, event?, depthAfter, hkind]
  simp only [h.includeTarget?_spelled, Option.map_some, String.ofList_toList]
  split_ifs <;> rfl

/-- A written definition names no target and changes its macro. -/
theorem targetsAlong_definition (h : i.Legible)
    (hname : MacroScope.isIdentifier name.toList = true) (n : Nat) (ls : List LogicalLine) :
    targetsAlong imports depth s (⟨n, i.definition name⟩ :: ls) =
      targetsAlong imports depth (s.apply (.define name (String.ofList i.spelled) n)) ls := by
  rw [targetsAlong, directive?, event?, depthAfter, h.kind_definition hname]
  simp only [String.ofList_toList]
  rfl

/-- A macro without any other definition stands for the target that its value spells. -/
theorem target?_through (h : i.Legible) (literal : i.form ≠ .macroName)
    (hname : MacroScope.isIdentifier name.toList = true) (undefined : s.binding name = .undefined)
    (n : Nat) : target? (s.apply (.define name (String.ofList i.spelled) n)) (i.through name) =
      target? s i := by
  have hspells : MacroScope.target? (String.ofList i.spelled) = some (i.form, i.target) := by
    refine MacroScope.target?_eq_some_iff.mpr ⟨h.nonempty, ?_⟩
    have hdelimited := h.delimited
    rw [String.toList_ofList]
    cases hform : i.form with
    | quoted =>
      rw [hform] at hdelimited
      exact .inl ⟨rfl, Include.spelled_quoted hform, hdelimited⟩
    | system =>
      rw [hform] at hdelimited
      exact .inr ⟨rfl, Include.spelled_system hform, hdelimited⟩
    | macroName => exact absurd hform literal
  have hvalue : ((s.apply (.define name (String.ofList i.spelled) n)).binding name).value? =
      some (String.ofList i.spelled) := by
    simp [MacroScope.apply, MacroScope.set, undefined, MacroBinding.undefined,
      MacroBinding.addValue, MacroBinding.value?]
  have hexpand : (s.apply (.define name (String.ofList i.spelled) n)).expand name =
      some (i.form, i.target) := by
    rw [MacroScope.expand, MacroScope.hopLimit, MacroScope.expandWithin, if_pos hname, hvalue]
    simp only [hspells]
  have hliteral : target? s i = some (i.form, i.target) := by
    unfold target?
    split
    · rename_i hform
      exact absurd hform literal
    · rfl
  rw [hliteral]
  exact hexpand

/-- The resolutions of a text are its targets, each located from the directory of the file. -/
theorem map_snd_resolveAll (r : Resolver) (t : FileTree) (imports : Bool) (text : List Char)
    (file : Path) : (r.resolveAll t (.ofText imports text) file).map Prod.snd =
      (targetsAlong imports 0 (.ofExternal r.macros) (LogicalLine.ofText text)).map
        (r.locate t (directoryOf file)) := by
  rw [← map_snd_targets, resolveAll, List.map_map, List.map_map]
  rfl

/-- A directive leads to the same file if a macro is put in between, and so does every other
directive of the text. The line of the directive is written after a text that ends a line, and
in its place stand the definition of a macro and a directive that names it. The macro has a
name that occurs in no logical line of the text and in no macro given from outside. -/
theorem resolveAll_through (r : Resolver) (t : FileTree) (imports : Bool) (file : Path)
    (a b : List Char) (i : Include) (name : String) (ends : EndsLine a) (legible : i.Legible)
    (literal : i.form ≠ .macroName)
    (uncommented : ¬ ['/', '/'] <:+: i.target.toList ∧ ¬ ['/', '*'] <:+: i.target.toList)
    (identifier : MacroScope.isIdentifier name.toList = true)
    (fresh : ∀ l ∈ LogicalLine.ofText (a ++ (i.written.toList ++ '\n' :: b)),
      ¬ name.toList <:+: l.chars)
    (external : ∀ m ∈ r.macros, ¬ name.toList <:+: m.1.toList ∧ ¬ name.toList <:+: m.2.toList) :
    (r.resolveAll t (.ofText imports (a ++ (i.definition name ++ '\n' ::
      ((i.through name).written.toList ++ '\n' :: b)))) file).map Prod.snd =
    (r.resolveAll t (.ofText imports (a ++ (i.written.toList ++ '\n' :: b))) file).map
      Prod.snd := by
  have hcomment : i.form = .system → opensComment none i.target.toList = false := fun _ =>
    opensComment_of_not_infix uncommented.1 uncommented.2
  have hthrough : (i.through name).Legible := Include.legible_through identifier
  have hwritten := LogicalLine.ofText_line_append legible.unbroken_written i.written_ne_nil
    (legible.opensComment_written hcomment) b
  have hthroughWritten := LogicalLine.ofText_line_append hthrough.unbroken_written
    (i.through name).written_ne_nil (hthrough.opensComment_written nofun) b
  have hdefinition := LogicalLine.ofText_line_append (legible.unbroken_definition identifier)
    (i.definition_ne_nil name) (legible.opensComment_definition identifier hcomment)
    ((i.through name).written.toList ++ '\n' :: b)
  rw [LogicalLine.ofText_append ends, hwritten] at fresh
  have hfreshAbove : ∀ l ∈ LogicalLine.ofText a, ¬ name.toList <:+: l.chars := fun l hl =>
    fresh l (List.mem_append_left _ hl)
  have hfreshBelow : ∀ l ∈ LogicalLine.ofText b, ¬ name.toList <:+: l.chars := by
    intro l hl
    refine fresh ((l.later 1).later (a.count '\n')) (List.mem_append_right _ ?_)
    exact List.mem_map_of_mem (List.mem_cons_of_mem _ (List.mem_map_of_mem hl))
  -- Above the directive nothing is known about the macro, and nothing leads to it.
  have hevents : ∀ e ∈ events 0 (LogicalLine.ofText a), ¬ e.Mentions name := fun e he =>
    not_mentions_of_mem_events hfreshAbove he
  have hundefined : ((MacroScope.ofExternal r.macros).applyAll
      (events 0 (LogicalLine.ofText a))).binding name = .undefined := by
    rw [MacroScope.binding_applyAll_of_not_mentions hevents]
    refine MacroScope.binding_ofExternal_eq_undefined fun m hm heq => (external m hm).1 ?_
    exact heq ▸ List.infix_rfl
  have hagree := (MacroScope.agreeOff_ofExternal fun m hm => (external m hm).2).applyAll hevents
  rw [map_snd_resolveAll, map_snd_resolveAll, LogicalLine.ofText_append ends,
    LogicalLine.ofText_append ends, targetsAlong_append, targetsAlong_append, hwritten,
    hdefinition, hthroughWritten, targetsAlong_later, targetsAlong_later,
    targetsAlong_definition legible identifier, targetsAlong_later,
    targetsAlong_written hthrough, targetsAlong_written legible,
    target?_through legible literal identifier hundefined, targetsAlong_later, targetsAlong_later,
    targetsAlong_of_agreeOff (hagree.define _ _) hfreshBelow]
  rfl

/-- The name stands in a comment of the text, and a block is open around the directive. -/
theorem resolveAll_through_block :
    let r : Resolver := ⟨[], [("K", "<k>")]⟩
    let a := "#if A // M\n#define N K\n".toList
    let b := "#endif\n#include N".toList
    let i : Include := ⟨.quoted, "it's\\", false, 0⟩
    let direct := a ++ (i.written.toList ++ '\n' :: b)
    let indirect := a ++ (i.definition "M" ++ '\n' ::
      ((i.through "M").written.toList ++ '\n' :: b))
    EndsLine a ∧ i.Legible ∧ i.form ≠ .macroName ∧
      (¬ ['/', '/'] <:+: i.target.toList ∧ ¬ ['/', '*'] <:+: i.target.toList) ∧
      MacroScope.isIdentifier "M".toList = true ∧
      (∀ l ∈ LogicalLine.ofText direct, ¬ "M".toList <:+: l.chars) ∧
      (∀ m ∈ r.macros, ¬ "M".toList <:+: m.1.toList ∧ ¬ "M".toList <:+: m.2.toList) ∧
      (r.resolveAll (.bare []) (.ofText false indirect) .here).map Prod.snd =
        (r.resolveAll (.bare []) (.ofText false direct) .here).map Prod.snd := by
  intro r a b i direct indirect
  have ends : EndsLine a :=
    ⟨.inr ⟨"#if A // M\n#define N K".toList, by decide, by decide⟩, by decide⟩
  have legible : i.Legible := ⟨by decide, by decide, by decide, by decide⟩
  have literal : i.form ≠ .macroName := by decide
  have uncommented : ¬ ['/', '/'] <:+: i.target.toList ∧ ¬ ['/', '*'] <:+: i.target.toList := by
    decide
  have identifier : MacroScope.isIdentifier "M".toList = true := by decide
  have fresh : ∀ l ∈ LogicalLine.ofText direct, ¬ "M".toList <:+: l.chars := by
    decide +kernel
  have external : ∀ m ∈ r.macros,
      ¬ "M".toList <:+: m.1.toList ∧ ¬ "M".toList <:+: m.2.toList := by
    decide
  exact ⟨ends, legible, literal, uncommented, identifier, fresh, external,
    resolveAll_through r (.bare []) false .here a b i "M" ends legible literal uncommented
      identifier fresh external⟩

/-- A name that occurs nowhere in the text may occur in a logical line, where a line
continuation has put it together. -/
theorem not_forall_resolveAll_through :
    ¬ ∀ (r : Resolver) (t : FileTree) (imports : Bool) (file : Path) (a b : List Char)
      (i : Include) (name : String), EndsLine a → i.Legible → i.form ≠ .macroName →
      (¬ ['/', '/'] <:+: i.target.toList ∧ ¬ ['/', '*'] <:+: i.target.toList) →
      MacroScope.isIdentifier name.toList = true →
      ¬ name.toList <:+: a ++ (i.written.toList ++ '\n' :: b) →
      (∀ m ∈ r.macros, ¬ name.toList <:+: m.1.toList ∧ ¬ name.toList <:+: m.2.toList) →
      (r.resolveAll t (.ofText imports (a ++ (i.definition name ++ '\n' ::
        ((i.through name).written.toList ++ '\n' :: b)))) file).map Prod.snd =
      (r.resolveAll t (.ofText imports (a ++ (i.written.toList ++ '\n' :: b))) file).map
        Prod.snd := by
  intro h
  have ends : EndsLine "#define FO\\\nO \"x.h\"\n".toList :=
    ⟨.inr ⟨"#define FO\\\nO \"x.h\"".toList, by decide, by decide⟩, by decide⟩
  have hsame := h ⟨[], []⟩ (.bare []) false .here _ [] ⟨.quoted, "y.h", false, 3⟩ "FOO" ends
    ⟨by decide, by decide, by decide, by decide⟩ (by decide) (by decide) (by decide)
    (by decide +kernel) (by decide)
  revert hsame
  decide +kernel

end Resolver

end Recompile
