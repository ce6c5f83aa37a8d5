import Mathlib.Data.List.Chain
import Mathlib.Data.List.DropRight
import Recompile.Proofs.Macro.Execution

/-!
# What a macro stands for

A scope is made event by event: each event changes what is known about its macro, and an
`#undef` that is not conditional makes all of it forgotten. Here a macro is judged by its
history as a whole: its definition from outside and its events, after the last certain
`#undef` (`MacroScope.historyOf`). The binding of the scope sums up that history
(`MacroScope.sumsUp_applyAll`), so a name stands for an include target if and only if the
histories lead from it to the target over at most sixteen names
(`MacroScope.expand_eq_some_iff`).
-/

set_option autoImplicit false

namespace Recompile

/-- Whether an event removes its macro for certain. -/
def MacroEvent.removes : MacroEvent → Bool
  | .undefine _ conditional _ => !conditional
  | _ => false

namespace MacroScope

/-! ## Histories -/

/-- The value that is given to a macro from outside, the blanks around it removed. Of two
values the later one counts. -/
def externalValue? (macros : List (String × String)) (name : String) : Option String :=
  (macros.reverse.find? fun m => m.1 = name).map fun m => String.ofList (Text.trim m.2.toList)

/-- All that has happened to a macro since it was last removed for certain. What is given from
outside counts as a definition above the first line. -/
def historyOf (macros : List (String × String)) (events : List MacroEvent) (name : String) :
    List MacroEvent :=
  let external := (externalValue? macros name).map fun value => MacroEvent.define name value 0
  (external.toList ++ events.filter fun e => e.name = name).rtakeWhile fun e => !e.removes

/-- A history leaves no doubt about the value of its macro: it has this value and no other
one, no definition with parameters, and no conditional `#undef`. -/
structure Settles (history : List MacroEvent) (name value : String) : Prop where
  defined : ∃ line, MacroEvent.define name value line ∈ history
  only : ∀ other line, MacroEvent.define name other line ∈ history → other = value
  withoutParameters : ∀ line, MacroEvent.defineFunction name line ∉ history
  kept : ∀ line, MacroEvent.undefine name true line ∉ history

/-- A binding sums up the history of its macro. -/
structure SumsUp (b : MacroBinding) (history : List MacroEvent) (name : String) : Prop where
  nodup : b.values.Nodup
  mem_values : ∀ value, value ∈ b.values ↔ ∃ line, MacroEvent.define name value line ∈ history
  functionLike : b.functionLike = true ↔ ∃ line, MacroEvent.defineFunction name line ∈ history
  maybeUndefined : b.maybeUndefined = true ↔
    ∃ line, MacroEvent.undefine name true line ∈ history

variable {b : MacroBinding} {history : List MacroEvent} {name value : String} {e : MacroEvent}
  {macros : List (String × String)} {events : List MacroEvent} {s : MacroScope}

/-- A binding has one value when it is certain, takes no arguments and has no other. -/
theorem value?_eq_some_iff : b.value? = some value ↔
    b.values = [value] ∧ b.functionLike = false ∧ b.maybeUndefined = false := by
  obtain ⟨values, functionLike, maybeUndefined⟩ := b
  unfold MacroBinding.value?
  constructor
  · intro h
    split at h
    · rename_i v hv
      split_ifs at h with hdoubt
      cases h
      simp only [Bool.or_eq_true, not_or, Bool.not_eq_true] at hdoubt
      exact ⟨hv, hdoubt⟩
    · cases h
  · rintro ⟨hvalues, hfunction, hundefined⟩
    dsimp only at hvalues hfunction hundefined
    simp [hvalues, hfunction, hundefined]

/-- The values without repetitions that a history defines are one value if and only if it
defines that one and no other. -/
theorem SumsUp.values_eq_iff (h : SumsUp b history name) : b.values = [value] ↔
    (∃ line, MacroEvent.define name value line ∈ history) ∧
      ∀ other line, MacroEvent.define name other line ∈ history → other = value := by
  constructor
  · intro hvalues
    refine ⟨(h.mem_values value).mp (by simp [hvalues]), fun other line hother => ?_⟩
    have hmem := (h.mem_values other).mpr ⟨line, hother⟩
    simpa [hvalues] using hmem
  · rintro ⟨hdefined, honly⟩
    have hmem := (h.mem_values value).mpr hdefined
    have hsame : ∀ other ∈ b.values, other = value := by
      intro other hother
      obtain ⟨line, hline⟩ := (h.mem_values other).mp hother
      exact honly other line hline
    have hperm : b.values.Perm [value] := by
      refine (List.perm_ext_iff_of_nodup h.nodup (by simp)).mpr fun other => ?_
      rw [List.mem_singleton]
      exact ⟨hsame other, fun heq => heq ▸ hmem⟩
    exact List.perm_singleton.mp hperm

/-- The value of a binding is in no doubt if and only if its history settles it. -/
theorem SumsUp.value?_eq_some_iff (h : SumsUp b history name) :
    b.value? = some value ↔ Settles history name value := by
  rw [MacroScope.value?_eq_some_iff, h.values_eq_iff, ← Bool.not_eq_true, ← Bool.not_eq_true,
    h.functionLike, h.maybeUndefined]
  constructor
  · rintro ⟨⟨hdefined, honly⟩, hfunction, hundefined⟩
    exact ⟨hdefined, honly, not_exists.mp hfunction, not_exists.mp hundefined⟩
  · rintro ⟨hdefined, honly, hfunction, hundefined⟩
    exact ⟨⟨hdefined, honly⟩, not_exists.mpr hfunction, not_exists.mpr hundefined⟩

/-! ## One event more -/

/-- An event of another name is no part of the history of a name. -/
theorem historyOf_concat_of_ne (hne : e.name ≠ name) :
    historyOf macros (events ++ [e]) name = historyOf macros events name := by
  simp [historyOf, List.filter_append, hne]

/-- An event of the name itself ends its history or is added to it. -/
theorem historyOf_concat (heq : e.name = name) : historyOf macros (events ++ [e]) name =
    if e.removes then [] else historyOf macros events name ++ [e] := by
  have hfilter : (events ++ [e]).filter (fun e => e.name = name) =
      (events.filter fun e => e.name = name) ++ [e] := by
    simp [List.filter_append, heq]
  unfold historyOf
  dsimp only
  rw [hfilter, ← List.append_assoc, List.rtakeWhile_concat]
  cases e.removes <;> rfl

/-- An event of another name leaves the binding of a name. -/
theorem binding_apply_of_ne (hne : e.name ≠ name) :
    (s.apply e).binding name = s.binding name := by
  cases e with
  | define n | defineFunction n => exact if_neg fun heq => hne heq.symm
  | undefine n conditional => cases conditional <;> exact if_neg fun heq => hne heq.symm

/-- Adding a value to a binding lists no value twice. -/
theorem nodup_addValue (h : b.values.Nodup) (value : String) : (b.addValue value).values.Nodup := by
  unfold MacroBinding.addValue
  split_ifs with hmem
  · exact h
  · rw [List.nodup_append]
    refine ⟨h, by simp, fun v hv other hother heq => hmem ?_⟩
    rw [← List.mem_singleton.mp hother, ← heq]
    exact hv

/-- A binding and the history of its macro take an event of the macro alike. -/
theorem SumsUp.apply (h : SumsUp (s.binding e.name) history e.name) :
    SumsUp ((s.apply e).binding e.name) (if e.removes then [] else history ++ [e]) e.name := by
  obtain ⟨hnodup, hvalues, hfunction, hundefined⟩ := h
  cases e with
  | define n v line =>
    have hbinding : (s.apply (.define n v line)).binding n = (s.binding n).addValue v := if_pos rfl
    have hflags : ((s.binding n).addValue v).functionLike = (s.binding n).functionLike ∧
        ((s.binding n).addValue v).maybeUndefined = (s.binding n).maybeUndefined := by
      unfold MacroBinding.addValue
      split_ifs <;> exact ⟨rfl, rfl⟩
    dsimp only [MacroEvent.name] at hnodup hvalues hfunction hundefined ⊢
    rw [hbinding]
    refine ⟨nodup_addValue hnodup v, fun value => ?_, ?_, ?_⟩
    · rw [mem_values_addValue, hvalues]
      simp [MacroEvent.removes, exists_or, or_comm]
    · rw [hflags.1, hfunction]
      simp [MacroEvent.removes]
    · rw [hflags.2, hundefined]
      simp [MacroEvent.removes]
  | defineFunction n line =>
    have hbinding : (s.apply (.defineFunction n line)).binding n =
        { s.binding n with functionLike := true } := if_pos rfl
    dsimp only [MacroEvent.name] at hnodup hvalues hfunction hundefined ⊢
    rw [hbinding]
    refine ⟨hnodup, fun value => ?_, ?_, ?_⟩
    · simp [MacroEvent.removes, hvalues]
    · simp [MacroEvent.removes]
    · simp [MacroEvent.removes, hundefined]
  -- An `#undef` outside of all conditionals forgets the macro; inside one it may not take place.
  | undefine n conditional line =>
    dsimp only [MacroEvent.name] at hnodup hvalues hfunction hundefined ⊢
    cases conditional with
    | false =>
      have hbinding : (s.apply (.undefine n false line)).binding n = .undefined := if_pos rfl
      rw [hbinding]
      refine ⟨List.nodup_nil, fun value => ?_, ?_, ?_⟩ <;>
        simp [MacroEvent.removes, MacroBinding.undefined]
    | true =>
      have hbinding : (s.apply (.undefine n true line)).binding n =
          { s.binding n with maybeUndefined := true } := if_pos rfl
      rw [hbinding]
      refine ⟨hnodup, fun value => ?_, ?_, ?_⟩
      · simp [MacroEvent.removes, hvalues]
      · simp [MacroEvent.removes, hfunction]
      · simp [MacroEvent.removes]

/-! ## From the first event to the last -/

/-- An external macro binds its name to its value, and nothing else is bound. -/
theorem binding_ofExternal (macros : List (String × String)) (name : String) :
    (ofExternal macros).binding name = ⟨(externalValue? macros name).toList, false, false⟩ := by
  induction macros using List.reverseRecOn with
  | nil => rfl
  | append_singleton macros m ih =>
    have hscope : ofExternal (macros ++ [m]) =
        (ofExternal macros).set m.1 ⟨[String.ofList (Text.trim m.2.toList)], false, false⟩ :=
      List.foldl_append
    rw [hscope]
    by_cases hname : m.1 = name
    · simp [set, externalValue?, hname]
    · simp [set, externalValue?, hname, Ne.symm hname, ih]

/-- Before the first event a binding has what is given from outside. -/
theorem sumsUp_ofExternal (macros : List (String × String)) (name : String) :
    SumsUp ((ofExternal macros).binding name) (historyOf macros [] name) name := by
  have hhistory : historyOf macros [] name =
      ((externalValue? macros name).map fun value => MacroEvent.define name value 0).toList := by
    rw [historyOf, List.filter_nil, List.append_nil, List.rtakeWhile_eq_self_iff]
    intro e he
    obtain ⟨value, -, rfl⟩ := Option.map_eq_some_iff.mp (Option.mem_toList.mp he)
    rfl
  rw [binding_ofExternal, hhistory]
  cases externalValue? macros name with
  | none => exact ⟨List.nodup_nil, by simp, by simp, by simp⟩
  | some value => exact ⟨by simp, by simp, by simp, by simp⟩

/-- After all events of a text each binding sums up the history of its macro. -/
theorem sumsUp_applyAll (macros : List (String × String)) (events : List MacroEvent)
    (name : String) :
    SumsUp (((ofExternal macros).applyAll events).binding name) (historyOf macros events name)
      name := by
  induction events using List.reverseRecOn with
  | nil => exact sumsUp_ofExternal macros name
  | append_singleton events e ih =>
    have hscope : (ofExternal macros).applyAll (events ++ [e]) =
        ((ofExternal macros).applyAll events).apply e := List.foldl_append
    rw [hscope]
    by_cases hname : e.name = name
    · subst hname
      rw [historyOf_concat rfl]
      exact ih.apply
    · rw [binding_apply_of_ne hname, historyOf_concat_of_ne hname]
      exact ih

/-! ## From name to name -/

/-- A bounded look-up finds a target if and only if values lead to it over that many names at
most. The induction is on the names that may still be looked up. -/
theorem expandWithin_eq_some_iff {form : IncludeForm} {target : String} {hops : Nat} :
    s.expandWithin hops name = some (form, target) ↔ ∃ names value, names.head? = some name ∧
      names.length ≤ hops ∧ (∀ x ∈ names, isIdentifier x.toList = true) ∧
      (names ++ [value]).IsChain (fun x v => (s.binding x).value? = some v) ∧
      Spells value form target := by
  induction hops generalizing name with
  | zero =>
    constructor
    · intro h
      cases h
    · rintro ⟨names, value, hhead, hlength, -⟩
      rw [List.length_eq_zero_iff.mp (Nat.le_zero.mp hlength)] at hhead
      cases hhead
  | succ hops ih =>
    constructor
    · intro h
      have hname := isIdentifier_of_expandWithin h
      rw [expandWithin, if_pos hname] at h
      cases hvalue : (s.binding name).value? with
      | none => simp [hvalue] at h
      | some value =>
        rw [hvalue] at h
        dsimp only at h
        -- The value is a target, and the chain ends here; or it may be a name, and the chain goes
        -- on.
        cases htarget : target? value with
        | some found =>
          rw [htarget] at h
          cases h
          exact ⟨[name], value, rfl, by simp, by simpa using hname, by simpa using hvalue,
            target?_eq_some_iff.mp htarget⟩
        | none =>
          rw [htarget] at h
          obtain ⟨names, last, hhead, hlength, hnames, hchain, hspells⟩ := ih.mp h
          refine ⟨name :: names, last, rfl, by simpa using hlength, by simpa [hname] using hnames,
            ?_, hspells⟩
          rw [List.cons_append, List.isChain_cons, List.head?_append, hhead]
          refine ⟨fun y hy => ?_, hchain⟩
          cases hy
          exact hvalue
    · rintro ⟨names, last, hhead, hlength, hnames, hchain, hspells⟩
      obtain ⟨rest, rfl⟩ := List.head?_eq_some_iff.mp hhead
      have hname : isIdentifier name.toList = true := hnames name List.mem_cons_self
      obtain ⟨hvalue, hrest⟩ := List.isChain_cons.mp hchain
      rw [expandWithin, if_pos hname]
      cases rest with
      | nil =>
        rw [hvalue last rfl]
        dsimp only
        rw [target?_eq_some_iff.mpr hspells]
      | cons next rest =>
        have hnext : isIdentifier next.toList = true := hnames next (by simp)
        -- A name is no target, so the expansion does not stop before the end of the chain.
        have hnone : target? next = none := by
          rw [Option.eq_none_iff_forall_ne_some]
          intro found hfound
          exact not_spells_of_isIdentifier hnext (target?_eq_some_iff.mp hfound)
        rw [hvalue next rfl]
        dsimp only
        rw [hnone]
        exact ih.mpr ⟨next :: rest, last, rfl, by simpa using hlength,
          fun x hx => hnames x (List.mem_cons_of_mem _ hx), hrest, hspells⟩

/-- A name stands for an include target if and only if histories lead from it to the target:
there are at most sixteen identifiers, the name first, such that the history of each one
settles its value, which is the next of them, and for the last one spells the target. In every
other case the name stands for nothing. -/
theorem expand_eq_some_iff (macros : List (String × String)) (events : List MacroEvent)
    (name : String) (form : IncludeForm) (target : String) :
    ((ofExternal macros).applyAll events).expand name = some (form, target) ↔
      ∃ names value, names.head? = some name ∧ names.length ≤ 16 ∧
        (∀ x ∈ names, isIdentifier x.toList = true) ∧
        (names ++ [value]).IsChain (fun x v => Settles (historyOf macros events x) x v) ∧
        Spells value form target := by
  have hsettles (x v : String) :
      (((ofExternal macros).applyAll events).binding x).value? = some v ↔
        Settles (historyOf macros events x) x v :=
    (sumsUp_applyAll macros events x).value?_eq_some_iff
  rw [expand, expandWithin_eq_some_iff]
  simp only [hsettles, hopLimit]

end MacroScope

end Recompile
