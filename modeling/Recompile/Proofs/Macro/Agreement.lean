import Recompile.Proofs.Directive.Parts
import Recompile.Proofs.Macro.Expansion

/-!
# Scopes that differ in one macro

A macro matters to the others only through its name, which may be the value of one of them.
So two scopes that agree but for one name, which is no value of another macro
(`MacroScope.AgreeOff`), give every other name the same target, and they agree in this way after
every event that does not mention the name.
-/

set_option autoImplicit false

namespace Recompile

namespace MacroScope

variable {s s' : MacroScope} {name n : String} {e : MacroEvent} {events : List MacroEvent}
  {macros : List (String × String)}

/-- Two scopes agree but for a name, and that is the value of no other macro. -/
structure AgreeOff (s : MacroScope) (name : String) (s' : MacroScope) : Prop where
  binding : ∀ n, n ≠ name → s'.binding n = s.binding n
  notValue : ∀ n, n ≠ name → name ∉ (s.binding n).values

/-- What an event does to the binding of a name depends only on that binding. -/
theorem binding_apply_congr (h : s'.binding n = s.binding n) :
    (s'.apply e).binding n = (s.apply e).binding n := by
  by_cases hn : e.name = n
  · subst hn
    cases e with
    | define m | defineFunction m =>
      simp only [apply, set, MacroEvent.name, if_true] at h ⊢
      rw [h]
    | undefine m conditional =>
      cases conditional <;> simp only [apply, set, MacroEvent.name, if_true] at h ⊢
      rw [h]
  · rw [binding_apply_of_ne hn, binding_apply_of_ne hn, h]

/-- A value of a name after an event was one before, or the event mentions it. -/
theorem mem_values_apply {value : String} (h : value ∈ ((s.apply e).binding n).values) :
    value ∈ (s.binding n).values ∨ e.Mentions value := by
  by_cases hn : e.name = n
  · subst hn
    cases e with
    | define m v =>
      simp only [apply, set, MacroEvent.name, if_true, mem_values_addValue] at h ⊢
      exact h.symm.imp_right fun hv => .inr hv.symm
    | defineFunction m =>
      simp only [apply, set, MacroEvent.name, if_true] at h
      exact .inl h
    | undefine m conditional =>
      cases conditional <;> simp only [apply, set, MacroEvent.name, if_true] at h
      · cases h
      · exact .inl h
  · rw [binding_apply_of_ne hn] at h
    exact .inl h

/-- An event that does not mention a name keeps two scopes in agreement off that name. -/
theorem AgreeOff.apply (h : s.AgreeOff name s') (he : ¬ e.Mentions name) :
    (s.apply e).AgreeOff name (s'.apply e) where
  binding n hn := binding_apply_congr (h.binding n hn)
  notValue n hn hvalue := (mem_values_apply hvalue).elim (h.notValue n hn) he

/-- Events that do not mention a name keep two scopes in agreement off that name. -/
theorem AgreeOff.applyAll (h : s.AgreeOff name s')
    (hevents : ∀ e ∈ events, ¬ e.Mentions name) :
    (s.applyAll events).AgreeOff name (s'.applyAll events) := by
  induction events generalizing s s' with
  | nil => exact h
  | cons e events ih =>
    exact ih (h.apply (hevents e List.mem_cons_self)) fun e' he' =>
      hevents e' (List.mem_cons_of_mem e he')

/-- The scopes name the same target for every other name. -/
theorem AgreeOff.expandWithin_eq (h : s.AgreeOff name s') (hn : n ≠ name) (hops : Nat) :
    s'.expandWithin hops n = s.expandWithin hops n := by
  induction hops generalizing n with
  | zero => rfl
  | succ hops ih =>
    rw [expandWithin, expandWithin, h.binding n hn]
    cases hvalue : (s.binding n).value? with
    | none => rfl
    | some value =>
      have hvalues : value ∈ (s.binding n).values := by
        rw [(value?_eq_some_iff.mp hvalue).1]
        exact List.mem_singleton_self value
      have hne : value ≠ name := fun heq => h.notValue n hn (heq ▸ hvalues)
      dsimp only
      rw [ih hne]

/-! ## A name that is new -/

/-- A name that does not occur in the macros given from outside is not defined by them. -/
theorem binding_ofExternal_eq_undefined (h : ∀ m ∈ macros, m.1 ≠ name) :
    (ofExternal macros).binding name = .undefined := by
  have hnone : externalValue? macros name = none := by
    rw [externalValue?, Option.map_eq_none_iff, List.find?_eq_none]
    intro m hm
    simpa using h m (List.mem_reverse.mp hm)
  rw [binding_ofExternal, hnone]
  rfl

/-- A scope of external macros agrees with itself off a name that occurs in no value. -/
theorem agreeOff_ofExternal (h : ∀ m ∈ macros, ¬ name.toList <:+: m.2.toList) :
    (ofExternal macros).AgreeOff name (ofExternal macros) where
  binding _ _ := rfl
  notValue n _ hvalue := by
    rw [binding_ofExternal, Option.mem_toList, externalValue?] at hvalue
    obtain ⟨m, hm, rfl⟩ := Option.map_eq_some_iff.mp hvalue
    have hmem := List.mem_reverse.mp (List.mem_of_find?_eq_some hm)
    rw [String.toList_ofList] at h
    exact h m hmem (Text.infix_of_trim m.2.toList)

/-- Events that do not mention a name leave its binding. -/
theorem binding_applyAll_of_not_mentions (h : ∀ e ∈ events, ¬ e.Mentions name) :
    (s.applyAll events).binding name = s.binding name := by
  induction events generalizing s with
  | nil => rfl
  | cons e events ih =>
    have hne : e.name ≠ name := by
      have he := h e List.mem_cons_self
      cases e with
      | define n v => exact fun heq => he (.inl heq)
      | defineFunction n | undefine n => exact he
    exact (ih fun e' he' => h e' (List.mem_cons_of_mem e he')).trans (binding_apply_of_ne hne)

/-- A definition changes nothing but its name. -/
theorem AgreeOff.define (h : s.AgreeOff name s) (value : String) (line : Nat) :
    s.AgreeOff name (s.apply (.define name value line)) where
  binding _ hn := binding_apply_of_ne hn.symm
  notValue := h.notValue

end MacroScope

end Recompile
