import Mathlib.Data.List.Basic
import Mathlib.Tactic.Common
import Recompile.Proofs.Directive.Order

/-!
# Macro targets under every outcome of the conditionals

A scope of macros is computed without deciding any conditional block. Here a text is
also executed the way a preprocessor executes it, with its blocks decided in some way:
a definition replaces the value of its macro and an `#undef` removes it. The scope covers
what every such execution defines, so a target that the scope names without doubt is the
only one that any execution can come to.
-/

set_option autoImplicit false

namespace Recompile

/-! ## Execution -/

/-- What a macro is defined as. -/
inductive MacroDefinition where
  /-- A macro without parameters. -/
  | object (value : String)
  /-- A macro with parameters. -/
  | function
  deriving DecidableEq, Repr

/-- The macros that are defined at one place of one execution. -/
structure MacroTable where
  definition? : String → Option MacroDefinition

namespace MacroTable

/-- The table with another definition, or none, for one name. -/
def set (m : MacroTable) (name : String) (d : Option MacroDefinition) : MacroTable :=
  ⟨fun n => if n = name then d else m.definition? n⟩

/-- The macros given from outside, the blanks around their values removed. Of two values
for one name the later one counts. -/
def ofExternal (macros : List (String × String)) : MacroTable :=
  macros.foldl (fun m d =>
    m.set d.1 (some (.object (String.ofList (Text.trim d.2.toList))))) ⟨fun _ => none⟩

/-- The table after a line that takes effect. -/
def execute (m : MacroTable) (l : LogicalLine) : MacroTable :=
  match l.kind with
  | .defines name value => m.set (String.ofList name) (some (.object (String.ofList value)))
  | .definesFunction name => m.set (String.ofList name) (some .function)
  | .undefines name => m.set (String.ofList name) none
  | _ => m

/-- The table after lines of which each may take effect or not. -/
def run (m : MacroTable) (decided : List (LogicalLine × Bool)) : MacroTable :=
  decided.foldl (fun m l => if l.2 then m.execute l.1 else m) m

end MacroTable

/-- Lines with balanced conditional blocks, each with the decision whether it takes
effect. Outside all blocks (`outside`) every line does. Inside a block any choice is
allowed, which includes every choice of at most one branch of a group that skips what is
nested in the other ones. -/
inductive LogicalLine.Decided : Bool → List (LogicalLine × Bool) → Prop where
  | nil {outside : Bool} : Decided outside []
  | line {outside takes : Bool} {l : LogicalLine} {rest : List (LogicalLine × Bool)}
      (notOpening : l.kind ≠ .opens) (notClosing : l.kind ≠ .closes)
      (effect : outside = true → takes = true) (decided : Decided outside rest) :
      Decided outside ((l, takes) :: rest)
  | block {outside opens closes : Bool} {first last : LogicalLine}
      {inside rest : List (LogicalLine × Bool)}
      (opening : first.kind = .opens) (closing : last.kind = .closes)
      (effect : outside = true → opens = true ∧ closes = true)
      (decidedInside : Decided false inside) (decided : Decided outside rest) :
      Decided outside ((first, opens) :: (inside ++ (last, closes) :: rest))

/-- A value spells an include target: the target stands between quotes or brackets, it
is not empty, and the closing delimiter does not occur in it. -/
def Spells (value : String) (form : IncludeForm) (target : String) : Prop :=
  target ≠ "" ∧
    ((form = .quoted ∧ value.toList = '"' :: target.toList ++ ['"'] ∧ '"' ∉ target.toList) ∨
      (form = .system ∧ value.toList = '<' :: target.toList ++ ['>'] ∧ '>' ∉ target.toList))

/-- Where the value of a macro leads to. -/
inductive Outcome where
  | literal (form : IncludeForm) (target : String)
  /-- A name that is not defined. -/
  | undefined (name : String)
  /-- A macro with parameters. -/
  | functionLike (name : String)
  /-- A value that is neither an include target nor a name. -/
  | stuck (value : String)
  deriving DecidableEq, Repr

/-- Following the value of a name from name to name ends at an outcome. -/
inductive MacroTable.Leads (m : MacroTable) : String → Outcome → Prop where
  | literal {name value : String} {form : IncludeForm} {target : String}
      (defined : m.definition? name = some (.object value))
      (spells : Spells value form target) : Leads m name (.literal form target)
  | undefined {name : String} (h : m.definition? name = none) :
      Leads m name (.undefined name)
  | functionLike {name : String} (h : m.definition? name = some .function) :
      Leads m name (.functionLike name)
  | stuck {name value : String} (defined : m.definition? name = some (.object value))
      (noTarget : ∀ form target, ¬ Spells value form target)
      (noName : MacroScope.isIdentifier value.toList = false) : Leads m name (.stuck value)
  | step {name value : String} {o : Outcome}
      (defined : m.definition? name = some (.object value))
      (isName : MacroScope.isIdentifier value.toList = true) (leads : Leads m value o) :
      Leads m name o

/-! ## The values that spell targets -/

namespace MacroScope

/-- What stands between delimiters is found if and only if it is there. -/
theorem enclosed?_eq_some_iff {opening closing : Char} {cs inner : List Char} :
    enclosed? opening closing cs = some inner ↔
      cs = opening :: inner ++ [closing] ∧ inner ≠ [] ∧ closing ∉ inner := by
  constructor
  · intro h
    unfold enclosed? at h
    split at h
    · cases h
    · rename_i c rest
      obtain ⟨⟨rfl, hlast⟩, hinner, rfl⟩ :
          (c = opening ∧ rest.getLast? = some closing) ∧
            (rest.dropLast ≠ [] ∧ closing ∉ rest.dropLast) ∧ rest.dropLast = inner := by
        simpa using h
      refine ⟨?_, hinner⟩
      rw [List.cons_append, List.dropLast_append_getLast? _ hlast]
  · rintro ⟨rfl, hinner⟩
    simp [enclosed?, hinner]

/-- The include target of a value is found if and only if the value spells it. -/
theorem target?_eq_some_iff {value : String} {form : IncludeForm} {target : String} :
    target? value = some (form, target) ↔ Spells value form target := by
  have hne : ∀ cs : List Char, cs ≠ [] ↔ String.ofList cs ≠ "" := by
    intro cs
    rw [not_iff_not]
    exact ⟨fun h => by rw [h], fun h => by simpa using congrArg String.toList h⟩
  constructor
  · intro h
    unfold target? at h
    split at h
    · rename_i inner hinner
      cases h
      obtain ⟨hvalue, hempty, hclosing⟩ := enclosed?_eq_some_iff.mp hinner
      exact ⟨(hne _).mp hempty, .inl ⟨rfl, by simpa using hvalue, by simpa using hclosing⟩⟩
    · obtain ⟨inner, hinner, heq⟩ := Option.map_eq_some_iff.mp h
      cases heq
      obtain ⟨hvalue, hempty, hclosing⟩ := enclosed?_eq_some_iff.mp hinner
      exact ⟨(hne _).mp hempty, .inr ⟨rfl, by simpa using hvalue, by simpa using hclosing⟩⟩
  · rintro ⟨hempty, ⟨rfl, hvalue, hclosing⟩ | ⟨rfl, hvalue, hclosing⟩⟩
    all_goals
      have hempty : target.toList ≠ [] := (hne _).mpr (by rwa [String.ofList_toList])
      have hinner := enclosed?_eq_some_iff.mpr ⟨hvalue, hempty, hclosing⟩
    · simp only [target?, hinner, String.ofList_toList]
    · have hquoted : enclosed? '"' '"' value.toList = none := by
        rw [hvalue]
        rfl
      simp only [target?, hquoted, hinner, Option.map_some, String.ofList_toList]

/-- An identifier spells no target: it has no quotes and no angle brackets. -/
theorem not_spells_of_isIdentifier {value : String} {form : IncludeForm} {target : String}
    (h : isIdentifier value.toList = true) : ¬ Spells value form target := by
  have hquote : isIdentStart '"' = false := by decide
  have hbracket : isIdentStart '<' = false := by decide
  rintro ⟨-, ⟨-, heq, -⟩ | ⟨-, heq, -⟩⟩ <;> rw [heq] at h
  · simp [isIdentifier, hquote] at h
  · simp [isIdentifier, hbracket] at h

end MacroScope

/-! ## Scopes that cover an execution -/

/-- A scope covers a table: all that the table defines is among what the scope knows. A
name that the table does not define is free, since the scope need not notice it. -/
structure MacroScope.Covers (s : MacroScope) (m : MacroTable) : Prop where
  mem_values : ∀ {name value : String}, m.definition? name = some (.object value) →
    value ∈ (s.binding name).values
  functionLike : ∀ {name : String}, m.definition? name = some .function →
    (s.binding name).functionLike = true

namespace MacroScope

/-- Adding a value to a binding adds it, and keeps the others. -/
theorem mem_values_addValue {b : MacroBinding} {value added : String} :
    value ∈ (b.addValue added).values ↔ value = added ∨ value ∈ b.values := by
  unfold MacroBinding.addValue
  split
  · rename_i h
    exact ⟨.inr, fun h' => h'.elim (fun heq => heq ▸ h) id⟩
  · simp [or_comm]

namespace Covers

variable {s : MacroScope} {m : MacroTable}

/-- A scope still covers a table after both have changed one name, if the new binding
covers the new definition. -/
theorem set (h : s.Covers m) {name : String} {b : MacroBinding} {d : Option MacroDefinition}
    (hvalue : ∀ value, d = some (.object value) → value ∈ b.values)
    (hfunction : d = some .function → b.functionLike = true) :
    (s.set name b).Covers (m.set name d) := by
  constructor
  · intro n value hn
    by_cases heq : n = name
    · simp only [MacroTable.set, heq, if_true] at hn
      simpa [MacroScope.set, heq] using hvalue value hn
    · simp only [MacroTable.set, heq, if_false] at hn
      simpa [MacroScope.set, heq] using h.mem_values hn
  · intro n hn
    by_cases heq : n = name
    · simp only [MacroTable.set, heq, if_true] at hn
      simpa [MacroScope.set, heq] using hfunction hn
    · simp only [MacroTable.set, heq, if_false] at hn
      simpa [MacroScope.set, heq] using h.functionLike hn

/-- A scope that covers a table covers it with a name removed, whatever it notes about
that name besides the values and the parameters. -/
theorem remove (h : s.Covers m) {name : String} {b : MacroBinding} :
    (s.set name b).Covers (m.set name none) :=
  h.set (by simp) (by simp)

/-- A scope that knows more about one name still covers a table. -/
theorem widen (h : s.Covers m) {name : String} {b : MacroBinding}
    (hvalues : ∀ value ∈ (s.binding name).values, value ∈ b.values)
    (hfunction : (s.binding name).functionLike = true → b.functionLike = true) :
    (s.set name b).Covers m := by
  have hset : m.set name (m.definition? name) = m := by
    show MacroTable.mk _ = _
    congr 1
    funext n
    split
    · rename_i heq
      rw [heq]
    · rfl
  rw [← hset]
  exact h.set (fun value hv => hvalues value (h.mem_values hv))
    (fun hf => hfunction (h.functionLike hf))

end Covers

/-- The scope of the macros given from outside covers their table. -/
theorem covers_ofExternal (macros : List (String × String)) :
    (ofExternal macros).Covers (.ofExternal macros) := by
  have hempty : empty.Covers ⟨fun _ => none⟩ :=
    ⟨by simp, by simp⟩
  have hfold : ∀ (s : MacroScope) (m : MacroTable), s.Covers m →
      (macros.foldl (fun s d =>
        s.set d.1 ⟨[String.ofList (Text.trim d.2.toList)], false, false⟩) s).Covers
      (macros.foldl (fun m d =>
        m.set d.1 (some (.object (String.ofList (Text.trim d.2.toList))))) m) := by
    induction macros with
    | nil => exact fun s m h => h
    | cons d macros ih =>
      intro s m h
      refine ih _ _ (h.set ?_ ?_)
      · rintro value ⟨⟩
        exact List.mem_singleton_self _
      · rintro ⟨⟩
  exact hfold _ _ hempty

/-- The scope after the event of a line covers the table after the line. A line outside
all blocks has to take effect for that, since an `#undef` there empties the binding. -/
theorem Covers.line {s : MacroScope} {m : MacroTable} (h : s.Covers m) {depth : Nat}
    {l : LogicalLine} {takes : Bool} (effect : depth = 0 → l.kind ≠ .opens → takes = true) :
    (s.applyAll (l.event? depth).toList).Covers (if takes then m.execute l else m) := by
  cases hkind : l.kind with
  | defines name value =>
    simp only [LogicalLine.event?, hkind, Option.toList_some, applyAll, List.foldl_cons,
      List.foldl_nil, apply]
    cases takes with
    | false =>
      refine h.widen (fun v hv => mem_values_addValue.mpr (.inr hv)) fun hf => ?_
      unfold MacroBinding.addValue
      split <;> exact hf
    | true =>
      simp only [MacroTable.execute, hkind, if_true]
      refine h.set ?_ (by simp)
      rintro v ⟨⟩
      exact mem_values_addValue.mpr (.inl rfl)
  | definesFunction name =>
    simp only [LogicalLine.event?, hkind, Option.toList_some, applyAll, List.foldl_cons,
      List.foldl_nil, apply]
    cases takes with
    | false => exact h.widen (fun v hv => hv) (fun _ => rfl)
    | true =>
      simp only [MacroTable.execute, hkind, if_true]
      exact h.set (by simp) (fun _ => rfl)
  -- The scope widens with every other event, so there it does not matter whether the line takes
  -- effect.
  | undefines name =>
    simp only [LogicalLine.event?, hkind, Option.toList_some, applyAll, List.foldl_cons,
      List.foldl_nil]
    rcases Nat.eq_zero_or_pos depth with hdepth | hdepth
    · obtain rfl := effect hdepth (by simp [hkind])
      simp only [MacroTable.execute, hkind, if_true, hdepth]
      exact h.remove
    · simp only [hdepth, decide_true, apply]
      cases takes with
      | false => exact h.widen (fun v hv => hv) id
      | true =>
        simp only [MacroTable.execute, hkind, if_true]
        exact h.remove
  | _ =>
    simp only [LogicalLine.event?, hkind, Option.toList_none, applyAll, List.foldl_nil,
      MacroTable.execute, ite_self]
    exact h

/-! ## Covering a whole text -/

end MacroScope

namespace LogicalLine

/-- In lines with decisions, counted from a number of open blocks, each line outside all
blocks takes effect. The start of a block need not, as it changes no macro. -/
def OutsideTakesEffect : Nat → List (LogicalLine × Bool) → Prop
  | _, [] => True
  | depth, (l, takes) :: rest =>
    (depth = 0 → l.kind ≠ .opens → takes = true) ∧ OutsideTakesEffect (l.depthAfter depth) rest

/-- Balanced lines leave the number of open blocks as it is, and what is outside all
blocks takes effect. -/
theorem Decided.outsideTakesEffect_append {outside : Bool}
    {decided : List (LogicalLine × Bool)} (h : Decided outside decided) :
    ∀ {depth : Nat} {rest : List (LogicalLine × Bool)}, (depth = 0 → outside = true) →
      OutsideTakesEffect depth rest → OutsideTakesEffect depth (decided ++ rest) := by
  induction h with
  | nil => exact fun _ hrest => hrest
  | @line outside takes l tail notOpening notClosing effect _ ih =>
    intro depth rest hdepth hrest
    have hsame : l.depthAfter depth = depth := by
      unfold depthAfter
      split <;> simp_all
    refine ⟨fun h0 _ => effect (hdepth h0), ?_⟩
    rw [hsame]
    exact ih hdepth hrest
  | @block outside opens closes first last inside tail opening closing effect _ _ ihInside ihTail =>
    intro depth rest hdepth hrest
    refine ⟨fun _ hne => absurd opening hne, ?_⟩
    -- Inside the block the number is positive, so there is nothing to show of its lines.
    have hopen : first.depthAfter depth = depth + 1 := by simp [depthAfter, opening]
    have hclose : last.depthAfter (depth + 1) = depth := by simp [depthAfter, closing]
    show OutsideTakesEffect _ ((inside ++ (last, closes) :: tail) ++ rest)
    rw [hopen, List.append_assoc]
    refine ihInside (fun h0 => absurd h0 (Nat.succ_ne_zero depth)) ⟨?_, ?_⟩
    · exact fun h0 => absurd h0 (Nat.succ_ne_zero depth)
    · rw [hclose]
      exact ihTail hdepth hrest

/-- In a balanced choice of branches, what stands outside of all conditionals takes effect. -/
theorem Decided.outsideTakesEffect {decided : List (LogicalLine × Bool)}
    (h : Decided true decided) : OutsideTakesEffect 0 decided := by
  have hall := h.outsideTakesEffect_append (fun _ => rfl)
    (show OutsideTakesEffect 0 [] from trivial)
  rwa [List.append_nil] at hall

/-- What holds of all lines outside blocks holds of those among the first lines. -/
theorem OutsideTakesEffect.left {before after : List (LogicalLine × Bool)} {depth : Nat}
    (h : OutsideTakesEffect depth (before ++ after)) : OutsideTakesEffect depth before := by
  induction before generalizing depth with
  | nil => trivial
  | cons l before ih => exact ⟨h.1, ih h.2⟩

end LogicalLine

namespace MacroScope

/-- The scope after all events of some lines covers the table after every execution of
them in which the lines outside blocks take effect. -/
theorem Covers.run {decided : List (LogicalLine × Bool)} :
    ∀ {s : MacroScope} {m : MacroTable} {depth : Nat}, s.Covers m →
      LogicalLine.OutsideTakesEffect depth decided →
      (s.applyAll (LogicalLine.events depth (decided.map Prod.fst))).Covers (m.run decided) := by
  induction decided with
  | nil => exact fun h _ => h
  | cons head decided ih =>
    obtain ⟨l, takes⟩ := head
    intro s m depth h houtside
    have happly : s.applyAll (LogicalLine.events depth (((l, takes) :: decided).map Prod.fst)) =
        (s.applyAll (l.event? depth).toList).applyAll
          (LogicalLine.events (l.depthAfter depth) (decided.map Prod.fst)) :=
      List.foldl_append
    rw [happly]
    exact ih (h.line houtside.1) houtside.2

/-- A binding with a value that is not in doubt covers only that value. -/
theorem Covers.definition?_of_value? {s : MacroScope} {m : MacroTable} (h : s.Covers m)
    {name value : String} (hvalue : (s.binding name).value? = some value) :
    m.definition? name = none ∨ m.definition? name = some (.object value) := by
  have hbinding : (s.binding name).values = [value] ∧ (s.binding name).functionLike = false := by
    unfold MacroBinding.value? at hvalue
    split at hvalue
    · rename_i v hv
      split at hvalue
      · cases hvalue
      · rename_i hdoubt
        cases hvalue
        simp only [Bool.or_eq_true, not_or, Bool.not_eq_true] at hdoubt
        exact ⟨hv, hdoubt.1⟩
    · cases hvalue
  obtain ⟨hvalues, hnotFunction⟩ := hbinding
  cases hd : m.definition? name with
  | none => exact .inl rfl
  | some d =>
    refine .inr (congrArg some ?_)
    cases d with
    | object v =>
      have hv := h.mem_values hd
      rw [hvalues, List.mem_singleton] at hv
      rw [hv]
    | function =>
      have hf := h.functionLike hd
      rw [hnotFunction] at hf
      cases hf

end MacroScope

/-! ## Where names lead to -/

namespace MacroTable

variable {m : MacroTable} {name value : String} {o : Outcome}

/-- A name that is not defined leads nowhere else. -/
theorem leads_iff_of_undefined (h : m.definition? name = none) :
    m.Leads name o ↔ o = .undefined name := by
  constructor
  · intro hleads
    cases hleads with
    | undefined => rfl
    | functionLike h' => simp [h] at h'
    | literal h' | stuck h' | step h' => simp [h] at h'
  · rintro rfl
    exact .undefined h

/-- A value that spells an include target leads to it. -/
theorem leads_iff_of_spells {form : IncludeForm} {target : String}
    (h : m.definition? name = some (.object value)) (spells : Spells value form target) :
    m.Leads name o ↔ o = .literal form target := by
  constructor
  · intro hleads
    cases hleads with
    | undefined h' | functionLike h' => simp [h] at h'
    | stuck h' noTarget =>
      cases h.symm.trans h'
      exact absurd spells (noTarget _ _)
    | step h' isName =>
      cases h.symm.trans h'
      exact absurd spells (MacroScope.not_spells_of_isIdentifier isName)
    | literal h' spells' =>
      cases h.symm.trans h'
      have htarget := MacroScope.target?_eq_some_iff.mpr spells
      rw [MacroScope.target?_eq_some_iff.mpr spells'] at htarget
      cases htarget
      rfl
  · rintro rfl
    exact .literal h spells

/-- A value that is a name leads where that name leads. -/
theorem leads_iff_of_isIdentifier (h : m.definition? name = some (.object value))
    (isName : MacroScope.isIdentifier value.toList = true) :
    m.Leads name o ↔ m.Leads value o := by
  constructor
  · intro hleads
    cases hleads with
    | undefined h' | functionLike h' => simp [h] at h'
    | stuck h' _ noName =>
      cases h.symm.trans h'
      simp [isName] at noName
    | literal h' spells =>
      cases h.symm.trans h'
      exact absurd spells (MacroScope.not_spells_of_isIdentifier isName)
    | step h' _ leads =>
      cases h.symm.trans h'
      exact leads
  · exact .step h isName

/-- A name leads to the given target or to a name that is not defined, and to nothing
else. -/
def LeadsAtMostTo (m : MacroTable) (name : String) (form : IncludeForm) (target : String) :
    Prop :=
  (∃ o, m.Leads name o) ∧
    ∀ o, m.Leads name o → o = .literal form target ∨ ∃ missing, o = .undefined missing

end MacroTable

namespace MacroScope

/-- A scope names only a text that is an identifier. -/
theorem isIdentifier_of_expandWithin {s : MacroScope} {hops : Nat} {name : String}
    {found : IncludeForm × String} (h : s.expandWithin hops name = some found) :
    isIdentifier name.toList = true := by
  cases hops with
  | zero => cases h
  | succ hops =>
    unfold expandWithin at h
    split at h
    · assumption
    · cases h

/-- What a scope names without doubt is the only target that a table it covers can lead
to. The induction is on the macros that are looked up. -/
theorem Covers.leadsAtMostTo {s : MacroScope} {m : MacroTable} (covers : s.Covers m)
    {form : IncludeForm} {target : String} :
    ∀ {hops : Nat} {name : String}, s.expandWithin hops name = some (form, target) →
      m.LeadsAtMostTo name form target
  | hops + 1, name, h => by
    simp only [expandWithin] at h
    split at h
    case isFalse => cases h
    split at h
    · cases h
    rename_i value hvalue
    rcases covers.definition?_of_value? hvalue with hnone | hobject
    · refine ⟨⟨_, .undefined hnone⟩, fun o ho => .inr ⟨name, ?_⟩⟩
      exact (MacroTable.leads_iff_of_undefined hnone).mp ho
    · split at h
      · rename_i found hfound
        cases h
        have spells := target?_eq_some_iff.mp hfound
        refine ⟨⟨_, .literal hobject spells⟩, fun o ho => .inl ?_⟩
        exact (MacroTable.leads_iff_of_spells hobject spells).mp ho
      · have isName := isIdentifier_of_expandWithin h
        obtain ⟨⟨o, ho⟩, honly⟩ := covers.leadsAtMostTo h
        refine ⟨⟨o, .step hobject isName ho⟩, fun o' ho' => honly o' ?_⟩
        exact (MacroTable.leads_iff_of_isIdentifier hobject isName).mp ho'

end MacroScope

namespace Resolver

/-- The target of a line's include directive is looked up in the scope after the lines
before it. -/
theorem target_of_mem_targets (r : Resolver) {imports : Bool} {text : List Char}
    {before after : List LogicalLine} {l : LogicalLine}
    (hlines : LogicalLine.ofText text = before ++ l :: after) {i : Include}
    (hi : l.directive? imports = some i) {found : Option (IncludeForm × String)}
    (hfound : (i, found) ∈ r.targets (.ofText imports text)) :
    found =
      target? ((MacroScope.ofExternal r.macros).applyAll (LogicalLine.events 0 before)) i := by
  unfold targets at hfound
  rw [targetsFrom_eq_map _ _ _ (Directives.pairwise_includes imports text)] at hfound
  obtain ⟨j, -, hj⟩ := List.mem_map.mp hfound
  cases hj
  have hmacros : (Directives.ofText imports text).macros =
      LogicalLine.events 0 (before ++ l :: after) := by
    rw [← hlines]
    exact Directives.macros_ofText imports text
  have hordered := LogicalLine.pairwise_ofText text
  rw [hlines] at hordered
  rw [hmacros, LogicalLine.line_of_directive? hi, LogicalLine.takeWhile_events hordered]

/-- An include directive that names a macro and is not undecided is resolved to a target
that is right for every outcome of the conditionals: in each execution of the text in
which the directive takes effect, the macro leads to that target or to a name that is not
defined, and to nothing else. -/
theorem macroTarget_sound (r : Resolver) (t : FileTree) (imports : Bool) (text : List Char)
    (file : Path) (decided : List (LogicalLine × Bool))
    (hdecided : LogicalLine.Decided true decided)
    (hlines : decided.map Prod.fst = LogicalLine.ofText text)
    (before after : List (LogicalLine × Bool)) (l : LogicalLine)
    (hsplit : decided = before ++ (l, true) :: after) (i : Include)
    (hi : l.directive? imports = some i) (hform : i.form = .macroName)
    (resolution : Resolution)
    (hresolution : (i, resolution) ∈ r.resolveAll t (.ofText imports text) file)
    (hdecision : resolution ≠ .undecided) :
    ∃ form target,
      (i, some (form, target)) ∈ r.targets (.ofText imports text) ∧
      resolution = r.locate t (directoryOf file) (some (form, target)) ∧
      ((MacroTable.ofExternal r.macros).run before).LeadsAtMostTo i.target form target := by
  obtain ⟨⟨i', found⟩, hfound, heq⟩ := List.mem_map.mp hresolution
  simp only [Prod.mk.injEq] at heq
  obtain ⟨rfl, rfl⟩ := heq
  cases found with
  | none => exact absurd rfl hdecision
  | some found =>
    obtain ⟨form, target⟩ := found
    refine ⟨form, target, hfound, rfl, ?_⟩
    have hoftext : LogicalLine.ofText text =
        before.map Prod.fst ++ l :: after.map Prod.fst := by
      rw [← hlines, hsplit, List.map_append, List.map_cons]
    have hexpand := r.target_of_mem_targets hoftext hi hfound
    simp only [target?, hform] at hexpand
    have houtside := hdecided.outsideTakesEffect
    rw [hsplit] at houtside
    exact ((MacroScope.covers_ofExternal r.macros).run houtside.left).leadsAtMostTo
      hexpand.symm

/-- A name given from outside stands for a macro that is defined inside a block. -/
theorem macroTarget_sound_chain :
    let r : Resolver := ⟨[], [("N", "B")]⟩
    let text := "#if A\n#define B \"x\"\n#endif\n#include N\n".toList
    let block : List (LogicalLine × Bool) :=
      [(⟨1, "#if A".toList⟩, true), (⟨2, "#define B \"x\"".toList⟩, true),
        (⟨3, "#endif".toList⟩, true)]
    let l : LogicalLine := ⟨4, "#include N".toList⟩
    let i : Include := ⟨.macroName, "N", false, 4⟩
    LogicalLine.Decided true (block ++ [(l, true)]) ∧
      (block ++ [(l, true)]).map Prod.fst = LogicalLine.ofText text ∧
      l.directive? false = some i ∧ i.form = .macroName ∧
      (i, .missing) ∈ r.resolveAll (.bare []) (.ofText false text) .here ∧
      ((MacroTable.ofExternal r.macros).run block).LeadsAtMostTo "N" .quoted "x" := by
  intro r text block l i
  have hinside : LogicalLine.Decided false [(⟨2, "#define B \"x\"".toList⟩, true)] :=
    .line (by decide +kernel) (by decide +kernel) (fun _ => rfl) .nil
  have hdirective : LogicalLine.Decided true [(l, true)] :=
    .line (by decide +kernel) (by decide +kernel) (fun _ => rfl) .nil
  have hopening : (⟨1, "#if A".toList⟩ : LogicalLine).kind = .opens := by decide +kernel
  have hclosing : (⟨3, "#endif".toList⟩ : LogicalLine).kind = .closes := by decide +kernel
  have hdecided : LogicalLine.Decided true (block ++ [(l, true)]) := by
    have hblock := LogicalLine.Decided.block hopening hclosing
      (fun _ : true = true => ⟨rfl, rfl⟩) hinside hdirective
    exact hblock
  have hlines : (block ++ [(l, true)]).map Prod.fst = LogicalLine.ofText text := by
    decide +kernel
  have hi : l.directive? false = some i := by decide +kernel
  have hmissing : (i, Resolution.missing) ∈
      r.resolveAll (.bare []) (.ofText false text) .here := by
    decide +kernel
  refine ⟨hdecided, hlines, hi, rfl, hmissing, ?_⟩
  obtain ⟨form, target, htarget, -, hleads⟩ :=
    macroTarget_sound r (.bare []) false text .here _ hdecided hlines block [] l rfl i hi rfl
      .missing hmissing (by decide)
  have honly : ∀ found ∈ r.targets (.ofText false text), found = (i, some (.quoted, "x")) := by
    decide +kernel
  cases honly _ htarget
  exact hleads

end Resolver

end Recompile
