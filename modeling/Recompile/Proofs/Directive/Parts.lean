import Mathlib.Data.List.DropRight
import Recompile.Proofs.Directive.Order

/-!
# What is kept of a line

The recognisers cut a line into words, and what they keep of it, the names, values and
targets, are stretches of the line as it stands (`LogicalLine.standsIn_kind`). So a word
that does not occur in a line occurs neither in its macro event nor in its directive
(`LogicalLine.not_mentions_of_event?`, `LogicalLine.target_ne_of_directive?`).
-/

set_option autoImplicit false

namespace Recompile

open Text

/-- What is left when blanks are trimmed at the start is an end of the text. -/
theorem Text.trimStart_suffix (cs : List Char) : trimStart cs <:+ cs :=
  List.dropWhile_suffix isBlank

/-- What is left when blanks are trimmed is a stretch of the text. -/
theorem Text.infix_of_trim (cs : List Char) : trim cs <:+: cs :=
  (List.rdropWhile_prefix isBlank (trimStart cs)).isInfix.trans (trimStart_suffix cs).isInfix

/-- An identifier and what follows it make up the text. -/
theorem identifier?_eq_some {cs name rest : List Char} (h : identifier? cs = some (name, rest)) :
    name ++ rest = cs := by
  unfold identifier? at h
  split at h
  · cases h
  · split_ifs at h
    cases h
    rw [List.cons_append, List.takeWhile_append_dropWhile]

/-- The target of an include directive is a stretch of what follows the keyword. -/
theorem infix_of_includeTarget? {rest target : List Char} {form : IncludeForm}
    (h : includeTarget? rest = some (form, target)) : target <:+: rest := by
  have hclosed {form' : IncludeForm} {closing : Char} {body : List Char}
      (h : closedTarget? form' closing body = some (form, target)) : target <:+: body := by
    unfold closedTarget? at h
    dsimp only at h
    split_ifs at h
    cases h
    exact (List.takeWhile_prefix _).isInfix
  refine List.IsInfix.trans ?_ (infix_of_trim rest)
  unfold includeTarget? at h
  split at h
  · cases h
  · rename_i c body hbody
    rw [hbody]
    split_ifs at h
    · exact (hclosed h).trans (List.suffix_cons c body).isInfix
    · exact (hclosed h).trans (List.suffix_cons c body).isInfix
    · cases h
      exact List.infix_rfl

namespace LogicalLine

/-! ## The parts of a line -/

/-- What a meaning keeps of the characters of its line. -/
def Kind.parts : Kind → List (List Char)
  | .includes _ rest => [rest]
  | .defines name value => [name, value]
  | .definesFunction name | .undefines name => [name]
  | .opens | .closes | .other => []

variable {cs cs' : List Char} {k : Kind}

/-- All that a meaning keeps stands in a text. -/
def Kind.StandsIn (k : Kind) (cs : List Char) : Prop :=
  ∀ part ∈ k.parts, part <:+: cs

/-- What stands in the end of a text stands in the text. -/
theorem Kind.StandsIn.of_suffix (h : k.StandsIn cs) (hcs : cs <:+ cs') : k.StandsIn cs' :=
  fun part hpart => (h part hpart).trans hcs.isInfix

/-- What follows a word is an end of the text. -/
theorem suffix_of_isPrefixOf? {word rest : List Char} (h : word.isPrefixOf? cs = some rest) :
    rest <:+ cs :=
  ⟨word, List.isPrefixOf?_eq_some_iff_append_eq.mp h⟩

/-- What a conditional is about stands in the text. -/
theorem standsIn_conditional? (h : conditional? cs = some k) : k.StandsIn cs := by
  unfold conditional? at h
  dsimp only at h
  split_ifs at h <;> cases h <;> exact fun part hpart => (List.not_mem_nil hpart).elim

/-- What an include is about stands in the text. -/
theorem standsIn_include? (h : include? cs = some k) : k.StandsIn cs := by
  have hrest {isImport : Bool} {word rest : List Char} (hword : word.isPrefixOf? cs = some rest) :
      (Kind.includes isImport rest).StandsIn cs := by
    intro part hpart
    rw [List.mem_singleton.mp hpart]
    exact (suffix_of_isPrefixOf? hword).isInfix
  unfold include? at h
  split at h
  · rename_i rest hword
    split_ifs at h
    cases h
    exact hrest hword
  · split at h
    · rename_i rest hword
      split_ifs at h
      cases h
      exact hrest hword
    · cases h

/-- An identifier behind blanks and what follows it stand in the text. -/
theorem infix_of_spacedIdentifier? {name rest : List Char}
    (h : spacedIdentifier? cs = some (name, rest)) : name <:+: cs ∧ rest <:+: cs := by
  unfold spacedIdentifier? at h
  split at h
  · cases h
  · rename_i c tail
    split_ifs at h
    have hstart : name ++ rest <:+ c :: tail := by
      rw [identifier?_eq_some h]
      exact (trimStart_suffix tail).trans (List.suffix_cons c tail)
    exact ⟨(List.prefix_append name rest).isInfix.trans hstart.isInfix,
      (List.suffix_append name rest).isInfix.trans hstart.isInfix⟩

/-- What a definition is about stands in the text. -/
theorem standsIn_define? (h : define? cs = some k) : k.StandsIn cs := by
  unfold define? at h
  split at h
  · cases h
  · rename_i rest hword
    refine Kind.StandsIn.of_suffix ?_ (suffix_of_isPrefixOf? hword)
    split at h
    · cases h
    · rename_i name _ hname
      cases h
      intro part hpart
      rw [List.mem_singleton.mp hpart]
      exact (infix_of_spacedIdentifier? hname).1
    · rename_i name value _ hname
      cases h
      obtain ⟨hfirst, hvalue⟩ := infix_of_spacedIdentifier? hname
      intro part hpart
      rcases List.mem_cons.mp hpart with rfl | hpart
      · exact hfirst
      · rw [List.mem_singleton.mp hpart]
        exact (infix_of_trim value).trans hvalue

/-- What the end of a definition is about stands in the text. -/
theorem standsIn_undefine? (h : undefine? cs = some k) : k.StandsIn cs := by
  unfold undefine? at h
  split at h
  · cases h
  · rename_i rest hword
    refine Kind.StandsIn.of_suffix ?_ (suffix_of_isPrefixOf? hword)
    obtain ⟨found, hname, rfl⟩ := Option.map_eq_some_iff.mp h
    intro part hpart
    rw [List.mem_singleton.mp hpart]
    exact (infix_of_spacedIdentifier? hname).1

/-- What a directive is about stands in the text behind its hash. -/
theorem standsIn_kindAfterHash (cs : List Char) : (kindAfterHash cs).StandsIn cs := by
  unfold kindAfterHash
  cases hkind : (conditional? cs <|> include? cs <|> define? cs <|> undefine? cs) with
  | none => exact fun part hpart => (List.not_mem_nil hpart).elim
  | some k =>
    simp only [Option.orElse_eq_orElse, Option.orElse_eq_or, Option.or_eq_some_iff] at hkind
    obtain h | ⟨-, h | ⟨-, h | ⟨-, h⟩⟩⟩ := hkind
    · exact standsIn_conditional? h
    · exact standsIn_include? h
    · exact standsIn_define? h
    · exact standsIn_undefine? h

/-- What the meaning of a line keeps stands in the line. -/
theorem standsIn_kind (l : LogicalLine) : l.kind.StandsIn l.chars := by
  unfold kind
  split
  · rename_i rest hrest
    have hsuffix : trimStart rest <:+ l.chars :=
      (trimStart_suffix rest).trans
        ((hrest ▸ List.suffix_cons '#' rest).trans (trimStart_suffix l.chars))
    exact (standsIn_kindAfterHash _).of_suffix hsuffix
  · exact fun part hpart => (List.not_mem_nil hpart).elim

end LogicalLine

/-! ## Words that do not occur in a line -/

/-- An event changes a macro, or gives its name to another one as the value. -/
def MacroEvent.Mentions (name : String) : MacroEvent → Prop
  | .define n value _ => n = name ∨ value = name
  | .defineFunction n _ | .undefine n _ _ => n = name

namespace LogicalLine

variable {l : LogicalLine} {name : String}

/-- A name that does not stand in a line is no part of it. -/
theorem ofList_ne_of_mem_parts (hname : ¬ name.toList <:+: l.chars) {part : List Char}
    (hpart : part ∈ l.kind.parts) : String.ofList part ≠ name := by
  rintro rfl
  rw [String.toList_ofList] at hname
  exact hname (l.standsIn_kind part hpart)

/-- The event of a line that does not have a name in it does not mention the name. -/
theorem not_mentions_of_event? (hname : ¬ name.toList <:+: l.chars) {depth : Nat}
    {e : MacroEvent} (h : l.event? depth = some e) : ¬ e.Mentions name := by
  have hparts : ∀ part ∈ l.kind.parts, String.ofList part ≠ name := fun _ =>
    ofList_ne_of_mem_parts hname
  unfold event? at h
  split at h
  · rename_i n value hkind
    rw [hkind] at hparts
    cases h
    exact not_or.mpr ⟨hparts n (by simp [Kind.parts]), hparts value (by simp [Kind.parts])⟩
  · rename_i n hkind
    rw [hkind] at hparts
    cases h
    exact hparts n (by simp [Kind.parts])
  · rename_i n hkind
    rw [hkind] at hparts
    cases h
    exact hparts n (by simp [Kind.parts])
  · cases h

/-- A name that does not stand in some lines is mentioned by none of their events. -/
theorem not_mentions_of_mem_events {ls : List LogicalLine}
    (hname : ∀ l ∈ ls, ¬ name.toList <:+: l.chars) {depth : Nat} {e : MacroEvent}
    (h : e ∈ events depth ls) : ¬ e.Mentions name := by
  induction ls generalizing depth with
  | nil => exact (List.not_mem_nil h).elim
  | cons l ls ih =>
    rcases List.mem_append.mp h with he | he
    · exact not_mentions_of_event? (hname l List.mem_cons_self) (Option.mem_toList.mp he)
    · exact ih (fun l' hl' => hname l' (List.mem_cons_of_mem l hl')) he

/-- The directive of a line that does not have a name in it has another target. -/
theorem target_ne_of_directive? (hname : ¬ name.toList <:+: l.chars) {imports : Bool}
    {i : Include} (h : l.directive? imports = some i) : i.target ≠ name := by
  unfold directive? at h
  split at h
  · rename_i isImport rest hkind
    split_ifs at h
    obtain ⟨⟨form, target⟩, htarget, rfl⟩ := Option.map_eq_some_iff.mp h
    rintro rfl
    have hrest : rest <:+: l.chars := l.standsIn_kind rest (by simp [hkind, Kind.parts])
    rw [String.toList_ofList] at hname
    exact hname ((infix_of_includeTarget? htarget).trans hrest)
  · cases h

end LogicalLine

end Recompile
