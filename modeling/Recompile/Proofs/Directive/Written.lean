import Mathlib.Data.List.Basic
import Recompile.Macro.Scope

/-!
# Written directives

A list of include directives, each written on a line of its own, is read back as it is,
the first directive on line 1 (`Directives.ofText_written`). Between quotes a target may
hold whatever does not end it. Between angle brackets this is not so: the scan takes a
comment marker in there for a comment, unless quotes inside the target hide it
(`LogicalLine.opensComment`), and then the directive is lost, with those after it if the
comment goes on (`Directives.not_forall_ofText_written`).

The proof is about one line at a time. A line in which no comment opens is one logical
line (`LogicalLine.scan_line`), and the meaning of a written directive is the directive
(`Include.Legible.gather_written_cons`).
-/

set_option autoImplicit false

namespace Recompile

open Text

namespace LogicalLine

/-! ## A line without comments -/

/-- Whether a comment opens in a text that is read from a place in code on, or from one
in a literal with the given quote. -/
def opensComment : Option Char → List Char → Bool
  | _, [] => false
  | none, '/' :: '/' :: _ => true
  | none, '/' :: '*' :: _ => true
  | none, c :: rest => opensComment (if c = '"' ∨ c = '\'' then some c else none) rest
  | some quote, '\\' :: _ :: rest => opensComment (some quote) rest
  | some quote, c :: rest => opensComment (if c = quote then none else some quote) rest

/-- The mode of a place in code or in a literal. -/
def Mode.ofQuote : Option Char → Mode
  | none => .code
  | some quote => .literal quote

/-- The draft with more characters. -/
def Draft.pushAll (d : Draft) (cs : List Char) : Draft :=
  { d with reversed := cs.reverse ++ d.reversed }

/-- Pushing a text is pushing its first character and then the rest. -/
theorem Draft.pushAll_cons (d : Draft) (c : Char) (cs : List Char) :
    d.pushAll (c :: cs) = (d.push c).pushAll cs := by
  simp [pushAll, push]

/-- The line of a new draft has what was pushed. -/
theorem Draft.line_pushAll_fresh (n : Nat) (cs : List Char) :
    ((Draft.fresh n).pushAll cs).line = ⟨n, cs⟩ := by
  simp [line, pushAll, fresh]

/-- The characters of a line that no backslash at its end continues. -/
structure Unbroken (cs : List Char) : Prop where
  feed : '\n' ∉ cs
  carriageReturn : '\r' ∉ cs
  last : cs.getLast? ≠ some '\\'

/-- The rest of an unbroken text is unbroken. -/
theorem Unbroken.tail {c : Char} {cs : List Char} (h : Unbroken (c :: cs)) : Unbroken cs where
  feed := fun hmem => h.feed (List.mem_cons_of_mem c hmem)
  carriageReturn := fun hmem => h.carriageReturn (List.mem_cons_of_mem c hmem)
  last := by
    cases cs with
    | nil => simp
    | cons x cs => exact List.getLast?_cons_cons ▸ h.last

/-- A text without line breaks in front of an unbroken one is unbroken with it. -/
theorem Unbroken.append {xs ys : List Char} (hfeed : '\n' ∉ xs) (hreturn : '\r' ∉ xs)
    (h : Unbroken ys) (hne : ys ≠ []) : Unbroken (xs ++ ys) where
  feed := by simp [hfeed, h.feed]
  carriageReturn := by simp [hreturn, h.carriageReturn]
  last := by
    rw [List.getLast?_append_of_ne_nil xs hne]
    exact h.last

/-- The character after a place in a line is the next one of the line or ends it. -/
theorem next_of_append_eq {cs tail after : List Char} {c : Char}
    (htail : ∀ c ∈ tail.head?, c = '\n') (h : cs ++ tail = c :: after) (hc : c ≠ '\n') :
    ∃ rest, cs = c :: rest := by
  cases cs with
  | nil =>
    obtain rfl : tail = c :: after := h
    exact absurd (htail c rfl) hc
  | cons x cs =>
    obtain ⟨rfl, -⟩ := List.cons.inj h
    exact ⟨cs, rfl⟩

/-- No backslash of the line continues it. -/
theorem Unbroken.not_continued {c : Char} {cs : List Char} (h : Unbroken (c :: cs))
    (hc : c = '\\') (tail after : List Char) :
    cs ++ tail ≠ '\n' :: after ∧ cs ++ tail ≠ '\r' :: '\n' :: after := by
  subst hc
  obtain ⟨x, rest, rfl⟩ : ∃ x rest, cs = x :: rest := by
    refine List.exists_cons_of_ne_nil fun hnil => h.last ?_
    rw [hnil]
    rfl
  constructor <;> intro heq <;> obtain ⟨rfl, -⟩ := List.cons.inj heq
  · exact h.feed (by simp)
  · exact h.carriageReturn (by simp)

/-- The scan of a line in which no comment opens keeps all its characters and is in code
or in a literal at its end. -/
theorem scan_append_of_unbroken {quote : Option Char} {cs tail : List Char} (h : Unbroken cs)
    (hcomment : opensComment quote cs = false) (htail : ∀ c ∈ tail.head?, c = '\n')
    (d : Draft) :
    ∃ quote', scan (.ofQuote quote) d (cs ++ tail) =
      scan (.ofQuote quote') (d.pushAll cs) tail := by
  fun_induction opensComment quote cs generalizing d
  case case1 quote => exact ⟨quote, rfl⟩
  case case2 | case3 => cases hcomment
  case case4 c rest hline hblock ih =>
    have hfeed : c ≠ '\n' := fun hc => h.feed (by simp [hc])
    have hreturn : c ≠ '\r' := fun hc => h.carriageReturn (by simp [hc])
    obtain ⟨quote', hscan⟩ := ih h.tail hcomment (d.push c)
    refine ⟨quote', ?_⟩
    rw [Draft.pushAll_cons, ← hscan, List.cons_append, Mode.ofQuote, scan, if_neg hreturn]
    · split <;> rfl
    · exact fun after hc => (h.not_continued hc tail after).1
    · exact fun after hc => (h.not_continued hc tail after).2
    · exact hfeed
    · intro after hc heq
      obtain ⟨r, hr⟩ := next_of_append_eq htail heq (by decide)
      exact hline r hc hr
    · intro after hc heq
      obtain ⟨r, hr⟩ := next_of_append_eq htail heq (by decide)
      exact hblock r hc hr
  case case5 quote c rest ih =>
    obtain ⟨quote', hscan⟩ := ih h.tail.tail hcomment ((d.push '\\').push c)
    refine ⟨quote', ?_⟩
    rw [Draft.pushAll_cons, Draft.pushAll_cons, ← hscan, List.cons_append, List.cons_append,
      Mode.ofQuote, scan]
    · exact fun hc => h.tail.feed (by simp [hc])
    · exact fun after hc => absurd hc fun hc => h.tail.carriageReturn (by simp [hc])
  case case6 quote c rest hescape ih =>
    have hfeed : c ≠ '\n' := fun hc => h.feed (by simp [hc])
    -- A backslash before another character of the line is the case before this one.
    have hbackslash : c ≠ '\\' := by
      rintro rfl
      cases rest with
      | nil => exact h.last rfl
      | cons x rest => exact hescape x rest rfl rfl
    obtain ⟨quote', hscan⟩ := ih h.tail hcomment (d.push c)
    refine ⟨quote', ?_⟩
    rw [Draft.pushAll_cons, ← hscan, List.cons_append, Mode.ofQuote, scan]
    · split <;> rfl
    · exact fun after hc => absurd hc hbackslash
    · exact fun after hc => absurd hc hbackslash
    · exact hfeed
    · exact fun x after hc => absurd hc hbackslash

/-- A line in which no comment opens is one logical line, whatever follows it. -/
theorem scan_line {cs tail : List Char} (h : Unbroken cs) (hne : cs ≠ [])
    (hcomment : opensComment none cs = false) (htail : ∀ c ∈ tail.head?, c = '\n') (n : Nat) :
    scan .code (.fresh n) (cs ++ tail) =
      ⟨n, cs⟩ :: scan .code (.fresh (n + 1)) tail.tail := by
  obtain ⟨quote, hscan⟩ := scan_append_of_unbroken h hcomment htail (.fresh n)
  rw [← Mode.ofQuote, hscan]
  cases tail with
  | nil =>
    rw [scan, if_neg, Draft.line_pushAll_fresh]
    · rfl
    · simpa [Draft.pushAll] using fun hnil => absurd hnil hne
  | cons c rest =>
    obtain rfl : c = '\n' := htail c rfl
    rw [scan, Draft.line_pushAll_fresh]
    · rfl
    · cases quote <;> exact Mode.noConfusion

/-- Lines in which no comment opens are the logical lines of the text that they make. -/
theorem scan_intercalate {lines : List (List Char)}
    (h : ∀ cs ∈ lines, Unbroken cs ∧ cs ≠ [] ∧ opensComment .none cs = false) (n : Nat) :
    scan .code (.fresh n) (['\n'].intercalate lines) =
      (lines.zipIdx n).map fun numbered => ⟨numbered.2, numbered.1⟩ := by
  induction lines generalizing n with
  | nil => rfl
  | cons cs lines ih =>
    obtain ⟨hunbroken, hne, hcomment⟩ := h cs List.mem_cons_self
    have hrest := ih (fun cs' hcs' => h cs' (List.mem_cons_of_mem _ hcs')) (n + 1)
    obtain ⟨tail, htext, htail, htext'⟩ : ∃ tail, ['\n'].intercalate (cs :: lines) = cs ++ tail ∧
        (∀ c ∈ tail.head?, c = '\n') ∧ tail.tail = ['\n'].intercalate lines := by
      cases lines with
      | nil => exact ⟨[], by simp, by simp, by simp⟩
      | cons cs' lines =>
        exact ⟨'\n' :: ['\n'].intercalate (cs' :: lines), by simp, by simp, rfl⟩
    rw [htext, scan_line hunbroken hne hcomment htail, htext', hrest]
    rfl

/-! ## Where comments open -/

/-- A text without a slash opens no comment. -/
theorem opensComment_of_not_mem {quote : Option Char} {cs : List Char} (h : '/' ∉ cs) :
    opensComment quote cs = false := by
  fun_induction opensComment quote cs
  case case1 => rfl
  case case2 | case3 => simp at h
  case case4 ih | case6 ih => exact ih fun hmem => h (List.mem_cons_of_mem _ hmem)
  case case5 ih =>
    exact ih fun hmem => h (List.mem_cons_of_mem _ (List.mem_cons_of_mem _ hmem))

/-- No comment opens in a text without comment markers, wherever it is read from. -/
theorem opensComment_of_not_infix {quote : Option Char} {cs : List Char}
    (hline : ¬ ['/', '/'] <:+: cs) (hblock : ¬ ['/', '*'] <:+: cs) :
    opensComment quote cs = false := by
  have hcons {xs : List Char} {c : Char} {rest : List Char} (h : ¬ xs <:+: c :: rest) :
      ¬ xs <:+: rest := fun hrest => h (hrest.trans (List.suffix_cons c rest).isInfix)
  fun_induction opensComment quote cs
  case case1 => rfl
  case case2 rest => exact absurd (List.prefix_append ['/', '/'] rest).isInfix hline
  case case3 rest => exact absurd (List.prefix_append ['/', '*'] rest).isInfix hblock
  case case4 ih | case6 ih => exact ih (hcons hline) (hcons hblock)
  case case5 ih => exact ih (hcons (hcons hline)) (hcons (hcons hblock))

/-- Characters that open neither a comment nor a literal do not matter. -/
theorem opensComment_append {xs : List Char} (h : ∀ c ∈ xs, c ≠ '/' ∧ c ≠ '"' ∧ c ≠ '\'')
    (ys : List Char) : opensComment none (xs ++ ys) = opensComment none ys := by
  induction xs with
  | nil => rfl
  | cons c xs ih =>
    obtain ⟨hslash, hquote, hapostrophe⟩ := h c List.mem_cons_self
    rw [List.cons_append, opensComment, if_neg (by simp [hquote, hapostrophe])]
    · exact ih fun c' hc' => h c' (List.mem_cons_of_mem c hc')
    · exact fun _ hc => absurd hc hslash
    · exact fun _ hc => absurd hc hslash

/-- Within a literal, a character ends it or leaves it as it is. -/
theorem opensComment_literal_cons {quote c : Char} {cs : List Char} (hc : c ≠ '\\') :
    opensComment (some quote) (c :: cs) =
      opensComment (if c = quote then none else some quote) cs := by
  rw [opensComment]
  exact fun _ _ h => absurd h hc

/-- A backslash at the end of a literal opens no comment. -/
theorem opensComment_backslash (quote : Char) : opensComment (some quote) ['\\'] = false := by
  rw [opensComment]
  · split <;> rfl
  · exact fun _ _ _ h => by cases h

/-- No comment opens before the end of a literal. -/
theorem opensComment_literal {quote : Char} :
    ∀ {cs : List Char}, quote ∉ cs → opensComment (some quote) (cs ++ [quote]) = false
  | [], _ => by
    by_cases hquote : quote = '\\'
    · rw [hquote]
      exact opensComment_backslash _
    · rw [List.nil_append, opensComment_literal_cons hquote, if_pos rfl]
      rfl
  | [c], h => by
    have hquote : c ≠ quote := fun heq => h (by simp [heq])
    by_cases hc : c = '\\'
    · rw [hc]
      rfl
    · rw [List.singleton_append, opensComment_literal_cons hc, if_neg hquote]
      have hend := opensComment_literal (List.not_mem_nil (a := quote))
      exact hend
  | c :: c' :: cs, h => by
    have htail : quote ∉ c' :: cs := fun hmem => h (List.mem_cons_of_mem c hmem)
    by_cases hc : c = '\\'
    · -- The escaped character is passed over.
      rw [hc, List.cons_append, List.cons_append, opensComment]
      exact opensComment_literal fun hmem => htail (List.mem_cons_of_mem c' hmem)
    · have hquote : c ≠ quote := fun heq => h (by simp [heq])
      rw [List.cons_append, opensComment_literal_cons hc, if_neg hquote]
      exact opensComment_literal htail

/-- A closing angle bracket opens no comment. -/
theorem opensComment_angle {quote : Option Char} {cs : List Char} :
    opensComment quote (cs ++ ['>']) = opensComment quote cs := by
  fun_induction opensComment quote cs
  case case1 quote =>
    cases quote with
    | none => rfl
    | some quote => exact (opensComment_literal_cons (by decide)).trans (by split <;> rfl)
  case case2 | case3 => rfl
  case case4 c rest hline hblock ih =>
    rw [← ih, List.cons_append, opensComment]
    all_goals
      intro tail hc hrest
      cases rest with
      | nil => simp at hrest
      | cons x rest =>
        obtain ⟨rfl, -⟩ := List.cons.inj hrest
        first | exact hline rest hc rfl | exact hblock rest hc rfl
  case case5 ih => exact ih
  case case6 quote c rest hescape ih =>
    by_cases hc : c = '\\'
    · cases rest with
      | nil =>
        rw [hc]
        split <;> rfl
      | cons x rest => exact (hescape x rest hc rfl).elim
    · rw [← ih, List.cons_append, opensComment_literal_cons hc]

/-! ## The meaning of a written directive -/

/-- A line that begins with an include's keyword is an include. -/
theorem kind_keyword (n : Nat) (isImport : Bool) (cs : List Char) :
    kind ⟨n, (if isImport then "#import " else "#include ").toList ++ cs⟩ =
      .includes isImport (' ' :: cs) := by
  cases isImport <;> rfl

end LogicalLine

/-- What stands after the keyword of a directive and the blank that follows it. -/
def Include.spelled (i : Include) : List Char :=
  match i.form with
  | .quoted => '"' :: (i.target.toList ++ ['"'])
  | .system => '<' :: (i.target.toList ++ ['>'])
  | .macroName => i.target.toList

/-- A quoted target is spelled between quotes. -/
theorem Include.spelled_quoted {i : Include} (hform : i.form = .quoted) :
    i.spelled = '"' :: i.target.toList ++ ['"'] := by
  simp [spelled, hform]

/-- A system target is spelled between angle brackets. -/
theorem Include.spelled_system {i : Include} (hform : i.form = .system) :
    i.spelled = '<' :: i.target.toList ++ ['>'] := by
  simp [spelled, hform]

/-- A macro name is spelled as it is. -/
theorem Include.spelled_macroName {i : Include} (hform : i.form = .macroName) :
    i.spelled = i.target.toList := by
  simp [spelled, hform]

/-- A written directive is its keyword and the spelling of its target. -/
theorem Include.toList_written (i : Include) :
    i.written.toList = (if i.isImport then "#import " else "#include ").toList ++ i.spelled := by
  obtain ⟨form, target, isImport, line⟩ := i
  cases form <;> simp [written, spelled]

/-- The targets that a directive of each form can have, so far as a line can show them. -/
structure Include.Legible (i : Include) : Prop where
  nonempty : i.target ≠ ""
  feed : '\n' ∉ i.target.toList
  carriageReturn : '\r' ∉ i.target.toList
  delimited : match i.form with
    | .quoted => '"' ∉ i.target.toList
    | .system => '>' ∉ i.target.toList
    | .macroName => MacroScope.isIdentifier i.target.toList = true

/-! ## Identifiers -/

/-- A character of an identifier is not a blank. -/
theorem isBlank_of_isIdentChar {c : Char} (h : isIdentChar c = true) : isBlank c = false := by
  have hascii : c.toNat < 0x80 := by
    rcases Bool.or_eq_true_iff.mp h with halphanum | hunderscore
    · exact toNat_lt_of_isAlphanum halphanum
    · rw [eq_of_beq hunderscore]
      decide
  have htable : ∀ n < 0x80, isIdentChar (Char.ofNat n) = true →
      isBlank (Char.ofNat n) = false := by
    decide +kernel
  have hc := htable c.toNat hascii
  rw [Char.ofNat_toNat] at hc
  exact hc h

/-- A character that may begin an identifier may be in one. -/
theorem isIdentChar_of_isIdentStart {c : Char} (h : isIdentStart c = true) :
    isIdentChar c = true := by
  rcases Bool.or_eq_true_iff.mp h with halpha | hunderscore
  · simp [isIdentChar, Char.isAlphanum, halpha]
  · simp [isIdentChar, hunderscore]

/-- An identifier is a character that may begin one and others that may be in one. -/
theorem MacroScope.isIdentifier_cons {c : Char} {cs : List Char} :
    isIdentifier (c :: cs) = true ↔ isIdentStart c = true ∧ ∀ x ∈ cs, isIdentChar x = true := by
  simp [isIdentifier]

/-- Each character of an identifier may be in one. -/
theorem MacroScope.isIdentChar_of_mem {cs : List Char} (h : isIdentifier cs = true) {c : Char}
    (hc : c ∈ cs) : isIdentChar c = true := by
  cases cs with
  | nil => cases hc
  | cons x cs =>
    obtain ⟨hstart, hrest⟩ := isIdentifier_cons.mp h
    rcases List.mem_cons.mp hc with rfl | hc
    · exact isIdentChar_of_isIdentStart hstart
    · exact hrest c hc

/-! ## The target of a written directive -/

/-- Nothing but the first blank is trimmed if there is no other blank at the ends. -/
theorem trim_blank_cons {c d : Char} {cs : List Char} (hc : isBlank c = false)
    (hlast : (c :: cs).getLast? = some d) (hd : isBlank d = false) :
    trim (' ' :: c :: cs) = c :: cs := by
  have hstart : trimStart (' ' :: c :: cs) = c :: cs := by
    rw [trimStart, List.dropWhile_cons_of_pos (by decide),
      List.dropWhile_cons_of_neg (by simp [hc])]
  obtain ⟨before, hbefore⟩ := List.getLast?_eq_some_iff.mp hlast
  rw [trim, hstart, trimEnd, hbefore, List.reverse_append, List.reverse_singleton,
    List.singleton_append, List.dropWhile_cons_of_neg (by simp [hd]), List.reverse_cons,
    List.reverse_reverse]

/-- Trimming drops nothing of a text between two characters that are no blanks. -/
theorem trim_delimited {opening closing : Char} (target : List Char)
    (hopening : isBlank opening = false) (hclosing : isBlank closing = false) :
    trim (' ' :: (opening :: target ++ [closing])) = opening :: target ++ [closing] :=
  trim_blank_cons hopening (List.getLast?_concat (l := opening :: target)) hclosing

/-- A target is read up to the character that closes it. -/
theorem closedTarget?_append {form : IncludeForm} {closing : Char} {target : List Char}
    (h : closing ∉ target) (hne : target ≠ []) :
    closedTarget? form closing (target ++ [closing]) = some (form, target) := by
  have htake : (target ++ [closing]).takeWhile (· ≠ closing) = target := by
    rw [List.takeWhile_append_of_pos, List.takeWhile_cons_of_neg (by simp), List.append_nil]
    intro c hc
    rw [decide_eq_true_eq]
    exact ne_of_mem_of_not_mem hc h
  rw [closedTarget?, htake, if_pos ⟨by simp, hne⟩]

/-- Trimming drops the blank in front of an identifier and nothing else. -/
theorem trim_identifier {cs : List Char} (h : MacroScope.isIdentifier cs = true) :
    trim (' ' :: cs) = cs := by
  cases cs with
  | nil => cases h
  | cons c cs =>
    have hblank : ∀ x ∈ c :: cs, isBlank x = false := fun x hx =>
      isBlank_of_isIdentChar (MacroScope.isIdentChar_of_mem h hx)
    obtain ⟨d, hlast⟩ :=
      Option.isSome_iff_exists.mp (List.getLast?_isSome.mpr (List.cons_ne_nil c cs))
    exact trim_blank_cons (hblank c List.mem_cons_self) hlast
      (hblank d (List.mem_of_getLast? hlast))

/-- An identifier is read as a macro name. -/
theorem includeTarget?_identifier {cs : List Char} (h : MacroScope.isIdentifier cs = true) :
    includeTarget? (' ' :: cs) = some (.macroName, cs) := by
  have htrim := trim_identifier h
  cases cs with
  | nil => cases h
  | cons c cs =>
    obtain ⟨hstart, -⟩ := MacroScope.isIdentifier_cons.mp h
    have hquote : c ≠ '"' := by
      rintro rfl
      cases hstart
    have hangle : c ≠ '<' := by
      rintro rfl
      cases hstart
    simp [includeTarget?, htrim, hquote, hangle, hstart]

namespace Include

variable {i : Include}

/-- A legible target is not empty. -/
theorem Legible.toList_ne_nil (h : i.Legible) : i.target.toList ≠ [] :=
  fun hnil => h.nonempty (String.toList_inj.mp hnil)

/-- The spelling of a legible target is not empty. -/
theorem Legible.spelled_ne_nil (h : i.Legible) : i.spelled ≠ [] := by
  cases hform : i.form with
  | quoted => simp [spelled_quoted hform]
  | system => simp [spelled_system hform]
  | macroName =>
    rw [spelled_macroName hform]
    exact h.toList_ne_nil

/-- What follows the keyword names the target of the directive. -/
theorem Legible.includeTarget?_spelled (h : i.Legible) :
    includeTarget? (' ' :: i.spelled) = some (i.form, i.target.toList) := by
  have hne := h.toList_ne_nil
  have hdelimited := h.delimited
  cases hform : i.form with
  | quoted =>
    rw [hform] at hdelimited
    rw [spelled_quoted hform, includeTarget?, trim_delimited _ (by decide) (by decide)]
    exact closedTarget?_append hdelimited hne
  | system =>
    rw [hform] at hdelimited
    rw [spelled_system hform, includeTarget?, trim_delimited _ (by decide) (by decide)]
    exact closedTarget?_append hdelimited hne
  | macroName =>
    rw [hform] at hdelimited
    rw [spelled_macroName hform]
    exact includeTarget?_identifier hdelimited

/-- The meaning of a written directive is this directive. -/
theorem Legible.gather_written_cons (h : i.Legible) (depth n : Nat) (ls : List LogicalLine) :
    Directives.gather true depth (⟨n, i.written.toList⟩ :: ls) =
      (Directives.gather true depth ls).addInclude { i with line := n } := by
  rw [i.toList_written, Directives.gather, LogicalLine.kind_keyword]
  simp [h.includeTarget?_spelled]

/-- The spelling of a legible target stays on one line. -/
theorem Legible.unbroken_spelled (h : i.Legible) : LogicalLine.Unbroken i.spelled := by
  have hdelimited := h.delimited
  cases hform : i.form with
  | quoted =>
    rw [spelled_quoted hform]
    exact .append (by simp [h.feed]) (by simp [h.carriageReturn])
      ⟨by decide, by decide, by decide⟩ (List.cons_ne_nil _ _)
  | system =>
    rw [spelled_system hform]
    exact .append (by simp [h.feed]) (by simp [h.carriageReturn])
      ⟨by decide, by decide, by decide⟩ (List.cons_ne_nil _ _)
  | macroName =>
    rw [hform] at hdelimited
    rw [spelled_macroName hform]
    refine ⟨h.feed, h.carriageReturn, fun hlast => ?_⟩
    have hchar := MacroScope.isIdentChar_of_mem hdelimited (List.mem_of_getLast? hlast)
    exact absurd hchar (by decide)

/-- The directive of a legible target stays on one line. -/
theorem Legible.unbroken_written (h : i.Legible) : LogicalLine.Unbroken i.written.toList := by
  rw [toList_written]
  apply LogicalLine.Unbroken.append _ _ h.unbroken_spelled h.spelled_ne_nil
  · cases i.isImport <;> decide
  · cases i.isImport <;> decide

/-- Between angle brackets the comment markers of a target have to be hidden. -/
theorem Legible.opensComment_spelled (h : i.Legible)
    (hcomment : i.form = .system → LogicalLine.opensComment .none i.target.toList = false) :
    LogicalLine.opensComment .none i.spelled = false := by
  have hdelimited := h.delimited
  cases hform : i.form with
  | quoted =>
    rw [hform] at hdelimited
    rw [spelled_quoted hform]
    exact LogicalLine.opensComment_literal hdelimited
  | system =>
    rw [spelled_system hform]
    exact LogicalLine.opensComment_angle.trans (hcomment hform)
  | macroName =>
    rw [hform] at hdelimited
    rw [spelled_macroName hform]
    apply LogicalLine.opensComment_of_not_mem
    intro hmem
    exact absurd (MacroScope.isIdentChar_of_mem hdelimited hmem) (by decide)

/-- The directive of a legible target opens no comment, if its target does not. -/
theorem Legible.opensComment_written (h : i.Legible)
    (hcomment : i.form = .system → LogicalLine.opensComment .none i.target.toList = false) :
    LogicalLine.opensComment .none i.written.toList = false := by
  have hspelled := h.opensComment_spelled hcomment
  rw [toList_written]
  cases i.isImport <;> exact hspelled

end Include

namespace Directives

/-- The directives that are written on the lines of a text, the first on line 1. -/
def numbered (is : List Include) : List Include :=
  (is.zipIdx 1).map fun p => { p.1 with line := p.2 }

/-- The lines of written directives mean these directives and nothing else. -/
theorem gather_written {is : List Include} (legible : ∀ i ∈ is, i.Legible) (n : Nat) :
    gather true 0 (((is.map fun i => i.written.toList).zipIdx n).map fun p => ⟨p.2, p.1⟩) =
      ⟨(is.zipIdx n).map fun p => { p.1 with line := p.2 }, []⟩ := by
  induction is generalizing n with
  | nil => rfl
  | cons i is ih =>
    simp only [List.map_cons, List.zipIdx_cons]
    rw [(legible i List.mem_cons_self).gather_written_cons,
      ih (fun j hj => legible j (List.mem_cons_of_mem i hj)) (n + 1)]
    rfl

/-- A list of directives comes back from the text in which each is written on a line of
its own. -/
theorem ofText_written (is : List Include) (legible : ∀ i ∈ is, i.Legible)
    (uncommented : ∀ i ∈ is, i.form = .system →
      LogicalLine.opensComment .none i.target.toList = false) :
    ofText true (['\n'].intercalate (is.map fun i => i.written.toList)) = ⟨numbered is, []⟩ := by
  have hlines : ∀ cs ∈ is.map (fun i => i.written.toList), LogicalLine.Unbroken cs ∧ cs ≠ [] ∧
      LogicalLine.opensComment .none cs = false := by
    intro cs hcs
    obtain ⟨i, hi, rfl⟩ := List.mem_map.mp hcs
    refine ⟨(legible i hi).unbroken_written, ?_,
      (legible i hi).opensComment_written (uncommented i hi)⟩
    rw [i.toList_written]
    cases i.isImport <;> exact List.cons_ne_nil _ _
  rw [ofText, LogicalLine.ofText, LogicalLine.scan_intercalate hlines]
  exact gather_written legible 1

/-- Comment markers in quotes, in a name with an apostrophe, and a macro. -/
theorem ofText_written_markers :
    let is : List Include := [⟨.quoted, "odd/*na\\me.h", false, 7⟩,
      ⟨.system, "it's//all", true, 0⟩, ⟨.macroName, "HEADER_2", false, 7⟩]
    (∀ i ∈ is, i.Legible) ∧
      (∀ i ∈ is, i.form = .system →
        LogicalLine.opensComment .none i.target.toList = false) ∧
      ofText true (['\n'].intercalate (is.map fun i => i.written.toList)) =
        ⟨numbered is, []⟩ := by
  intro is
  have legible : ∀ i ∈ is, i.Legible := by
    intro i hi
    rcases List.mem_cons.mp hi with rfl | hi
    · exact ⟨by decide, by decide, by decide, by decide⟩
    rcases List.mem_cons.mp hi with rfl | hi
    · exact ⟨by decide, by decide, by decide, by decide⟩
    obtain rfl := List.mem_singleton.mp hi
    exact ⟨by decide, by decide, by decide, by decide⟩
  have uncommented : ∀ i ∈ is, i.form = .system →
      LogicalLine.opensComment .none i.target.toList = false := by
    decide
  exact ⟨legible, uncommented, ofText_written is legible uncommented⟩

/-- Between angle brackets a comment marker opens a comment, and the directive on the
next line goes with it. -/
theorem not_forall_ofText_written :
    ¬ ∀ is : List Include, (∀ i ∈ is, i.Legible) →
      ofText true (['\n'].intercalate (is.map fun i => i.written.toList)) =
        ⟨numbered is, []⟩ := by
  intro h
  have hlost : ofText true "#include <odd/*name.h>\n#include \"next.h\"".toList = none := by
    decide
  have legible : ∀ i ∈ ([⟨.system, "odd/*name.h", false, 1⟩,
      ⟨.quoted, "next.h", false, 2⟩] : List Include), i.Legible := by
    intro i hi
    rcases List.mem_cons.mp hi with rfl | hi
    · exact ⟨by decide, by decide, by decide, by decide⟩
    obtain rfl := List.mem_singleton.mp hi
    exact ⟨by decide, by decide, by decide, by decide⟩
  have hread := h _ legible
  rw [show ['\n'].intercalate _ = "#include <odd/*name.h>\n#include \"next.h\"".toList from by
    decide, hlost] at hread
  cases hread

end Directives

end Recompile
