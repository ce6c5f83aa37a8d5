import Recompile.Json.Printer
import Recompile.Json.Reader
import Recompile.Proofs.Text.Utf8

/-!
# Reading what was written

A value written without blanks is read back as itself (`Json.ofBytes?_compact`), unless it
has a number that is given by its spelling. Since the reader takes one character at a
time, a lemma for each part of a value says in which state the reader is after it, and a
longer text is read by putting these together.
-/

set_option autoImplicit false

namespace Recompile.Json

mutual

/-- A value without numbers that are given by their spelling. -/
def Plain : Json → Prop
  | .number _ => False
  | .array items => PlainItems items
  | .object fields => PlainFields fields
  | _ => True

/-- Items each of which is plain. -/
def PlainItems : List Json → Prop
  | [] => True
  | item :: items => item.Plain ∧ PlainItems items

/-- Fields each with a plain value. -/
def PlainFields : List (JsonText × Json) → Prop
  | [] => True
  | field :: fields => field.2.Plain ∧ PlainFields fields

end

/-- Items are plain when each of them is. -/
theorem plainItems_iff {items : List Json} : PlainItems items ↔ ∀ item ∈ items, item.Plain := by
  induction items with
  | nil => simp [PlainItems]
  | cons item items ih => simp [PlainItems, ih]

/-- Fields are plain when the value of each is. -/
theorem plainFields_iff {fields : List (JsonText × Json)} :
    PlainFields fields ↔ ∀ field ∈ fields, field.2.Plain := by
  induction fields with
  | nil => simp [PlainFields]
  | cons field fields ih => simp [PlainFields, ih]

namespace Reader

/-- The state after several characters. -/
def run (s : State) (cs : List Char) : Option State :=
  (cs.map some).foldlM State.step s

/-- Reading nothing leaves the reader as it is. -/
@[simp] theorem run_nil (s : State) : run s [] = some s :=
  rfl

/-- Reading a text is taking its first character and then reading the rest. -/
theorem run_cons (s : State) (c : Char) (cs : List Char) :
    run s (c :: cs) = (s.step (some c)).bind fun s' => run s' cs := by
  simp [run, List.foldlM_cons]

/-- Reading two texts in a row is reading the one and then the other. -/
theorem run_append (s : State) (cs ds : List Char) :
    run s (cs ++ ds) = (run s cs).bind fun s' => run s' ds := by
  simp [run, List.foldlM_append]

/-! ## Text -/

/-- The text that has begun after several characters that do not end it. -/
def OpenText.reads (t : OpenText) : List Char → Option OpenText
  | [] => some t
  | c :: cs =>
    match t.step (some c) with
    | .continues t' => t'.reads cs
    | _ => none

/-- The piece by which a character is written. -/
def pieceOf (c : Char) : Piece :=
  if c.toNat < 0x20 ∧ c.toNat ∉ [8, 9, 10, 12, 13] then .unit c.toNat else .char c

/-- Reading two stretches of a string in a row is reading the one and then the other. -/
theorem reads_append (t : OpenText) (cs ds : List Char) :
    t.reads (cs ++ ds) = (t.reads cs).bind fun t' => t'.reads ds := by
  induction cs generalizing t with
  | nil => rfl
  | cons c cs ih =>
    simp only [List.cons_append, OpenText.reads]
    split
    · exact ih _
    · rfl

/-- The digit written for a number is read as that number. -/
theorem hexValue?_hexDigit : ∀ n < 16, hexValue? (hexDigit n) = some n := by
  decide

/-- The four digits of an escape spell one unit. -/
theorem reads_unit (pieces : List Piece) {n : Nat} (h : n < 0x20) :
    (⟨pieces, .closed⟩ : OpenText).reads
      ['\\', 'u', '0', '0', hexDigit (n / 16), hexDigit (n % 16)] =
    some ⟨.unit n :: pieces, .closed⟩ := by
  have hhigh := hexValue?_hexDigit (n / 16) (by omega)
  have hlow := hexValue?_hexDigit (n % 16) (by omega)
  have hzero : hexValue? '0' = some 0 := by decide
  have hsum : n / 16 * 16 + n % 16 = n := by omega
  simp [OpenText.reads, OpenText.step, hhigh, hlow, hzero, hsum]

/-- What is written for a character reads as its piece. -/
theorem reads_escapeChar (pieces : List Piece) (c : Char) :
    (⟨pieces, .closed⟩ : OpenText).reads (escapeChar c) =
      some ⟨pieceOf c :: pieces, .closed⟩ := by
  have hnamed : ∀ n, c.toNat = n → c = Char.ofNat n := by
    intro n hn
    rw [← hn, Char.ofNat_toNat]
  unfold escapeChar
  split
  · rename_i h
    rw [h]
    rfl
  split
  · rename_i h
    rw [h]
    rfl
  split
  · rename_i h
    rw [hnamed 8 h]
    rfl
  split
  · rename_i h
    rw [hnamed 9 h]
    rfl
  split
  · rename_i h
    rw [hnamed 10 h]
    rfl
  split
  · rename_i h
    rw [hnamed 12 h]
    rfl
  split
  · rename_i h
    rw [hnamed 13 h]
    rfl
  split
  · rename_i _ _ h8 h9 h10 h12 h13 hcontrol
    have hrest : c.toNat ∉ [8, 9, 10, 12, 13] := by
      simp only [List.mem_cons, List.not_mem_nil, or_false, not_or]
      exact ⟨h8, h9, h10, h12, h13⟩
    rw [reads_unit pieces hcontrol, pieceOf, if_pos ⟨hcontrol, hrest⟩]
  · rename_i hquote hbackslash _ _ _ _ _ hcontrol
    have hpiece : pieceOf c = .char c := if_neg fun h => hcontrol h.1
    simp [OpenText.reads, OpenText.step, hquote, hbackslash, hcontrol, hpiece]

/-- What is written for several characters reads as their pieces. -/
theorem reads_escaped (pieces : List Piece) (cs : List Char) :
    (⟨pieces, .closed⟩ : OpenText).reads (cs.flatMap escapeChar) =
      some ⟨(cs.map pieceOf).reverse ++ pieces, .closed⟩ := by
  induction cs generalizing pieces with
  | nil => rfl
  | cons c cs ih =>
    rw [List.flatMap_cons, reads_append, reads_escapeChar, Option.bind_some, ih]
    simp

/-- A unit below the surrogates spells a character of its own. -/
theorem charsOf?_unit {code : Nat} (h : code < 0xD800) (rest : List Piece) :
    charsOf? (.unit code :: rest) = (charsOf? rest).map (Char.ofNat code :: ·) := by
  have hhigh : ¬ 0xD800 ≤ code := by omega
  have hlow : ¬ 0xDC00 ≤ code := by omega
  cases rest with
  | nil => simp [charsOf?, hhigh]
  | cons piece rest =>
    cases piece with
    | unit low => rw [charsOf?, if_neg fun h => hhigh h.1, if_neg fun h => hlow h.1]
    | char | stray => simp [charsOf?, hhigh]

/-- The pieces of characters spell them: none of the escaped ones is half a pair. -/
theorem charsOf?_pieces (cs : List Char) : charsOf? (cs.map pieceOf) = some cs := by
  induction cs with
  | nil => rfl
  | cons c cs ih =>
    rw [List.map_cons]
    by_cases hunit : c.toNat < 0x20 ∧ c.toNat ∉ [8, 9, 10, 12, 13]
    · rw [pieceOf, if_pos hunit, charsOf?_unit (by omega), ih, Char.ofNat_toNat]
      rfl
    · rw [pieceOf, if_neg hunit, charsOf?, ih]
      rfl

/-- The body of a written text reads as the text. -/
theorem exists_reads_quoteText (t : JsonText) :
    ∃ body pieces, quoteText t = '"' :: (body ++ ['"']) ∧
      (⟨[], .closed⟩ : OpenText).reads body = some ⟨pieces, .closed⟩ ∧
      textOf pieces.reverse = t := by
  cases t with
  | none => exact ⟨['\\', 'u', 'd', '8', '0', '0'], [.unit 0xD800], rfl, rfl, rfl⟩
  | some s =>
    refine ⟨s.toList.flatMap escapeChar, _, rfl, reads_escaped [] s.toList, ?_⟩
    rw [List.append_nil, List.reverse_reverse, textOf, charsOf?_pieces]
    simp

/-- Within a string value, the reader goes on as the open string does. -/
theorem run_inText {t t' : OpenText} {cs : List Char} {stack : List Frame}
    (h : t.reads cs = some t') : run ⟨.inText t, stack⟩ cs = some ⟨.inText t', stack⟩ := by
  induction cs generalizing t with
  | nil =>
    cases h
    rfl
  | cons c cs ih =>
    rw [OpenText.reads] at h
    split at h
    · rename_i next hstep
      rw [run_cons]
      simp only [State.step, hstep, Option.bind_some]
      exact ih h
    · cases h

/-- Within a key, the reader goes on as the open string does. -/
theorem run_inKey {t t' : OpenText} {cs : List Char} {done : List (JsonText × Json)}
    {stack : List Frame} (h : t.reads cs = some t') :
    run ⟨.inKey done t, stack⟩ cs = some ⟨.inKey done t', stack⟩ := by
  induction cs generalizing t with
  | nil =>
    cases h
    rfl
  | cons c cs ih =>
    rw [OpenText.reads] at h
    split at h
    · rename_i next hstep
      rw [run_cons]
      simp only [State.step, hstep, Option.bind_some]
      exact ih h
    · cases h

/-- A written text is read as a value. -/
theorem run_value_quoteText (t : JsonText) (stack : List Frame) :
    run ⟨.value, stack⟩ (quoteText t) = some ⟨.after (.text t), stack⟩ := by
  obtain ⟨body, pieces, hquote, hreads, htext⟩ := exists_reads_quoteText t
  have hstart : State.step ⟨.value, stack⟩ (some '"') = some ⟨.inText ⟨[], .closed⟩, stack⟩ := rfl
  have hend : State.step ⟨.inText ⟨pieces, .closed⟩, stack⟩ (some '"') =
      some ⟨.after (.text (textOf pieces.reverse)), stack⟩ := rfl
  rw [hquote, run_cons, hstart, Option.bind_some, run_append, run_inText hreads]
  rw [Option.bind_some, run_cons, hend, htext]
  rfl

/-- A written text is read as a key. -/
theorem run_key_quoteText (t : JsonText) (done : List (JsonText × Json)) (stack : List Frame) :
    run ⟨.key done, stack⟩ (quoteText t) = some ⟨.colon done t, stack⟩ := by
  obtain ⟨body, pieces, hquote, hreads, htext⟩ := exists_reads_quoteText t
  have hstart : State.step ⟨.key done, stack⟩ (some '"') =
      some ⟨.inKey done ⟨[], .closed⟩, stack⟩ := rfl
  have hend : State.step ⟨.inKey done ⟨pieces, .closed⟩, stack⟩ (some '"') =
      some ⟨.colon done (textOf pieces.reverse), stack⟩ := rfl
  rw [hquote, run_cons, hstart, Option.bind_some, run_append, run_inKey hreads]
  rw [Option.bind_some, run_cons, hend, htext]
  rfl

/-! ## Values -/

/-- The reader has come to the end of a value: what may stand behind a value does to it
what it would do after the value. -/
structure Ended (s : State) (j : Json) (stack : List Frame) : Prop where
  result? : s.result? = State.result? ⟨.after j, stack⟩
  step : ∀ c ∈ [',', ']', '\x7d'], s.step (some c) = followValue stack j c

/-- A reader that stands behind a value has ended it. -/
theorem ended_after (j : Json) (stack : List Frame) : Ended ⟨.after j, stack⟩ j stack :=
  ⟨rfl, fun _ _ => rfl⟩

/-- The first digit of a number is no zero, unless the number is zero. -/
theorem exists_decimalDigits_cons {n : Nat} (hn : 0 < n) :
    ∃ c cs, Text.decimalDigits n = c :: cs ∧ c ≠ '0' := by
  induction n using Nat.strongRecOn with
  | ind n ih =>
    by_cases hlt : n < 10
    · have hdigit : ∀ m < 10, 0 < m → Nat.digitChar m ≠ '0' := by decide
      exact ⟨_, [], Nat.toDigits_of_lt_base hlt, hdigit n hlt hn⟩
    · obtain ⟨c, cs, hcs, hc⟩ := ih (n / 10) (by omega) (by omega)
      refine ⟨c, cs ++ [Nat.digitChar (n % 10)], ?_, hc⟩
      have hstep := Nat.toDigits_of_base_le (b := 10) (by omega) (Nat.le_of_not_lt hlt)
      rw [Text.decimalDigits, hstep]
      rw [Text.decimalDigits] at hcs
      rw [hcs]
      rfl

/-- Digits continue the whole part of a number. -/
theorem run_whole (spelling : List Char) {cs : List Char} (h : ∀ c ∈ cs, c.isDigit = true)
    (stack : List Frame) :
    run ⟨.inNumber ⟨.whole, spelling⟩, stack⟩ cs =
      some ⟨.inNumber ⟨.whole, cs.reverse ++ spelling⟩, stack⟩ := by
  induction cs generalizing spelling with
  | nil => rfl
  | cons c cs ih =>
    have hc := h c List.mem_cons_self
    rw [run_cons]
    simp only [State.step, OpenNumber.next?, NumberPlace.next?, hc, if_true, Option.map_some,
      Option.bind_some]
    rw [ih _ fun d hd => h d (List.mem_cons_of_mem _ hd)]
    simp

/-- No number is continued by what follows a value. -/
theorem next?_eq_none (place : NumberPlace) {c : Char} (hc : c ∈ [',', ']', '\x7d']) :
    place.next? c = none := by
  simp only [List.mem_cons, List.not_mem_nil, or_false] at hc
  cases place <;> rcases hc with rfl | rfl | rfl <;> rfl

/-- A number that may end has ended when something else follows. -/
theorem ended_inNumber {n : OpenNumber} (hend : n.place.mayEnd = true) (stack : List Frame) :
    Ended ⟨.inNumber n, stack⟩ n.value stack := by
  constructor
  · cases stack with
    | nil => simp [State.result?, hend]
    | cons => rfl
  · intro c hc
    simp [State.step, OpenNumber.next?, next?_eq_none n.place hc, hend]

/-- A digit is not a character that is no digit. -/
theorem ne_of_isDigit {c d : Char} (hc : c.isDigit = true) (hd : d.isDigit = false) : c ≠ d := by
  rintro rfl
  rw [hc] at hd
  cases hd

/-- A digit is not a space. -/
theorem isSpace_of_isDigit {c : Char} (hc : c.isDigit = true) : isSpace c = false := by
  simp [isSpace, ne_of_isDigit hc]

/-- A digit other than zero starts a number. -/
theorem step_value_digit {c : Char} (hc : c.isDigit = true) (hzero : c ≠ '0')
    (stack : List Frame) :
    State.step ⟨.value, stack⟩ (some c) = some ⟨.inNumber ⟨.whole, [c]⟩, stack⟩ := by
  have hquote := ne_of_isDigit hc (d := '"') rfl
  have hbracket := ne_of_isDigit hc (d := '[') rfl
  have hbrace := ne_of_isDigit hc (d := '\x7b') rfl
  have hnull := ne_of_isDigit hc (d := 'n') rfl
  have htrue := ne_of_isDigit hc (d := 't') rfl
  have hfalse := ne_of_isDigit hc (d := 'f') rfl
  have hsign := ne_of_isDigit hc (d := '-') rfl
  simp [State.step, isSpace_of_isDigit hc, startValue, hquote, hbracket, hbrace, hnull, htrue,
    hfalse, hsign, hzero, hc]

/-- A written number is read. -/
theorem run_decimalDigits (n : Nat) (stack : List Frame) :
    ∃ s, run ⟨.value, stack⟩ (Text.decimalDigits n) = some s ∧ Ended s (.nat n) stack := by
  rcases Nat.eq_zero_or_pos n with rfl | hn
  · exact ⟨⟨.inNumber ⟨.zero, ['0']⟩, stack⟩, by rw [Text.decimalDigits, Nat.toDigits_zero]; rfl,
      ended_inNumber rfl stack⟩
  · obtain ⟨c, cs, hdigits, hzero⟩ := exists_decimalDigits_cons hn
    have hall : ∀ d ∈ c :: cs, d.isDigit = true := by
      intro d hd
      rw [← hdigits] at hd
      exact Nat.isDigit_of_mem_toDigits (by decide) (by decide) hd
    have hrun := run_whole [c] (fun d hd => hall d (List.mem_cons_of_mem _ hd)) stack
    have hvalue : OpenNumber.value ⟨.whole, cs.reverse ++ [c]⟩ = .nat n := by
      have hdigit : (cs.reverse ++ [c]).all Char.isDigit = true := by
        rw [List.all_eq_true]
        intro d hd
        exact hall d (by simpa [or_comm] using hd)
      have hreverse : (cs.reverse ++ [c]).reverse = Text.decimalDigits n := by
        rw [hdigits]
        simp
      simp only [OpenNumber.value, hdigit, if_true, hreverse, Text.ofDecimalDigits_decimalDigits]
    refine ⟨⟨.inNumber ⟨.whole, cs.reverse ++ [c]⟩, stack⟩, ?_, ?_⟩
    · rw [hdigits, run_cons, step_value_digit (hall c List.mem_cons_self) hzero]
      exact hrun
    · rw [← hvalue]
      exact ended_inNumber rfl stack

/-! ## Arrays and objects -/

/-- A value starts with a character that is no blank and closes no array. -/
theorem exists_compact_cons {j : Json} (hj : j.Plain) :
    ∃ c cs, compact j = c :: cs ∧ isSpace c = false ∧ c ≠ ']' := by
  cases j with
  | null => exact ⟨'n', _, by rw [compact], by decide, by decide⟩
  | bool b => cases b <;> exact ⟨_, _, by rw [compact], by decide, by decide⟩
  | nat n =>
    rw [compact]
    cases hdigits : Text.decimalDigits n with
    | nil => exact absurd hdigits Nat.toDigits_ne_nil
    | cons c cs =>
      have hc : c.isDigit = true := by
        refine Nat.isDigit_of_mem_toDigits (by decide) (by decide) (?_ : c ∈ Nat.toDigits 10 n)
        rw [Text.decimalDigits] at hdigits
        rw [hdigits]
        exact List.mem_cons_self
      exact ⟨c, cs, rfl, isSpace_of_isDigit hc, ne_of_isDigit hc rfl⟩
  | number => exact absurd hj id
  | text t =>
    obtain ⟨body, _, hquote, -, -⟩ := exists_reads_quoteText t
    rw [compact, hquote]
    exact ⟨_, _, rfl, by decide, by decide⟩
  | array items =>
    rw [compact]
    exact ⟨_, _, rfl, by decide, by decide⟩
  | object fields =>
    rw [compact]
    exact ⟨_, _, rfl, by decide, by decide⟩

/-- Items are printed with a comma between the first and the others. -/
theorem compactItems_cons_cons (item next : Json) (items : List Json) :
    compactItems (item :: next :: items) =
      compact item ++ ',' :: compactItems (next :: items) := by
  rw [compactItems]
  simp

/-- Fields are printed with a comma between the first and the others. -/
theorem compactFields_cons_cons (key : JsonText) (value : Json) (next : JsonText × Json)
    (fields : List (JsonText × Json)) :
    compactFields ((key, value) :: next :: fields) =
      quoteText key ++ (':' :: (compact value ++ ',' :: compactFields (next :: fields))) := by
  rw [compactFields]
  · simp
  · simp

/-- The items of an array start like any values. -/
theorem run_firstItem {items : List Json} (hne : items ≠ []) (hitems : PlainItems items)
    (stack : List Frame) :
    run ⟨.firstItem, stack⟩ (compactItems items) =
      run ⟨.value, .item [] :: stack⟩ (compactItems items) := by
  have hhead : ∃ c cs, compactItems items = c :: cs ∧ isSpace c = false ∧ c ≠ ']' := by
    cases items with
    | nil => exact absurd rfl hne
    | cons item items =>
      obtain ⟨c, cs, hcs, hc⟩ := exists_compact_cons hitems.1
      cases items with
      | nil => exact ⟨c, cs, by rw [compactItems, hcs], hc⟩
      | cons => exact ⟨c, _, by rw [compactItems_cons_cons, hcs]; rfl, hc⟩
  obtain ⟨c, cs, hcs, hspace, hclose⟩ := hhead
  rw [hcs, run_cons, run_cons]
  simp [State.step, hspace, hclose]

/-- The first key of an object starts like any other. -/
theorem run_firstKey {fields : List (JsonText × Json)} (hne : fields ≠ []) (stack : List Frame) :
    run ⟨.firstKey, stack⟩ (compactFields fields) =
      run ⟨.key [], stack⟩ (compactFields fields) := by
  have hhead : ∃ cs, compactFields fields = '"' :: cs := by
    cases fields with
    | nil => exact absurd rfl hne
    | cons field fields =>
      obtain ⟨body, _, hquote, -, -⟩ := exists_reads_quoteText field.1
      cases fields with
      | nil => exact ⟨_, by rw [compactFields, hquote]; rfl⟩
      | cons => exact ⟨_, by rw [compactFields_cons_cons, hquote]; rfl⟩
  obtain ⟨cs, hcs⟩ := hhead
  rw [hcs, run_cons, run_cons]
  rfl

mutual

/-- A written value is read. -/
theorem run_compact : ∀ (j : Json), j.Plain → ∀ stack : List Frame,
    ∃ s, run ⟨.value, stack⟩ (compact j) = some s ∧ Ended s j stack
  | .null, _, stack => ⟨_, rfl, ended_after .null stack⟩
  | .bool true, _, stack => ⟨_, rfl, ended_after (.bool true) stack⟩
  | .bool false, _, stack => ⟨_, rfl, ended_after (.bool false) stack⟩
  | .nat n, _, stack => by
    rw [compact]
    exact run_decimalDigits n stack
  | .number _, hj, _ => absurd hj id
  | .text t, _, stack => by
    rw [compact]
    exact ⟨_, run_value_quoteText t stack, ended_after (.text t) stack⟩
  | .array items, hj, stack => by
    have hopen : State.step ⟨.value, stack⟩ (some '[') = some ⟨.firstItem, stack⟩ := rfl
    rw [compact, List.cons_append, run_cons, hopen, Option.bind_some]
    by_cases hne : items = []
    · subst hne
      exact ⟨_, rfl, ended_after (.array []) stack⟩
    · obtain ⟨s, hrun, hclose⟩ := run_compactItems items hne hj [] stack
      rw [run_append, run_firstItem hne hj, hrun, Option.bind_some, run_cons, hclose]
      exact ⟨_, rfl, ended_after (.array items) stack⟩
  | .object fields, hj, stack => by
    have hopen : State.step ⟨.value, stack⟩ (some '\x7b') = some ⟨.firstKey, stack⟩ := rfl
    rw [compact, List.cons_append, run_cons, hopen, Option.bind_some]
    by_cases hne : fields = []
    · subst hne
      exact ⟨_, rfl, ended_after (.object []) stack⟩
    · obtain ⟨s, hrun, hclose⟩ := run_compactFields fields hne hj [] stack
      rw [run_append, run_firstKey hne, hrun, Option.bind_some, run_cons, hclose]
      exact ⟨_, rfl, ended_after (.object fields) stack⟩

/-- Written items are read, up to the bracket behind them. -/
theorem run_compactItems : ∀ (items : List Json), items ≠ [] → PlainItems items →
    ∀ (done : List Json) (stack : List Frame),
    ∃ s, run ⟨.value, .item done :: stack⟩ (compactItems items) = some s ∧
      s.step (some ']') = some ⟨.after (.array (done.reverse ++ items)), stack⟩
  | [], hne, _, _, _ => absurd rfl hne
  | [item], _, hitems, done, stack => by
    obtain ⟨s, hrun, hend⟩ := run_compact item hitems.1 (.item done :: stack)
    refine ⟨s, by rw [compactItems, hrun], ?_⟩
    rw [hend.step ']' (by simp)]
    simp [followValue, isSpace]
  | item :: next :: items, _, hitems, done, stack => by
    obtain ⟨s, hrun, hend⟩ := run_compact item hitems.1 (.item done :: stack)
    have hcomma : s.step (some ',') = some ⟨.value, .item (item :: done) :: stack⟩ := by
      rw [hend.step ',' (by simp)]
      rfl
    obtain ⟨s', hrun', hclose⟩ :=
      run_compactItems (next :: items) (by simp) hitems.2 (item :: done) stack
    refine ⟨s', ?_, by simpa using hclose⟩
    rw [compactItems_cons_cons, run_append, hrun, Option.bind_some, run_cons, hcomma,
      Option.bind_some, hrun']

/-- Written fields are read, up to the brace behind them. -/
theorem run_compactFields : ∀ (fields : List (JsonText × Json)), fields ≠ [] →
    PlainFields fields → ∀ (done : List (JsonText × Json)) (stack : List Frame),
    ∃ s, run ⟨.key done, stack⟩ (compactFields fields) = some s ∧
      s.step (some '\x7d') = some ⟨.after (.object (done.reverse ++ fields)), stack⟩
  | [], hne, _, _, _ => absurd rfl hne
  | [(key, value)], _, hfields, done, stack => by
    obtain ⟨s, hrun, hend⟩ := run_compact value hfields.1 (.field done key :: stack)
    have hcolon : State.step ⟨.colon done key, stack⟩ (some ':') =
        some ⟨.value, .field done key :: stack⟩ := rfl
    refine ⟨s, ?_, ?_⟩
    · rw [compactFields, run_append, run_key_quoteText, Option.bind_some, run_cons, hcolon,
        Option.bind_some, hrun]
    · rw [hend.step '\x7d' (by simp)]
      simp [followValue, isSpace]
  | (key, value) :: next :: fields, _, hfields, done, stack => by
    obtain ⟨s, hrun, hend⟩ := run_compact value hfields.1 (.field done key :: stack)
    have hcolon : State.step ⟨.colon done key, stack⟩ (some ':') =
        some ⟨.value, .field done key :: stack⟩ := rfl
    have hcomma : s.step (some ',') = some ⟨.key ((key, value) :: done), stack⟩ := by
      rw [hend.step ',' (by simp)]
      rfl
    obtain ⟨s', hrun', hclose⟩ :=
      run_compactFields (next :: fields) (by simp) hfields.2 ((key, value) :: done) stack
    refine ⟨s', ?_, by simpa using hclose⟩
    rw [compactFields_cons_cons, run_append, run_key_quoteText, Option.bind_some, run_cons,
      hcolon, Option.bind_some, run_append, hrun, Option.bind_some, run_cons, hcomma,
      Option.bind_some, hrun']

end

end Reader

/-- A value that is written without blanks reads as itself. -/
theorem ofText?_compact {j : Json} (hj : j.Plain) : ofText? (compact j) = some j := by
  obtain ⟨s, hrun, hend⟩ := Reader.run_compact j hj []
  show (Reader.run Reader.State.initial (compact j)).bind _ = some j
  rw [Reader.State.initial, hrun, Option.bind_some, hend.result?]
  rfl

/-- What is printed of a plain value is read back as that value. -/
theorem ofBytes?_compact {j : Json} (hj : j.Plain) :
    ofBytes? (Utf8.encode (compact j)) = some j := by
  rw [ofBytes?, Utf8.decode_encode]
  exact ofText?_compact hj

end Recompile.Json
