import Mathlib.Data.List.Infix
import Recompile.Proofs.Directive.Composition

/-!
# Comments

What stands in a comment has no influence on the scan: a block comment is left with the
number of its line feeds (`Cursor.run_blockComment`), a line comment with nothing
(`Cursor.run_lineComment`). So two texts that differ in a comment only have the same
directives on the same lines (`Directives.ofText_comment_congr`), as long as neither comment
ends earlier and both have the same number of line feeds.
-/

set_option autoImplicit false

namespace Recompile

namespace LogicalLine

namespace Cursor

variable {s : Cursor} {d : Draft} {pending : Pending} {c : Char} {body rest : List Char}

/-! ## Into a comment -/

/-- In code a slash settles what is pending, unless that is a slash. -/
theorem run_slash (hmode : s.mode = .code) (hpending : s.pending ≠ .slash) :
    s.run ('/' :: rest) = run ⟨.code, .slash, s.settled⟩ rest := by
  obtain ⟨mode, pending, d⟩ := s
  obtain rfl : mode = .code := hmode
  cases pending with
  | slash => exact absurd rfl hpending
  | nothing | star | backslash | backslashReturn => rfl

/-! ## Block comments -/

/-- Reading a character in a block comment leads to a place in the same comment, and the line
gets nothing of it. -/
theorem read_blockComment (d : Draft) (c : Char) :
    ∃ pending, read .blockComment d c =
        ([], ⟨.blockComment, pending, { d with current := d.current + [c].count '\n' }⟩) ∧
      (pending = .star → c = '*') := by
  by_cases hbackslash : c = '\\'
  · exact ⟨.backslash, by simp [hbackslash, read], fun h => by cases h⟩
  by_cases hbreak : c = '\n'
  · exact ⟨.nothing, by simp [hbreak, read, Draft.goOn], fun h => by cases h⟩
  · rw [read_plain hbackslash hbreak]
    refine ⟨if c = '*' then .star else .nothing, by simp [plain, hbreak], fun h => ?_⟩
    by_contra hstar
    rw [if_neg hstar] at h
    cases h

/-- So does a character that completes what is pending there, unless that is the end of the
comment. -/
theorem completed?_blockComment {s' : Cursor} (hc : pending = .star → c ≠ '/')
    (h : (⟨.blockComment, pending, d⟩ : Cursor).completed? c = some s') :
    ∃ pending', s' =
        ⟨.blockComment, pending', { d with current := d.current + [c].count '\n' }⟩ ∧
      pending' ≠ .star := by
  cases pending with
  | nothing | slash => cases h
  | star => simp [completed?, hc rfl] at h
  | backslash =>
    simp only [completed?] at h
    split_ifs at h with hbreak hreturn
    · cases h
      exact ⟨.nothing, by simp [hbreak, Draft.goOn], by simp⟩
    · cases h
      exact ⟨.backslashReturn, by simp [hreturn], by simp⟩
  | backslashReturn =>
    simp only [completed?] at h
    split_ifs at h with hbreak
    cases h
    exact ⟨.nothing, by simp [hbreak, Draft.goOn], by simp⟩

/-- Within a block comment a character that does not close it changes the line number at most. -/
theorem step_blockComment (pending : Pending) (d : Draft) (hc : pending = .star → c ≠ '/') :
    ∃ pending', (⟨.blockComment, pending, d⟩ : Cursor).step c =
        ([], ⟨.blockComment, pending', { d with current := d.current + [c].count '\n' }⟩) ∧
      (pending' = .star → c = '*') := by
  cases hcompleted : (⟨.blockComment, pending, d⟩ : Cursor).completed? c with
  | some s' =>
    obtain ⟨pending', rfl, hstar⟩ := completed?_blockComment hc hcompleted
    exact ⟨pending', step_of_completed? hcompleted, fun h => absurd h hstar⟩
  | none =>
    rw [step_of_completed?_eq_none hcompleted, settled_blockComment]
    exact read_blockComment d c

/-- Nothing in a block comment closes it if no star is followed by a slash. The induction is
on the text; a star before it must not be followed by a slash either. -/
theorem exists_run_blockComment (pending : Pending) (d : Draft) (rest : List Char)
    (hstar : pending = .star → body.head? ≠ some '/') (hbody : ¬ ['*', '/'] <:+: body) :
    ∃ pending', run ⟨.blockComment, pending, d⟩ (body ++ rest) =
      run ⟨.blockComment, pending', { d with current := d.current + body.count '\n' }⟩ rest := by
  induction body generalizing pending d with
  | nil => exact ⟨pending, rfl⟩
  | cons c body ih =>
    obtain ⟨next, hstep, hnext⟩ := step_blockComment pending d
      fun (h : pending = .star) (hc : c = '/') => hstar h (by rw [hc]; rfl)
    have hclosed : next = .star → body.head? ≠ some '/' := by
      intro h hhead
      obtain ⟨body, rfl⟩ := List.head?_eq_some_iff.mp hhead
      rw [hnext h] at hbody
      exact hbody (List.prefix_append ['*', '/'] body).isInfix
    obtain ⟨pending', hrun⟩ :=
      ih next _ hclosed (fun h => hbody (h.trans (List.suffix_cons c body).isInfix))
    refine ⟨pending', ?_⟩
    have hcount : (c :: body).count '\n' = [c].count '\n' + body.count '\n' := by
      rw [← List.count_append, List.singleton_append]
    rw [List.cons_append, run_cons, hstep, List.nil_append, hrun, hcount, Nat.add_assoc]

/-- A block comment that is closed goes on as code with the same line. -/
theorem run_close (pending : Pending) (d : Draft) (rest : List Char) :
    run ⟨.blockComment, pending, d⟩ ('*' :: '/' :: rest) = run ⟨.code, .nothing, d⟩ rest := by
  cases pending <;> rfl

/-- Of a block comment nothing is left but the number of its line feeds. -/
theorem run_blockComment (hbody : ¬ ['*', '/'] <:+: body) :
    run ⟨.blockComment, .nothing, d⟩ (body ++ '*' :: '/' :: rest) =
      run ⟨.code, .nothing, { d with current := d.current + body.count '\n' }⟩ rest := by
  obtain ⟨pending, hrun⟩ := exists_run_blockComment .nothing d ('*' :: '/' :: rest)
    (fun h => by cases h) hbody
  rw [hrun, run_close]

/-! ## Line comments -/

/-- A character in a line comment that is no line feed is passed over. -/
theorem step_lineComment (pending : Pending) (d : Draft) (hc : c ≠ '\n') :
    ∃ pending', (⟨.lineComment, pending, d⟩ : Cursor).step c =
      ([], ⟨.lineComment, pending', d⟩) := by
  have hread : ∃ pending', read .lineComment d c = ([], ⟨.lineComment, pending', d⟩) := by
    by_cases hbackslash : c = '\\'
    · exact ⟨.backslash, by rw [hbackslash, read_backslash]⟩
    · exact ⟨.nothing, read_plain hbackslash hc⟩
  by_cases hreturn : pending = .backslash ∧ c = '\r'
  · obtain ⟨rfl, rfl⟩ := hreturn
    exact ⟨.backslashReturn, rfl⟩
  · have hcompleted : (⟨.lineComment, pending, d⟩ : Cursor).completed? c = none := by
      cases pending <;> simp_all [completed?]
    rw [step_of_completed?_eq_none hcompleted, settled_lineComment]
    exact hread

/-- Within a line comment no character but a line feed does anything. -/
theorem after_lineComment (pending : Pending) (d : Draft) (hfeed : '\n' ∉ body) :
    (⟨.lineComment, pending, d⟩ : Cursor).emitted body = [] ∧
      ∃ pending', (⟨.lineComment, pending, d⟩ : Cursor).after body =
        ⟨.lineComment, pending', d⟩ := by
  induction body generalizing pending with
  | nil => exact ⟨rfl, pending, rfl⟩
  | cons c body ih =>
    rw [List.mem_cons, not_or] at hfeed
    obtain ⟨hc, hbody⟩ := hfeed
    obtain ⟨next, hstep⟩ := step_lineComment pending d (Ne.symm hc)
    obtain ⟨hemitted, pending', hafter⟩ := ih next hbody
    constructor
    · rw [emitted, hstep, hemitted]
      rfl
    · refine ⟨pending', ?_⟩
      show ((Cursor.step _ c).2.after body) = _
      rw [hstep, hafter]

end Cursor

/-- A text that may stand after the marker of a line comment: it does not leave the line,
and it does not continue it. -/
structure KeepsToLine (body : List Char) : Prop where
  feed : '\n' ∉ body
  backslash : ¬ ['\\'] <:+ body
  backslashReturn : ¬ ['\\', '\r'] <:+ body

/-- A line comment ends with its line, and nothing is left of it. -/
theorem KeepsToLine.run_lineComment {body : List Char} (h : KeepsToLine body) (d : Draft)
    (rest : List Char) :
    Cursor.run ⟨.lineComment, .nothing, d⟩ (body ++ '\n' :: rest) =
      d.line :: Cursor.run ⟨.code, .nothing, .fresh (d.current + 1)⟩ rest := by
  obtain ⟨hemitted, pending, hafter⟩ := Cursor.after_lineComment .nothing d h.feed
  have hpending : pending.continuesLine = false := by
    have hsuffix := Cursor.pending_after ⟨.lineComment, .nothing, d⟩ body
    rw [hafter] at hsuffix
    cases pending with
    | backslash => exact absurd hsuffix h.backslash
    | backslashReturn => exact absurd hsuffix h.backslashReturn
    | nothing | slash | star => rfl
  rw [Cursor.run_append, hemitted, hafter, List.nil_append, Cursor.run_cons,
    Cursor.step_feed hpending (by simp), Cursor.settled_lineComment]
  rfl

/-- A text ends in plain code: outside comments and literals, and not with a slash. -/
structure EndsInCode (text : List Char) : Prop where
  code : (Cursor.start.after text).mode = .code
  slash : text.getLast? ≠ some '/'

/-- Where a text ends in code, its last character is not a slash that may open a comment. -/
theorem EndsInCode.pending {text : List Char} (h : EndsInCode text) :
    (Cursor.start.after text).pending ≠ .slash := by
  intro hpending
  have hsuffix := Cursor.start.pending_after text
  rw [hpending] at hsuffix
  obtain ⟨before, rfl⟩ : ['/'] <:+ text := hsuffix
  exact h.slash List.getLast?_concat

/-- After a text that ends in plain code two slashes begin a line comment. -/
theorem EndsInCode.ofText_lineComment {text : List Char} (h : EndsInCode text)
    (rest : List Char) :
    ofText (text ++ '/' :: '/' :: rest) = Cursor.start.emitted text ++
      Cursor.run ⟨.lineComment, .nothing, (Cursor.start.after text).settled⟩ rest := by
  rw [ofText_eq_run, Cursor.run_append, Cursor.run_slash h.code h.pending]
  rfl

/-- After a text that ends in plain code a slash and a star begin a block comment. -/
theorem EndsInCode.ofText_blockComment {text : List Char} (h : EndsInCode text)
    (rest : List Char) :
    ofText (text ++ '/' :: '*' :: rest) = Cursor.start.emitted text ++
      Cursor.run ⟨.blockComment, .nothing, (Cursor.start.after text).settled.push ' '⟩ rest := by
  rw [ofText_eq_run, Cursor.run_append, Cursor.run_slash h.code h.pending]
  rfl

end LogicalLine

namespace Directives

open LogicalLine

/-- A comment after plain code can be replaced by any other one that ends where it should: a
block comment by one with as many line feeds, a line comment by one on the same line. The
directives and the numbers of their lines are the same. -/
theorem ofText_comment_congr (imports : Bool) (p q b₁ b₂ : List Char) (h : EndsInCode p) :
    (¬ ['*', '/'] <:+: b₁ → ¬ ['*', '/'] <:+: b₂ → b₁.count '\n' = b₂.count '\n' →
      ofText imports (p ++ '/' :: '*' :: (b₁ ++ '*' :: '/' :: q)) =
        ofText imports (p ++ '/' :: '*' :: (b₂ ++ '*' :: '/' :: q))) ∧
      (KeepsToLine b₁ → KeepsToLine b₂ →
        ofText imports (p ++ '/' :: '/' :: (b₁ ++ '\n' :: q)) =
          ofText imports (p ++ '/' :: '/' :: (b₂ ++ '\n' :: q))) := by
  constructor
  · intro hb₁ hb₂ hcount
    unfold ofText
    rw [h.ofText_blockComment, h.ofText_blockComment, Cursor.run_blockComment hb₁,
      Cursor.run_blockComment hb₂, hcount]
  · intro hb₁ hb₂
    unfold ofText
    rw [h.ofText_lineComment, h.ofText_lineComment, hb₁.run_lineComment, hb₂.run_lineComment]

/-- The text before the comments ends with a backslash after a comment marker in quotes; the
bodies hold quotes, directives, continuations and the beginnings of comments. -/
theorem ofText_comment_congr_quotes :
    let p := "c = '/*'; \\".toList
    let q := "\n#include \"a.h\"".toList
    let block := "/ '\n#include \"b.h\"\n*\\\n/ \\".toList
    let line := "/* ' \\ #include".toList
    EndsInCode p ∧
      (¬ ['*', '/'] <:+: block ∧ ¬ ['*', '/'] <:+: ['\n', '\n', '\n'] ∧
        block.count '\n' = ['\n', '\n', '\n'].count '\n' ∧
        ofText false (p ++ '/' :: '*' :: (block ++ '*' :: '/' :: q)) =
          ofText false (p ++ '/' :: '*' :: (['\n', '\n', '\n'] ++ '*' :: '/' :: q))) ∧
      KeepsToLine line ∧ KeepsToLine [] ∧
        ofText false (p ++ '/' :: '/' :: (line ++ '\n' :: q)) =
          ofText false (p ++ '/' :: '/' :: ([] ++ '\n' :: q)) := by
  intro p q block line
  have hp : EndsInCode p := ⟨by decide, by decide⟩
  have hblock : ¬ ['*', '/'] <:+: block := by decide
  have hbreaks : ¬ ['*', '/'] <:+: ['\n', '\n', '\n'] := by decide
  have hline : KeepsToLine line := ⟨by decide, by decide, by decide⟩
  have hempty : KeepsToLine [] := ⟨by decide, by decide, by decide⟩
  refine ⟨hp, ⟨hblock, hbreaks, rfl, ?_⟩, hline, hempty, ?_⟩
  · exact (ofText_comment_congr false p q _ _ hp).1 hblock hbreaks rfl
  · exact (ofText_comment_congr false p q _ _ hp).2 hline hempty

end Directives

end Recompile
