/-!
# Logical lines

A text is split into logical lines before its directives are looked for. A backslash at
the end of a line joins it to the next one, a comment counts as one blank or as nothing,
and what stands in quotes is kept as it is, so a comment marker in there is none. Each
logical line remembers the line of the text on which it starts. Quotes that are not
closed end with their line, block comments do not.
-/

set_option autoImplicit false

namespace Recompile

/-- A line of a text, free of comments and continuations. -/
structure LogicalLine where
  /-- The number of the line of the text on which it starts, counted from one. -/
  start : Nat
  chars : List Char
  deriving DecidableEq, Repr, Inhabited

namespace LogicalLine

/-- What kind of text a place is in. -/
inductive Mode where
  | code
  /-- Between quotes of the given kind. -/
  | literal (quote : Char)
  | blockComment
  | lineComment
  deriving DecidableEq, Repr

/-- A logical line that is not complete yet. -/
structure Draft where
  start : Nat
  /-- The number of the line of the text that has been reached. -/
  current : Nat
  /-- The characters so far, the last first. -/
  reversed : List Char
  deriving DecidableEq, Repr

namespace Draft

/-- The draft of the line that starts on a line of the text. -/
def fresh (line : Nat) : Draft :=
  ⟨line, line, []⟩

/-- The draft with one more character. -/
def push (d : Draft) (c : Char) : Draft :=
  { d with reversed := c :: d.reversed }

/-- The draft after the end of a line of the text that does not end it. -/
def goOn (d : Draft) : Draft :=
  { d with current := d.current + 1 }

/-- The complete line. -/
def line (d : Draft) : LogicalLine :=
  ⟨d.start, d.reversed.reverse⟩

end Draft

/-- The logical lines of a text, from a place in a given mode on; the draft is of the
line that the place is in. -/
def scan : Mode → Draft → List Char → List LogicalLine
  | _, d, [] => if d.reversed = [] then [] else [d.line]
  | mode, d, '\\' :: '\n' :: rest => scan mode d.goOn rest
  | mode, d, '\\' :: '\r' :: '\n' :: rest => scan mode d.goOn rest
  | .blockComment, d, '\n' :: rest => scan .blockComment d.goOn rest
  | _, d, '\n' :: rest => d.line :: scan .code (.fresh (d.current + 1)) rest
  | .code, d, '/' :: '/' :: rest => scan .lineComment d rest
  | .code, d, '/' :: '*' :: rest => scan .blockComment (d.push ' ') rest
  | .code, d, c :: rest =>
    if c = '\r' then scan .code d rest
    else if c = '"' ∨ c = '\'' then scan (.literal c) (d.push c) rest
    else scan .code (d.push c) rest
  | .literal quote, d, '\\' :: c :: rest => scan (.literal quote) ((d.push '\\').push c) rest
  | .literal quote, d, c :: rest =>
    scan (if c = quote then .code else .literal quote) (d.push c) rest
  | .blockComment, d, '*' :: '/' :: rest => scan .code d rest
  | .blockComment, d, _ :: rest => scan .blockComment d rest
  | .lineComment, d, _ :: rest => scan .lineComment d rest

/-- The logical lines of a text. -/
def ofText (text : List Char) : List LogicalLine :=
  scan .code (.fresh 1) text

end LogicalLine

end Recompile
