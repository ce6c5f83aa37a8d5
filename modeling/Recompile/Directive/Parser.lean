import Recompile.Directive.Basic
import Recompile.Directive.LogicalLine
import Recompile.Text.Utf8
import Recompile.Text.Word

/-!
# Reading directives

Each logical line is recognised on its own (`LogicalLine.kind`); the lines of a text are
then gathered in order, with the number of conditional blocks that are open. A line
that is malformed is passed over, it never ends the scan.
-/

set_option autoImplicit false

namespace Recompile

open Text

/-- Whether a character may start an identifier. -/
def isIdentStart (c : Char) : Bool :=
  c.isAlpha || c == '_'

/-- Whether a character may stand inside an identifier. -/
def isIdentChar (c : Char) : Bool :=
  c.isAlphanum || c == '_'

/-- The longest identifier at the start of a text, and what follows it. -/
def identifier? : List Char → Option (List Char × List Char)
  | [] => none
  | c :: cs =>
    if isIdentStart c then some (c :: cs.takeWhile isIdentChar, cs.dropWhile isIdentChar)
    else none

namespace LogicalLine

/-- What a logical line means for the scan. -/
inductive Kind where
  /-- A conditional block starts. -/
  | opens
  /-- A conditional block ends. -/
  | closes
  /-- An include directive, with what follows the keyword. -/
  | includes (isImport : Bool) (rest : List Char)
  /-- A macro is defined by what follows its name. -/
  | defines (name value : List Char)
  /-- A macro with parameters is defined. -/
  | definesFunction (name : List Char)
  | undefines (name : List Char)
  /-- Any other line. -/
  | other
  deriving DecidableEq, Repr

/-- What a conditional directive does, if its keyword is one of them and the word ends
there. -/
def conditional? (cs : List Char) : Option Kind :=
  let word := cs.takeWhile isWordChar
  if word = ['i', 'f'] ∨ word = ['i', 'f', 'd', 'e', 'f'] ∨ word = ['i', 'f', 'n', 'd', 'e', 'f']
  then some .opens
  else if word = ['e', 'n', 'd', 'i', 'f'] then some .closes
  else none

/-- Whether the target of an include directive may start like that: at the end of the
line, with a blank, or with a delimiter. -/
def mayFollowKeyword : List Char → Bool
  | [] => true
  | c :: _ => isBlank c || c == '<' || c == '"'

/-- The keyword of an include directive, if the line goes on as it has to. -/
def include? (cs : List Char) : Option Kind :=
  match ['i', 'n', 'c', 'l', 'u', 'd', 'e'].isPrefixOf? cs with
  | some rest => if mayFollowKeyword rest then some (.includes false rest) else none
  | none =>
    match ['i', 'm', 'p', 'o', 'r', 't'].isPrefixOf? cs with
    | some rest => if mayFollowKeyword rest then some (.includes true rest) else none
    | none => none

/-- The identifier after at least one blank, and what follows it. -/
def spacedIdentifier? (cs : List Char) : Option (List Char × List Char) :=
  match cs with
  | [] => none
  | c :: rest => if isBlank c then identifier? (trimStart rest) else none

/-- A macro definition. Only a parenthesis directly after the name starts parameters. -/
def define? (cs : List Char) : Option Kind :=
  match ['d', 'e', 'f', 'i', 'n', 'e'].isPrefixOf? cs with
  | none => none
  | some rest =>
    match spacedIdentifier? rest with
    | none => none
    | some (name, '(' :: _) => some (.definesFunction name)
    | some (name, value) => some (.defines name (trim value))

/-- The removal of a macro. -/
def undefine? (cs : List Char) : Option Kind :=
  match ['u', 'n', 'd', 'e', 'f'].isPrefixOf? cs with
  | none => none
  | some rest => (spacedIdentifier? rest).map fun found => .undefines found.1

/-- The meaning of what follows the `#` of a directive. -/
def kindAfterHash (cs : List Char) : Kind :=
  (conditional? cs <|> include? cs <|> define? cs <|> undefine? cs).getD .other

/-- The meaning of a logical line. -/
def kind (l : LogicalLine) : Kind :=
  match trimStart l.chars with
  | '#' :: rest => kindAfterHash (trimStart rest)
  | _ => .other

end LogicalLine

/-- The target up to a closing delimiter, if there is one and something before it. -/
def closedTarget? (form : IncludeForm) (closing : Char) (body : List Char) :
    Option (IncludeForm × List Char) :=
  let target := body.takeWhile (· ≠ closing)
  if closing ∈ body ∧ target ≠ [] then some (form, target) else none

/-- The form and target of an include directive, from what follows its keyword. After a
name the whole rest belongs to the target, so the call of a macro stays one. -/
def includeTarget? (rest : List Char) : Option (IncludeForm × List Char) :=
  match trim rest with
  | [] => none
  | c :: body =>
    if c = '"' then closedTarget? .quoted '"' body
    else if c = '<' then closedTarget? .system '>' body
    else if isIdentStart c then some (.macroName, c :: body)
    else none

namespace Directives

/-- Nothing. -/
def none : Directives :=
  ⟨[], []⟩

/-- One more include directive in front. -/
def addInclude (i : Include) (ds : Directives) : Directives :=
  { ds with includes := i :: ds.includes }

/-- One more macro event in front. -/
def addMacro (e : MacroEvent) (ds : Directives) : Directives :=
  { ds with macros := e :: ds.macros }

/-- The directives of logical lines, with the number of conditional blocks that are open
before them. An end without a block is passed over. -/
def gather (imports : Bool) : Nat → List LogicalLine → Directives
  | _, [] => none
  | depth, l :: ls =>
    match l.kind with
    | .opens => gather imports (depth + 1) ls
    | .closes => gather imports (depth - 1) ls
    | .includes isImport rest =>
      if isImport && !imports then gather imports depth ls
      else
        match includeTarget? rest with
        | some (form, target) =>
          (gather imports depth ls).addInclude ⟨form, String.ofList target, isImport, l.start⟩
        | .none => gather imports depth ls
    | .defines name value =>
      (gather imports depth ls).addMacro
        (.define (String.ofList name) (String.ofList value) l.start)
    | .definesFunction name =>
      (gather imports depth ls).addMacro (.defineFunction (String.ofList name) l.start)
    | .undefines name =>
      (gather imports depth ls).addMacro
        (.undefine (String.ofList name) (decide (0 < depth)) l.start)
    | .other => gather imports depth ls

/-- The directives of a text; `imports` says whether `#import` is an include. -/
def ofText (imports : Bool) (text : List Char) : Directives :=
  gather imports 0 (LogicalLine.ofText text)

/-- The directives of a file. Bytes that are no text do not matter. -/
def ofBytes (imports : Bool) (bytes : List UInt8) : Directives :=
  ofText imports (Utf8.decodeLossy bytes)

end Directives

end Recompile
