/-
# QuestScript.Grammar.Form -- the building blocks of the grammar

A rule of the grammar is written as a form: a value that says which tokens are read, in
which order, on what condition, and which nodes are built over them.  Forms are finite;
the grammar recurs only where a form enters an `Entry`, and every entry costs one level
of nesting.  So a limit on nesting is at the same time what makes reading end.

Nodes are built as in a frame: what was read so far stands in a list, and `close` puts
all of it under one node.  An operator that turns out to stand behind a finished operand
is thus read after it and closed over both.

A choice looks at the tokens ahead without reading them: it tries a form from here and
tests the kind of the token behind it.
-/
import QuestScript.Grammar.Precedence
import QuestScript.Tree.Label

namespace QuestScript.Grammar

set_option autoImplicit false

/-- Where the grammar recurs, one level of nesting deeper. -/
inductive Entry where
  | statement
  | assignment
  /-- A branch of a conditional. -/
  | ternary
  /-- An operator before its operand, and the operand. -/
  | unary
  | cast
  /-- The operator of level `own` behind an operand, its right operand, and the chain of
  operators of level `least` or tighter behind both. -/
  | link (least own : Precedence)
  /-- A member, an index or an increment behind an operand, and more of them. -/
  | suffix
  | typeArguments
deriving DecidableEq, Repr

/-- What to read and what to build. -/
inductive Form where
  /-- Nothing. -/
  | empty
  /-- The blanks and comments that come next. -/
  | trivia
  /-- The next token with the trivia before it, when its kind is admitted. -/
  | token (admits : TokenKind → Bool) (expected : String)
  /-- A string with its closing quote. -/
  | string (expected : String)
  /-- Give up. -/
  | refuse (expected : String)
  | seq (first second : Form)
  /-- A form with a frame of its own; what it leaves there is added to the outer frame. -/
  | frame (body : Form)
  /-- Put everything in the frame under one node. -/
  | close (rule : Rule)
  /-- One form or the other, by whether `look` can be read from here with a token of an
  admitted kind behind it. -/
  | choose (look : Form) (admits : TokenKind → Bool) (yes no : Form)
  /-- A form again and again, as long as the look ahead succeeds. -/
  | repeated (look : Form) (admits : TokenKind → Bool) (body : Form)
  /-- Recur one level deeper, in the same frame. -/
  | enter (entry : Entry)
  /-- Read `body`; where it gives up, report that and read `skip` from there instead. -/
  | recover (body skip : Form)

namespace Form

instance : AndThen Form := ⟨fun first second => .seq first (second ())⟩

/-- One form or the other, by the kind of the next token. -/
def ifNext (admits : TokenKind → Bool) (yes no : Form) : Form := choose .empty admits yes no

/-- A form when the next token is of an admitted kind. -/
def whenNext (admits : TokenKind → Bool) (body : Form) : Form := ifNext admits body .empty

/-- A form unless the next token is of an admitted kind. -/
def unlessNext (admits : TokenKind → Bool) (body : Form) : Form := ifNext admits .empty body

/-- A form as long as the next token is of an admitted kind. -/
def whileNext (admits : TokenKind → Bool) (body : Form) : Form := repeated .empty admits body

/-- The next token, which is known to be of an admitted kind. -/
def take (admits : TokenKind → Bool) : Form := token admits "token"

/-- A token of one kind. -/
def one (kind : TokenKind) : Form := token (· == kind) kind.display

/-- Tokens as long as they are of an admitted kind. -/
def takeWhile (admits : TokenKind → Bool) : Form := whileNext admits (take admits)

/-- A form whose parts are put under a node of their own. -/
def node (rule : Rule) (body : Form) : Form := frame (body >> close rule)

/-- One or more of a form with commas between them. -/
def commaSeparated (body : Form) : Form := body >> whileNext (· == .comma) (one .comma >> body)

end Form

end QuestScript.Grammar
