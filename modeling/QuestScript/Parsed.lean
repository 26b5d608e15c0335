/-
# QuestScript.Parsed -- from tokens to a tree

`Parsed.ofTokens` reads a whole script.  It always gives a tree, with the diagnostics of
what could not be read; the script is in order when there are none.  Tokens from the
first end-of-file token on are not part of the script.
-/
import QuestScript.Diagnostic
import QuestScript.Grammar.Script
import QuestScript.Token.Lexer

namespace QuestScript

open Text (Position Span)
open Grammar (Entry Fault Form Outcome)

set_option autoImplicit false

/-- The tree of a script and what is wrong with the script. -/
structure Parsed where
  root : Tree
  diagnostics : List Diagnostic
deriving Repr

namespace Parsed

/-- Nothing is wrong with the script. -/
def isOk (p : Parsed) : Bool := p.diagnostics.isEmpty

/-- The tokens before the first end-of-file token. -/
def body (ts : List Token) : List Token := ts.takeWhile fun t => t.kind != .eof

/-- Where a script ends: at its end-of-file token, or else behind its last token. -/
def endSpan (ts : List Token) : Span :=
  match ts.find? fun t => t.kind == .eof with
  | some t => t.span
  | none => .emptyAt ((ts.getLast?.map fun t => t.span.stop).getD .zero)

/-- The node over all of a script; a script without tokens is empty at its end. -/
def rootOf (scriptEnd : Span) : List Tree → Tree
  | [] => ⟨.rule .script, .emptyAt scriptEnd.start, [], none⟩
  | parts => .ofRule .script parts

/-- Read the tokens of a script with at most `limit` levels of nesting. -/
def ofTokens (limit : Nat) (ts : List Token) : Parsed :=
  let scriptEnd := endSpan ts
  let diagnose := Diagnostic.ofFault limit scriptEnd
  match Form.script.readAt limit [] (body ts) with
  | .done parts _ reported => ⟨rootOf scriptEnd parts, reported.map diagnose⟩
  | .failed fault reported => ⟨rootOf scriptEnd [], (reported ++ [fault]).map diagnose⟩

/-- Read a script with at most `limit` levels of nesting. -/
def ofText (limit : Nat) (text : String) : Parsed := ofTokens limit (Token.ofText text.toList)

end Parsed

end QuestScript
