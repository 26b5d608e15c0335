/-
# QuestScript.Diagnostic -- what is wrong with a script

A diagnostic is a problem in its place.  Most are made from the faults of reading: a
fault knows what the grammar wanted and which tokens were left, and the diagnostic tells
what the next of these tokens is instead.
-/
import QuestScript.Grammar.Reading

namespace QuestScript

open Text (Span)
open Grammar (Fault)

set_option autoImplicit false

/-- What is wrong. -/
inductive Problem where
  | unexpectedToken (found expected : String)
  | unexpectedEnd (expected : String)
  | invalidToken (text : String)
  | unterminatedString
  | nestingTooDeep (limit : Nat)
deriving DecidableEq, Repr, Inhabited

namespace Problem

/-- A problem in words. -/
def message : Problem → String
  | .unexpectedToken found expected =>
      "unexpected token '" ++ found ++ "', expected " ++ expected
  | .unexpectedEnd expected => "unexpected end of file, expected " ++ expected
  | .invalidToken text => "unrecognized input '" ++ text ++ "'"
  | .unterminatedString => "unterminated string literal"
  | .nestingTooDeep limit => "nesting deeper than " ++ toString limit ++ " levels"

end Problem

/-- A problem and where it is. -/
structure Diagnostic where
  problem : Problem
  span : Span
deriving DecidableEq, Repr, Inhabited

/-- Where a span begins, as people count: lines and columns from one. -/
def Text.Span.place (s : Span) : String :=
  toString (s.start.line + 1) ++ ":" ++ toString (s.start.column + 1)

namespace Diagnostic

/-- A problem in words, and where it begins. -/
def message (d : Diagnostic) : String := d.problem.message ++ " at " ++ d.span.place

/-- The diagnostic of a fault.  The place is that of the next token, or the end of the
script; a token the lexer could not make sense of is named as such. -/
def ofFault (limit : Nat) (scriptEnd : Span) (fault : Fault) : Diagnostic :=
  let next := (Grammar.afterTrivia fault.rest).head?
  let span := (next.map Token.span).getD scriptEnd
  match fault.cause with
  | .tooDeep => ⟨.nestingTooDeep limit, span⟩
  | .openString => ⟨.unterminatedString, span⟩
  | .expected what =>
      match next with
      | none => ⟨.unexpectedEnd what, span⟩
      | some t =>
          if t.kind = .error then ⟨.invalidToken t.text, span⟩
          else ⟨.unexpectedToken t.text what, span⟩

end Diagnostic

end QuestScript
