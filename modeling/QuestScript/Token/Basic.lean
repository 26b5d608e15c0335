/-
# QuestScript.Token.Basic -- tokens

A lexeme is a stretch of text with its kind; a token is a lexeme with the span it
covers.  `placed` puts lexemes end to end from a position on.
-/
import QuestScript.Text.Span
import QuestScript.Token.Kind

namespace QuestScript

open Text (Position Span)

set_option autoImplicit false

/-- A stretch of text and what it is. -/
structure Lexeme where
  kind : TokenKind
  text : String
deriving DecidableEq, Repr, Inhabited

/-- A lexeme in its place. -/
structure Token where
  kind : TokenKind
  span : Span
  text : String
deriving DecidableEq, Repr, Inhabited

namespace Token

/-- The token is blanks and comments. -/
def isTrivia (t : Token) : Bool := t.kind.isTrivia

/-- The token without its place. -/
def lexeme (t : Token) : Lexeme := ⟨t.kind, t.text⟩

/-- The token that ends every token list. -/
def atEnd (p : Position) : Token := ⟨.eof, .emptyAt p, ""⟩

/-- Lexemes end to end from `p` on. -/
def placed (p : Position) : List Lexeme → List Token
  | [] => []
  | l :: ls =>
      let stop := p.after l.text.toList
      ⟨l.kind, ⟨p, stop⟩, l.text⟩ :: placed stop ls

@[simp] theorem lexeme_placed (p : Position) (ls : List Lexeme) :
    (placed p ls).map lexeme = ls := by
  induction ls generalizing p with
  | nil => rfl
  | cons l ls ih => simp [placed, lexeme, ih]

end Token

end QuestScript
