/-
# QuestScript.Statement.Spacing -- blanks around single tokens

When statements are written, only their single tokens bring blanks with them, and which
depends on the token's kind alone.
-/
import QuestScript.Token.Kind

namespace QuestScript

set_option autoImplicit false

/-- How a token is written. -/
inductive Spacing where
  | verbatim
  /-- With a blank behind it. -/
  | trailingSpace
  /-- With a blank on both sides, where padding is asked for. -/
  | doubleSpace
deriving DecidableEq, Repr

namespace Spacing

/-- The name of a way of spacing in listings. -/
def name : Spacing → String
  | .verbatim => "Verbatim"
  | .trailingSpace => "TrailingSpace"
  | .doubleSpace => "DoubleSpace"

/-- How tokens of a kind are written. -/
def ofKind : TokenKind → Spacing
  | .comma | .kwNew | .question => .trailingSpace
  | .colon | .dot => .doubleSpace
  | _ => .verbatim

/-- A text with its blanks. -/
def apply (pad : Bool) (text : String) : Spacing → String
  | .verbatim => text
  | .trailingSpace => text ++ " "
  | .doubleSpace => if pad then " " ++ text ++ " " else text

end Spacing

/-- A token is written with a blank behind it, whatever follows. -/
def TokenKind.endsInSpace (kind : TokenKind) : Bool := Spacing.ofKind kind = .trailingSpace

/-- A token as it is written in statements. -/
def TokenKind.write (kind : TokenKind) (pad : Bool) (text : String) : String :=
  (Spacing.ofKind kind).apply pad text

end QuestScript
