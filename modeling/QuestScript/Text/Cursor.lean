/-
# QuestScript.Text.Cursor -- reading a text character by character

A cursor is the part of a text not read yet together with the position it begins at.
Reading moves both at once, so the position always tells what was read.
-/
import QuestScript.Text.Position

namespace QuestScript.Text

set_option autoImplicit false

/-- What is left to read, and where it begins. -/
structure Cursor where
  rest : List Char
  position : Position
deriving DecidableEq, Repr

namespace Cursor

/-- The cursor before the first character of a text. -/
def ofText (cs : List Char) : Cursor := ⟨cs, .zero⟩

/-- Nothing is left to read. -/
def isAtEnd (c : Cursor) : Bool := c.rest.isEmpty

/-- The next character. -/
def peek (c : Cursor) : Option Char := c.rest.head?

/-- The character after the next one. -/
def peekNext (c : Cursor) : Option Char := c.rest[1]?

/-- Read one character; at the end nothing moves. -/
def advance (c : Cursor) : Cursor :=
  match c.rest with
  | [] => c
  | x :: xs => ⟨xs, c.position.next x⟩

/-- Read as long as the characters satisfy `p`. -/
def advanceWhile (p : Char → Bool) (c : Cursor) : Cursor :=
  ⟨c.rest.dropWhile p, c.position.after (c.rest.takeWhile p)⟩

theorem advanceWhile_cons (p : Char → Bool) (x : Char) (xs : List Char) (place : Position) :
    advanceWhile p ⟨x :: xs, place⟩ =
      if p x then advanceWhile p (advance ⟨x :: xs, place⟩) else ⟨x :: xs, place⟩ := by
  by_cases h : p x <;> simp [advanceWhile, advance, h]

end Cursor

end QuestScript.Text
