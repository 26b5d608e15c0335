/-
# QuestScript.Text.Span -- stretches of a text

A span is a pair of positions.  Spans read from elsewhere may be reversed or reach
outside the text, so every operation is defined for all of them: a reversed span is
empty, and a span that does not fall on character boundaries of the text cuts out
nothing.
-/
import QuestScript.Text.Position

namespace QuestScript.Text

set_option autoImplicit false

/-- From `start` up to `stop`. -/
structure Span where
  start : Position
  stop : Position
deriving DecidableEq, Repr, Inhabited

/-- The rest of the text from byte `n` on, when a character begins there. -/
def dropBytes : Nat → List Char → Option (List Char)
  | 0, cs => some cs
  | _ + 1, [] => none
  | n + 1, c :: cs => if c.utf8Size ≤ n + 1 then dropBytes (n + 1 - c.utf8Size) cs else none

/-- The first `n` bytes of the text, when a character ends there. -/
def takeBytes : Nat → List Char → Option (List Char)
  | 0, _ => some []
  | _ + 1, [] => none
  | n + 1, c :: cs =>
      if c.utf8Size ≤ n + 1 then (takeBytes (n + 1 - c.utf8Size) cs).map (c :: ·) else none

namespace Span

/-- The empty span at the beginning of a text. -/
def zero : Span := ⟨.zero, .zero⟩

/-- The empty span at a position. -/
def emptyAt (p : Position) : Span := ⟨p, p⟩

/-- Bytes covered; none when the span is reversed. -/
def length (s : Span) : Nat := s.stop.byte - s.start.byte

/-- The span covers no byte. -/
def isEmpty (s : Span) : Bool := s.length == 0

/-- The least span over both; on equal bytes the first span's position stays. -/
def merge (s t : Span) : Span where
  start := if t.start.byte < s.start.byte then t.start else s.start
  stop := if t.stop.byte > s.stop.byte then t.stop else s.stop

/-- The characters the span covers, or nothing when it is no stretch of the text. -/
def slice (s : Span) (text : List Char) : List Char :=
  if s.start.byte ≤ s.stop.byte then
    ((dropBytes s.start.byte text).bind (takeBytes s.length)).getD []
  else []

end Span

end QuestScript.Text
