/-
# QuestScript.Text.Json -- written positions and spans
-/
import QuestScript.Json.Value
import QuestScript.Text.Span

namespace QuestScript.Text

set_option autoImplicit false

/-- A position with all three of its counts. -/
def Position.toJson (p : Position) : Json :=
  .obj [("byte", .num p.byte), ("line", .num p.line), ("column", .num p.column)]

/-- The position that a value writes. -/
def Position.ofJson? : Json → Option Position
  | .obj fields => do
      let byte ← Json.nat? "byte" fields
      let line ← Json.nat? "line" fields
      let column ← Json.nat? "column" fields
      some ⟨byte, line, column⟩
  | _ => none

/-- A span with its two ends. -/
def Span.toJson (s : Span) : Json := .obj [("start", s.start.toJson), ("end", s.stop.toJson)]

/-- The span that a value writes. -/
def Span.ofJson? : Json → Option Span
  | .obj fields => do
      let start ← (Json.field? "start" fields).bind Position.ofJson?
      let stop ← (Json.field? "end" fields).bind Position.ofJson?
      some ⟨start, stop⟩
  | _ => none

theorem Position.ofJson?_toJson (p : Position) : Position.ofJson? p.toJson = some p := by
  simp [Position.toJson, Position.ofJson?, Json.nat?, Json.field?, Json.asNat?]

theorem Span.ofJson?_toJson (s : Span) : Span.ofJson? s.toJson = some s := by
  simp [Span.toJson, Span.ofJson?, Json.field?, Position.ofJson?_toJson]

end QuestScript.Text
