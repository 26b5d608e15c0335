/-
# QuestScript.Diagnostic.Json -- written diagnostics
-/
import QuestScript.Diagnostic
import QuestScript.Text.Json

namespace QuestScript

set_option autoImplicit false

/-- A problem as its name with what is told of it, or as its name alone. -/
def Problem.toJson : Problem → Json
  | .unexpectedToken found expected =>
      .obj [("UnexpectedToken", .obj [("found", .str found), ("expected", .str expected)])]
  | .unexpectedEnd expected => .obj [("UnexpectedEof", .obj [("expected", .str expected)])]
  | .invalidToken text => .obj [("InvalidToken", .obj [("text", .str text)])]
  | .unterminatedString => .str "UnterminatedString"
  | .nestingTooDeep limit => .obj [("NestingTooDeep", .obj [("limit", .num limit)])]

/-- A problem and its span. -/
def Diagnostic.toJson (d : Diagnostic) : Json :=
  .obj [("kind", d.problem.toJson), ("span", d.span.toJson)]

end QuestScript
