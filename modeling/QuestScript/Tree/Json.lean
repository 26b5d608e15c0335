/-
# QuestScript.Tree.Json -- written trees

A node is written as an object with what it stands for, its span, its children and its
text, in this order; fields may be read in any order.
-/
import QuestScript.Text.Json
import QuestScript.Tree.Basic

namespace QuestScript

open Text (Span)

set_option autoImplicit false

namespace Label

/-- A token by its tag in an object, a rule by its tag alone. -/
def toJson : Label → Json
  | .token kind => .obj [("token", .str kind.tag)]
  | .rule r => .str r.tag

/-- The label that a value writes. -/
def ofJson? : Json → Option Label
  | .str tag => (Rule.ofTag? tag).map .rule
  | .obj [("token", .str tag)] => (TokenKind.ofTag? tag).map .token
  | _ => none

theorem ofJson?_toJson (l : Label) : ofJson? l.toJson = some l := by
  cases l <;> simp [toJson, ofJson?, TokenKind.ofTag?_tag, Rule.ofTag?_tag]

end Label

namespace Tree

mutual

/-- A node and everything below it. -/
def toJson : Tree → Json
  | ⟨label, span, children, text⟩ =>
      .obj [("kind", label.toJson), ("span", span.toJson), ("children", .arr (toJsonAll children)),
        ("text", Json.ofOption .str text)]

/-- Nodes and everything below them. -/
def toJsonAll : List Tree → List Json
  | [] => []
  | t :: ts => t.toJson :: toJsonAll ts

end

mutual

/-- The node that a value writes. -/
def ofJson? : Json → Option Tree
  | .obj fields => do
      let label ← (Json.field? "kind" fields).bind Label.ofJson?
      let span ← (Json.field? "span" fields).bind Span.ofJson?
      let children ← childrenOf? fields
      let text ← Json.optional? Json.asString? "text" fields
      some ⟨label, span, children, text⟩
  | _ => none

/-- The nodes in the field for children. -/
def childrenOf? : List (String × Json) → Option (List Tree)
  | [] => none
  | (name, value) :: rest =>
      if name = "children" then
        match value with
        | .arr items => ofJsonAll? items
        | _ => none
      else childrenOf? rest

/-- The nodes that values write; one that does not write any spoils all. -/
def ofJsonAll? : List Json → Option (List Tree)
  | [] => some []
  | j :: js => do
      let t ← ofJson? j
      let ts ← ofJsonAll? js
      some (t :: ts)

end

end Tree

end QuestScript
