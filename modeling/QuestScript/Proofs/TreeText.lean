/-
# QuestScript.Proofs.TreeText -- trees are read back from their text

A tree is read back from the value it is written as (`Tree.ofJson?_toJson`), whatever its
labels, spans, children and texts are, and the value from its text.  The value of a tree is
two levels deeper than those of its children, so the text of a tree whose nodes stand no more
than 62 below the root is one that the reader can follow (`Tree.depth_toJson_le`).
-/
import QuestScript.Proofs.JsonText
import QuestScript.Tree.Json

namespace QuestScript

open Text (Position Span)

set_option autoImplicit false

namespace Tree

/-! ## Values -/

mutual

/-- A tree is read back from the value it is written as. -/
theorem ofJson?_toJson : (t : Tree) → ofJson? t.toJson = some t
  | ⟨label, span, children, text⟩ => by
      have below := ofJsonAll?_toJsonAll children
      cases text <;>
        simp [toJson, ofJson?, childrenOf?, Json.field?, Json.optional?, Json.ofOption,
          Json.asString?, Label.ofJson?_toJson, Span.ofJson?_toJson, below]

theorem ofJsonAll?_toJsonAll : (ts : List Tree) → ofJsonAll? (toJsonAll ts) = some ts
  | [] => rfl
  | t :: ts => by simp [toJsonAll, ofJsonAll?, ofJson?_toJson t, ofJsonAll?_toJsonAll ts]

end

/-! ## Depth -/

mutual

/-- How far below a node others stand. -/
def height : Tree → Nat
  | ⟨_, _, children, _⟩ => heightAll children

/-- How far nodes, and those below them, stand below their parent. -/
def heightAll : List Tree → Nat
  | [] => 0
  | t :: ts => max (t.height + 1) (heightAll ts)

end

theorem depth_position (p : Position) : p.toJson.depth = 1 := rfl

theorem depth_span (s : Span) : s.toJson.depth = 2 := by
  simp [Span.toJson, Json.depth, Json.depthFields, depth_position]

theorem depth_label (l : Label) : l.toJson.depth ≤ 1 := by
  cases l <;> simp [Label.toJson, Json.depth, Json.depthFields]

mutual

/-- A tree is written two levels deeper than its children. -/
theorem depth_toJson : (t : Tree) → t.toJson.depth = 2 * t.height + 3
  | ⟨label, span, children, text⟩ => by
      have below := depth_toJsonAll children
      have tag := depth_label label
      cases text <;>
        simp only [toJson, height, Json.depth, Json.depthFields, Json.ofOption, depth_span,
          Nat.max_zero] <;>
        omega

theorem depth_toJsonAll : (ts : List Tree) →
    max 1 (Json.depthItems (toJsonAll ts)) = 2 * heightAll ts + 1
  | [] => rfl
  | t :: ts => by
      have first := depth_toJson t
      have others := depth_toJsonAll ts
      simp only [toJsonAll, Json.depthItems, heightAll, first]
      omega

end

/-- The text of a tree is one the reader can follow exactly if no node of the tree stands more
than 62 below the root. -/
theorem depth_toJson_le (t : Tree) : t.toJson.depth ≤ Json.nestingLimit ↔ t.height ≤ 62 := by
  rw [depth_toJson, Json.nestingLimit]
  omega

/-! ## Texts -/

/-- **A tree is read back from its text**: every node with its label, its span, its children
and its own text, if there is one. -/
theorem reads_compactText (t : Tree) (shallow : t.toJson.depth ≤ Json.nestingLimit) :
    (Json.parse? t.toJson.compactText).bind ofJson? = some t := by
  rw [Json.parse?_compactText _ shallow, Option.bind_some, ofJson?_toJson]

/-- A statement that holds an unclosed string with a quote, a backslash, a line's end and a
character outside the first plane, and a node that has a text of its own beside its child. -/
theorem reads_compactText_string :
    let text := "\"a\\\"\n\x01𝄞"
    let string : Tree :=
      ⟨.token .string, ⟨⟨3, 0, 3⟩, ⟨13, 1, 2⟩⟩, [], some text⟩
    let odd : Tree := ⟨.rule .error, ⟨⟨9, 9, 9⟩, ⟨0, 0, 0⟩⟩, [string], some ""⟩
    let t : Tree := ⟨.rule .primary, .zero, [string, odd], none⟩
    t.toJson.depth ≤ Json.nestingLimit ∧
      (Json.parse? t.toJson.compactText).bind ofJson? = some t :=
  ⟨by decide, reads_compactText _ (by decide)⟩

end Tree

end QuestScript
