/-
# QuestScript.Statement.Rendering -- statements as text

A statement is written by writing its leaves one behind the other.  There are two ways:
as content, where calls leave no trace, and as source, where they are written out, so
that the text says what the script said.
-/
import QuestScript.Statement.Basic
import QuestScript.Statement.Spacing
import QuestScript.Text.Enclosed

namespace QuestScript

set_option autoImplicit false

/-- The call as it is written in a script. -/
def Call.text (c : Call) : String :=
  let inner := c.name ++ "(" ++ Text.trimmed c.arguments ++ ")"
  match c.receiver with
  | some receiver => receiver ++ "." ++ inner
  | none => inner

/-- What becomes of calls. -/
inductive RenderMode where
  | content | source
deriving DecidableEq, Repr

/-- A way to write statements. -/
structure Rendering where
  mode : RenderMode
  /-- Write the tokens that may be padded with blanks on both sides. -/
  pad : Bool
deriving DecidableEq, Repr

namespace Rendering

/-- Content without padding. -/
def content : Rendering := ⟨.content, false⟩

/-- Source without padding. -/
def source : Rendering := ⟨.source, false⟩

/-- A call, as this rendering writes it. -/
def call (r : Rendering) (c : Call) : String :=
  match r.mode with
  | .content => ""
  | .source => c.text

end Rendering

namespace Statement

mutual

/-- A statement as text. -/
def render (r : Rendering) : Statement → String
  | .typeRef text => text
  | .primary text => text
  | .token kind text => kind.write r.pad text
  | .call c => r.call c
  | .composite _ cs => renderAll r cs
  | .forLoop cs _ => renderAll r cs
  | .process _ cs => renderAll r cs
  | .function _ _ cs => renderAll r cs

/-- Statements as text, one behind the other. -/
def renderAll (r : Rendering) : List Statement → String
  | [] => ""
  | s :: ss => s.render r ++ renderAll r ss

end

/-- The text without its calls. -/
def contentText (s : Statement) : String := s.render .content

/-- The text with its calls. -/
def sourceText (s : Statement) : String := s.render .source

theorem render_of_isComposite {s : Statement} (h : s.isComposite) (r : Rendering) :
    s.render r = renderAll r s.children := by
  cases s <;> first | rfl | simp [isComposite] at h

theorem renderAll_append (r : Rendering) (as bs : List Statement) :
    renderAll r (as ++ bs) = renderAll r as ++ renderAll r bs := by
  induction as with
  | nil => simp [renderAll]
  | cons a as ih => simp [renderAll, ih, String.append_assoc]

end Statement

end QuestScript
