/-
# QuestScript.Proofs.StatementText -- statements are read back from their text

Statements of all shapes are written as objects, and so are the clauses of a loop.  What an
object stands for is told by its first field alone, `node` for a statement and `form` for
clauses; and no other field bears that name, so that a composite with a `kind` or a token with
a `token_kind` is not mistaken for anything else.  A statement is therefore read back from the
value it is written as (`Statement.ofJson?_toJson`), whatever it is made of, and a list of
statements from its text (`Statement.reads_listText`).

A statement is written two levels deeper than its children, and so a list of statements is
one that the reader can follow if they are nested no more than 62 deep
(`Statement.depth_listToJson_le`).
-/
import QuestScript.Proofs.JsonText
import QuestScript.Statement.Json

namespace QuestScript

set_option autoImplicit false

/-! ## Clauses and parameters -/

theorem LoopControl.ofJson?_toJson (control : LoopControl) :
    ofJson? control.toJson = some control := by
  cases control with
  | classic init condition update =>
      cases init <;> cases condition <;> cases update <;>
        simp [toJson, ofJson?, Json.string?, Json.field?, Json.optional?, Json.ofOption,
          Json.asString?, Json.asNat?]
  | each binding iterable =>
      simp [toJson, ofJson?, Json.string?, Json.nat?, Json.field?, Json.asString?, Json.asNat?]

namespace Parameter

theorem ofJson?_toJson (p : Parameter) : ofJson? p.toJson = some p := by
  simp [toJson, ofJson?, Json.string?, Json.field?, Json.asString?]

theorem mapM_ofJson?_toJson (ps : List Parameter) : ps.mapM (ofJson? ∘ toJson) = some ps := by
  induction ps with
  | nil => rfl
  | cons p ps ih => simp [ofJson?_toJson, ih]

end Parameter

namespace Statement

/-! ## Values -/

mutual

/-- A statement is read back from the value it is written as. -/
theorem ofJson?_toJson : (s : Statement) → ofJson? s.toJson = some s
  | .typeRef text | .primary text => by
      simp [toJson, ofJson?, Json.string?, Json.field?, Json.asString?]
  | .token kind text => by
      simp [toJson, ofJson?, Json.string?, Json.field?, Json.asString?, TokenKind.ofTag?_tag]
  | .call ⟨receiver, name, arguments⟩ => by
      cases receiver <;>
        simp [toJson, ofJson?, Json.string?, Json.field?, Json.optional?, Json.ofOption,
          Json.asString?]
  | .composite kind children => by
      simp [toJson, ofJson?, childrenOf?, Json.string?, Json.field?, Json.asString?,
        CompositeKind.ofTag?_tag, ofJsonAll?_toJsonAll children]
  | .forLoop children control => by
      simp [toJson, ofJson?, childrenOf?, Json.string?, Json.field?, Json.asString?,
        LoopControl.ofJson?_toJson, ofJsonAll?_toJsonAll children]
  | .process name children => by
      simp [toJson, ofJson?, childrenOf?, Json.string?, Json.field?, Json.asString?,
        ofJsonAll?_toJsonAll children]
  | .function name parameters children => by
      simp [toJson, ofJson?, childrenOf?, Parameter.listOf?, Json.string?, Json.field?,
        Json.asString?, Parameter.mapM_ofJson?_toJson, ofJsonAll?_toJsonAll children]

theorem ofJsonAll?_toJsonAll : (ss : List Statement) → ofJsonAll? (toJsonAll ss) = some ss
  | [] => rfl
  | s :: ss => by simp [toJsonAll, ofJsonAll?, ofJson?_toJson s, ofJsonAll?_toJsonAll ss]

end

/-- A list of statements as a value. -/
def listToJson (ss : List Statement) : Json := .arr (toJsonAll ss)

/-- The list of statements that a value writes. -/
def listOfJson? : Json → Option (List Statement)
  | .arr items => ofJsonAll? items
  | _ => none

theorem listOfJson?_listToJson (ss : List Statement) : listOfJson? (listToJson ss) = some ss :=
  ofJsonAll?_toJsonAll ss

/-! ## Depth -/

mutual

/-- How far in a statement others stand. -/
def height : Statement → Nat
  | .composite _ children => heightAll children
  | .forLoop children _ => heightAll children
  | .process _ children => heightAll children
  | .function _ _ children => heightAll children
  | _ => 0

/-- How far statements, and those in them, stand in their parent. -/
def heightAll : List Statement → Nat
  | [] => 0
  | s :: ss => max (s.height + 1) (heightAll ss)

end

theorem depth_control (control : LoopControl) : control.toJson.depth = 1 := by
  cases control with
  | classic init condition update => cases init <;> cases condition <;> cases update <;> rfl
  | each binding iterable => rfl

theorem depth_parameters (ps : List Parameter) :
    Json.depthItems (ps.map Parameter.toJson) ≤ 1 := by
  induction ps with
  | nil => exact Nat.zero_le 1
  | cons p ps ih => exact Nat.max_le.mpr ⟨Nat.le_refl 1, ih⟩

mutual

/-- A statement is written at most two levels deeper than its children. -/
theorem depth_toJson : (s : Statement) → s.toJson.depth ≤ 2 * s.height + 3
  | .typeRef _ | .primary _ | .token _ _ => by
      simp [toJson, height, Json.depth, Json.depthFields]
  | .call ⟨receiver, _, _⟩ => by
      cases receiver <;> simp [toJson, height, Json.depth, Json.depthFields, Json.ofOption]
  | .composite _ children | .process _ children => by
      have below := depth_toJsonAll children
      simp only [toJson, height, Json.depth, Json.depthFields]
      omega
  | .forLoop children control => by
      have below := depth_toJsonAll children
      have clauses := depth_control control
      simp only [toJson, height, Json.depth, Json.depthFields]
      omega
  | .function _ parameters children => by
      have below := depth_toJsonAll children
      have declared := depth_parameters parameters
      simp only [toJson, height, Json.depth, Json.depthFields]
      omega

theorem depth_toJsonAll : (ss : List Statement) →
    Json.depthItems (toJsonAll ss) ≤ 2 * heightAll ss + 1
  | [] => Nat.zero_le _
  | s :: ss => by
      have first := depth_toJson s
      have others := depth_toJsonAll ss
      simp only [toJsonAll, Json.depthItems, heightAll]
      omega

end

/-- The text of statements is one the reader can follow if they are nested no more than 62
deep. -/
theorem depth_listToJson_le {ss : List Statement} (h : heightAll ss ≤ 62) :
    (listToJson ss).depth ≤ Json.nestingLimit := by
  have below := depth_toJsonAll ss
  simp only [listToJson, Json.depth, Json.nestingLimit]
  omega

/-! ## Texts -/

/-- **Statements are read back from their text**: every shape with its parts, the clauses of
loops in either form, and everything inside. -/
theorem reads_listText (ss : List Statement) (shallow : (listToJson ss).depth ≤ Json.nestingLimit) :
    (Json.parse? (listToJson ss).compactText).bind listOfJson? = some ss := by
  rw [Json.parse?_compactText _ shallow, Option.bind_some, listOfJson?_listToJson]

/-- A function with a loop of each form, one of them without its clauses, a call with and one
without a receiver, and texts that look like the fields of an object. -/
theorem reads_listText_function :
    let call : Statement := .call ⟨some "a\"b", "node", "\\\n𝄞"⟩
    let plain : Statement := .call ⟨none, "", ""⟩
    let each : Statement := .forLoop [.typeRef "T", .token .comma ",", call] (.each 7 0)
    let classic : Statement := .forLoop [each, .process "kind" []] (.classic none (some 3) none)
    let ss : List Statement :=
      [.function "form" [⟨"\"node\":\"for\"", "x"⟩]
        [classic, .composite .arrayAccess [plain]], .primary ""]
    (listToJson ss).depth ≤ Json.nestingLimit ∧
      (Json.parse? (listToJson ss).compactText).bind listOfJson? = some ss :=
  ⟨by decide, reads_listText _ (by decide)⟩

end Statement

end QuestScript
