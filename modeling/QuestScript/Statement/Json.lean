/-
# QuestScript.Statement.Json -- written statements

A statement is written as an object that begins with what it is, followed by its parts.
Fields may be read in any order, and those that may be null may be absent.
-/
import QuestScript.Json.Value
import QuestScript.Statement.Basic

namespace QuestScript

set_option autoImplicit false

namespace CompositeKind

/-- Every kind, in the order of their declaration. -/
def all : List CompositeKind :=
  [.block, .variables, .ifElse, .whileLoop, .expression, .returning, .assignment, .binary,
    .postfixed, .prefixed, .ternary, .cast, .arrayAccess]

/-- The name of a kind in written statements. -/
def tag : CompositeKind → String
  | .block => "block"
  | .variables => "variable"
  | .ifElse => "if"
  | .whileLoop => "while"
  | .expression => "expression"
  | .returning => "return"
  | .assignment => "assignment"
  | .binary => "binary"
  | .postfixed => "postfix"
  | .prefixed => "prefix"
  | .ternary => "ternary"
  | .cast => "cast"
  | .arrayAccess => "array_access"

/-- The kind with a given tag. -/
def ofTag? (text : String) : Option CompositeKind := all.find? fun kind => kind.tag == text

theorem ofTag?_tag (kind : CompositeKind) : ofTag? kind.tag = some kind := by
  cases kind <;> decide

end CompositeKind

namespace LoopControl

/-- Clauses by their places; a clause that is missing is null. -/
def toJson : LoopControl → Json
  | .classic init condition update =>
      .obj [("form", .str "classic"), ("init", Json.ofOption .num init),
        ("condition", Json.ofOption .num condition), ("update", Json.ofOption .num update)]
  | .each binding iterable =>
      .obj [("form", .str "each"), ("binding", .num binding), ("iterable", .num iterable)]

/-- The clauses that a value writes. -/
def ofJson? : Json → Option LoopControl
  | .obj fields => do
      match ← Json.string? "form" fields with
      | "classic" => do
          let init ← Json.optional? Json.asNat? "init" fields
          let condition ← Json.optional? Json.asNat? "condition" fields
          let update ← Json.optional? Json.asNat? "update" fields
          some (.classic init condition update)
      | "each" => do
          let binding ← Json.nat? "binding" fields
          let iterable ← Json.nat? "iterable" fields
          some (.each binding iterable)
      | _ => none
  | _ => none

end LoopControl

namespace Parameter

/-- A parameter with its type first. -/
def toJson (p : Parameter) : Json := .obj [("type_name", .str p.typeName), ("name", .str p.name)]

/-- The parameter that a value writes. -/
def ofJson? : Json → Option Parameter
  | .obj fields => do
      let typeName ← Json.string? "type_name" fields
      let name ← Json.string? "name" fields
      some ⟨typeName, name⟩
  | _ => none

/-- The parameters in the field for them. -/
def listOf? (fields : List (String × Json)) : Option (List Parameter) :=
  match Json.field? "parameters" fields with
  | some (.arr items) => items.mapM ofJson?
  | _ => none

end Parameter

namespace Statement

mutual

/-- A statement and everything in it. -/
def toJson : Statement → Json
  | .typeRef text => .obj [("node", .str "type"), ("text", .str text)]
  | .primary text => .obj [("node", .str "primary"), ("text", .str text)]
  | .token kind text =>
      .obj [("node", .str "token"), ("token_kind", .str kind.tag), ("text", .str text)]
  | .call c =>
      .obj [("node", .str "invocation"), ("receiver", Json.ofOption .str c.receiver),
        ("name", .str c.name), ("arguments", .str c.arguments)]
  | .composite kind children =>
      .obj [("node", .str "composite"), ("kind", .str kind.tag),
        ("children", .arr (toJsonAll children))]
  | .forLoop children control =>
      .obj [("node", .str "for"), ("children", .arr (toJsonAll children)),
        ("control", control.toJson)]
  | .process name children =>
      .obj [("node", .str "process"), ("name", .str name), ("children", .arr (toJsonAll children))]
  | .function name parameters children =>
      .obj [("node", .str "function"), ("name", .str name),
        ("parameters", .arr (parameters.map Parameter.toJson)),
        ("children", .arr (toJsonAll children))]

/-- Statements and everything in them. -/
def toJsonAll : List Statement → List Json
  | [] => []
  | s :: ss => s.toJson :: toJsonAll ss

end

mutual

/-- The statement that a value writes. -/
def ofJson? : Json → Option Statement
  | .obj fields => do
      match ← Json.string? "node" fields with
      | "type" => (Json.string? "text" fields).map .typeRef
      | "primary" => (Json.string? "text" fields).map .primary
      | "token" => do
          let kind ← (Json.string? "token_kind" fields).bind TokenKind.ofTag?
          let text ← Json.string? "text" fields
          some (.token kind text)
      | "invocation" => do
          let receiver ← Json.optional? Json.asString? "receiver" fields
          let name ← Json.string? "name" fields
          let arguments ← Json.string? "arguments" fields
          some (.call ⟨receiver, name, arguments⟩)
      | "composite" => do
          let kind ← (Json.string? "kind" fields).bind CompositeKind.ofTag?
          let children ← childrenOf? fields
          some (.composite kind children)
      | "for" => do
          let children ← childrenOf? fields
          let control ← (Json.field? "control" fields).bind LoopControl.ofJson?
          some (.forLoop children control)
      | "process" => do
          let name ← Json.string? "name" fields
          let children ← childrenOf? fields
          some (.process name children)
      | "function" => do
          let name ← Json.string? "name" fields
          let parameters ← Parameter.listOf? fields
          let children ← childrenOf? fields
          some (.function name parameters children)
      | _ => none
  | _ => none

/-- The statements in the field for children. -/
def childrenOf? : List (String × Json) → Option (List Statement)
  | [] => none
  | (name, value) :: rest =>
      if name = "children" then
        match value with
        | .arr items => ofJsonAll? items
        | _ => none
      else childrenOf? rest

/-- The statements that values write; one that does not write any spoils all. -/
def ofJsonAll? : List Json → Option (List Statement)
  | [] => some []
  | j :: js => do
      let s ← ofJson? j
      let ss ← ofJsonAll? js
      some (s :: ss)

end

end Statement

end QuestScript
