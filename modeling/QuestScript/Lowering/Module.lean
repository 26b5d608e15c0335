/-
# QuestScript.Lowering.Module -- modules from trees

The items of a script are lowered one after the other into its module.  Of two items that
declare the same name the later one counts, and the last header names the business.
Either all items are lowered or there is no module: the first one that fails decides.
-/
import QuestScript.Lowering.Statement
import QuestScript.Module.Basic
import QuestScript.Statement.Rendering

namespace QuestScript.Tree

set_option autoImplicit false

/-! ## Items -/

/-- The name that an item declares. -/
def declaredName (item : Tree) : Lowered String :=
  match item.findToken? .identifier with
  | some name => .ok name.ownText
  | none => .error (.malformed (.itemWithoutName item.label))

/-- The statements of an item's body. -/
def lowerBody (item : Tree) : Lowered (List Statement) :=
  match item.findRule? .block with
  | some block => block.lowerBlock
  | none => .error (.malformed (.itemWithoutBody item.label))

/-- The process that an item declares. -/
def lowerProcess (item : Tree) : Lowered Process := do
  let name ← item.declaredName
  let body ← item.lowerBody
  .ok ⟨name, body⟩

/-- The parameters among some nodes: each name takes the last type before it, and a name
without one is none.  `type` is the type that waits for its name. -/
def parametersOf (type : Option String) : List Tree → List Parameter
  | [] => []
  | node :: rest =>
      match node.label, type with
      | .rule .typeRef, _ => parametersOf (some node.fullText) rest
      | .token .identifier, some typeName => ⟨typeName, node.ownText⟩ :: parametersOf none rest
      | _, _ => parametersOf type rest

/-- The function that an item declares. -/
def lowerFunction (item : Tree) : Lowered Function := do
  let name ← item.declaredName
  let parameters := (item.findRule? .parameters).elim [] fun ps => parametersOf none ps.significant
  let body ← item.lowerBody
  .ok ⟨name, parameters, body⟩

/-- The name of a requirement and its items without their quotes. -/
def lowerRequirement (item : Tree) : Lowered (String × List String) := do
  let name ← item.declaredName
  .ok (name, (item.findAll (.token .string)).map fun s => Text.unquoted s.ownText)

/-- The name between the back quotes of a header, without blanks at its ends. -/
def businessName (header : Tree) : Lowered String :=
  match header.findRule? .businessName with
  | none => .error (.malformed .headerWithoutName)
  | some name =>
      (lowerAll name.children).map fun parts =>
        Text.trimmed (Statement.renderAll .content parts)

/-! ## Scripts -/

/-- Add one item to a service. -/
def addToService (s : Service) (item : Tree) : Lowered Service :=
  match item.label with
  | .rule .kindDecl => .ok s
  | .rule .businessHeader => item.businessName.map fun name => { s with business := name }
  | .rule .processDecl => item.lowerProcess.map fun p => s.putProcess p.name p
  | .rule .functionDecl => item.lowerFunction.map fun f => s.putFunction f.name f
  | label => .error (.unsupportedNode label item.span)

/-- Add one item to a product document. -/
def addToDocument (d : ProductDocument) (item : Tree) : Lowered ProductDocument :=
  match item.label with
  | .rule .kindDecl => .ok d
  | .rule .businessHeader => item.businessName.map fun name => { d with business := name }
  | .rule .requirementDecl =>
      item.lowerRequirement.map fun (name, items) => d.putRequirement name items
  | label => .error (.unsupportedNode label item.span)

/-- The service that a script describes. -/
def lowerService (script : Tree) : Lowered Service :=
  script.significant.foldlM addToService (.named "")

/-- The product document that a script describes. -/
def lowerDocument (script : Tree) : Lowered ProductDocument :=
  script.significant.foldlM addToDocument (.named "")

/-- What a script says it is in its first item. -/
def documentKind (script : Tree) : Lowered DocumentKind :=
  match script.significant.head? with
  | none => .error (.unrecognizedKind none)
  | some first =>
      if first.label = .rule .kindDecl then
        match first.significant[1]? with
        | none => .error (.unrecognizedKind none)
        | some literal =>
            match DocumentKind.ofCode? literal.ownText with
            | some kind => .ok kind
            | none => .error (.unrecognizedKind (some literal.ownText))
      else .error (.unrecognizedKind none)

end QuestScript.Tree
