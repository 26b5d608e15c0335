/-
# QuestScript.Lowering.Statement -- statements from trees

Lowering turns a node of a tree into a statement, or into nothing for the back quotes
around a name.  What it keeps and what it drops:

* blanks and comments become one blank, and none at all behind a token that is written
  with a blank behind it anyway;
* types and operands keep their text as it is;
* a call keeps the text of its receiver and of its arguments;
* the nodes around a single operator or clause give way to what they hold;
* every other statement or expression becomes a composite of its lowered children.

`lowerChildren` says where each statement came from, so that a loop can find its clauses.
-/
import QuestScript.Lowering.Error
import QuestScript.Statement.Basic
import QuestScript.Statement.Spacing
import QuestScript.Text.Enclosed

namespace QuestScript

set_option autoImplicit false

/-- The composite that a statement of the grammar becomes; loops become loops. -/
def CompositeKind.ofStatement? : Rule → Option CompositeKind
  | .block => some .block
  | .variableStatement => some .variables
  | .ifStatement => some .ifElse
  | .whileStatement => some .whileLoop
  | .expressionStatement => some .expression
  | .returnStatement => some .returning
  | _ => none

/-- The composite that an expression of the grammar becomes. -/
def CompositeKind.ofExpression? : Rule → Option CompositeKind
  | .assignmentExpr => some .assignment
  | .binaryExpr => some .binary
  | .prefixExpr => some .prefixed
  | .postfixExpr => some .postfixed
  | .ternaryExpr => some .ternary
  | .castExpr => some .cast
  | .arrayAccessExpr => some .arrayAccess
  | _ => none

namespace Tree

/-! ## Calls -/

/-- The text between the parentheses of a call, without blanks at its ends. -/
def argumentsText (call : Tree) : Lowered String :=
  match call.findRule? .arguments with
  | none => .error (.malformed .callWithoutArguments)
  | some arguments =>
      let text := arguments.fullText
      match Text.inside? '(' ')' text.toList with
      | some inner => .ok (Text.trimmed (String.ofList inner))
      | none => .ok (Text.trimmed text)

/-- The parts of a call by name. -/
def functionCall (call : Tree) : Lowered Call :=
  match call.findToken? .identifier with
  | none => .error (.malformed .callWithoutName)
  | some name => call.argumentsText.map fun arguments => ⟨none, name.ownText, arguments⟩

/-- The parts of a call on a receiver, which is the first child. -/
def methodCall (call : Tree) : Lowered Call :=
  match call.children with
  | [] => .error (.malformed .methodCallWithoutReceiver)
  | receiver :: rest =>
      match rest.find? fun child => child.label = .token .identifier with
      | none => .error (.malformed .methodCallWithoutName)
      | some name =>
          call.argumentsText.map fun arguments =>
            ⟨some receiver.fullText, name.ownText, arguments⟩

/-! ## Loops -/

/-- A statement and the label of the node it came from. -/
abbrev Sourced := Label × Statement

/-- The place of the first statement that came from a rule. -/
def placeOf? (rule : Rule) (parts : List Sourced) : Option Nat :=
  parts.findIdx? fun part => part.1 = .rule rule

/-- The clauses of a loop: of a loop over elements both, or any of a classic loop. -/
def loopControl (loop : Tree) (parts : List Sourced) : Lowered LoopControl :=
  match placeOf? .forEachBinding parts, placeOf? .forIterable parts with
  | some binding, some iterable => .ok (.each binding iterable)
  | none, none =>
      .ok (.classic (placeOf? .forInit parts) (placeOf? .forCondition parts)
        (placeOf? .forUpdate parts))
  | _, _ => .error (.malformed (.eachLoopIncomplete loop.fullText))

/-- A loop from its lowered children, the last of which must be a body. -/
def loopOf (loop : Tree) (parts : List Sourced) : Lowered Statement := do
  let control ← loopControl loop parts
  match parts.getLast? with
  | none => .error (.malformed (.loopWithoutBody loop.fullText))
  | some (_, last) =>
      if last.kind = .token then .error (.malformed (.loopWithoutBody loop.fullText))
      else .ok (.forLoop (parts.map Prod.snd) control)

/-! ## Nodes -/

mutual

/-- Lower one node. -/
def lower : Tree → Lowered (Option Statement)
  | ⟨label, span, children, text⟩ =>
      let node : Tree := ⟨label, span, children, text⟩
      match label with
      | .token .backquote => .ok none
      | .token .trivia => .ok (some (.token .trivia " "))
      | .token kind => .ok (some (.token kind (text.getD "")))
      | .rule .typeRef => .ok (some (.typeRef node.fullText))
      | .rule .primary => .ok (some (.primary node.fullText))
      | .rule .functionInvoke => node.functionCall.map fun call => some (.call call)
      | .rule .methodInvoke => node.methodCall.map fun call => some (.call call)
      | .rule .binaryOp | .rule .assignmentOperator => lowerOnly node children
      | .rule .forCondition | .rule .forIterable => do
          match ← lowerOnly node children with
          | some s => .ok (some s)
          | none => .error (.malformed (.emptyClause label))
      | .rule .forInit => do
          let parts ← lowerChildren none children
          let kind := if (node.findRule? .typeRef).isSome then .variables else .expression
          .ok (some (.composite kind (parts.map Prod.snd)))
      | .rule .forUpdate => do
          let parts ← lowerChildren none children
          .ok (some (.composite .expression (parts.map Prod.snd)))
      | .rule .forEachBinding => do
          let parts ← lowerChildren none children
          .ok (some (.composite .variables (parts.map Prod.snd)))
      | .rule .forStatement => do
          let parts ← lowerChildren none children
          (loopOf node parts).map some
      | .rule rule =>
          match CompositeKind.ofStatement? rule <|> CompositeKind.ofExpression? rule with
          | some kind => do
              let parts ← lowerChildren none children
              .ok (some (.composite kind (parts.map Prod.snd)))
          | none => .error (.unsupportedNode label span)

/-- Lower nodes in order, dropping those that become nothing, and trivia behind a token
that brings its own blank.  `previous` is the kind of the token before, if there is one. -/
def lowerChildren (previous : Option TokenKind) : List Tree → Lowered (List Sourced)
  | [] => .ok []
  | child :: rest =>
      if child.isTrivia && previous.any TokenKind.endsInSpace then
        lowerChildren child.tokenKind? rest
      else do
        let first ← child.lower
        let others ← lowerChildren child.tokenKind? rest
        match first with
        | some s => .ok ((child.label, s) :: others)
        | none => .ok others

/-- Lower the only node of some that is not trivia. -/
def lowerOnly (wrapper : Tree) : List Tree → Lowered (Option Statement)
  | [] => .error (.malformed (.notExactlyOne wrapper.label wrapper.fullText))
  | child :: rest =>
      if child.isTrivia then lowerOnly wrapper rest
      else if rest.all isTrivia then child.lower
      else .error (.malformed (.notExactlyOne wrapper.label wrapper.fullText))

end

/-- Lower nodes in order. -/
def lowerAll (nodes : List Tree) : Lowered (List Statement) :=
  (lowerChildren none nodes).map fun parts => parts.map Prod.snd

/-! ## Statements -/

/-- Lower a loop, whatever the node says it is. -/
def lowerLoop (loop : Tree) : Lowered Statement := do
  loopOf loop (← lowerChildren none loop.children)

/-- Lower a node that must be a statement. -/
def lowerStatement (node : Tree) : Lowered Statement :=
  match node.label with
  | .rule .forStatement => node.lowerLoop
  | .rule rule =>
      match CompositeKind.ofStatement? rule with
      | some kind => (lowerAll node.children).map fun parts => .composite kind parts
      | none => .error (.unsupportedStatement node.label node.span)
  | .token _ => .error (.unsupportedStatement node.label node.span)

/-- Lower nodes that must all be statements. -/
def lowerStatements (nodes : List Tree) : Lowered (List Statement) := nodes.mapM lowerStatement

/-- The statements of a body, without its braces and the blanks between statements. -/
def lowerBlock (block : Tree) : Lowered (List Statement) :=
  if block.label = .rule .block then
    lowerStatements (block.children.filter fun child => !child.isToken)
  else .error (.malformed (.notABlock block.label))

end Tree

end QuestScript
