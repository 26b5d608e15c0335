/-
# QuestScript.Tree.Label -- what the nodes of a tree stand for

A node stands for one token or for one rule of the grammar.  Rules have two names: the
one messages and listings use, and the tag of written trees.
-/
import QuestScript.Token.Kind

namespace QuestScript

set_option autoImplicit false

/-- The rules of the grammar; `error` holds tokens that no rule could use. -/
inductive Rule where
  | script | kindDecl | businessHeader | businessName | processDecl | functionDecl | parameters
  | requirementDecl | block | variableStatement | ifStatement | forStatement | forInit
  | forCondition | forUpdate | forEachBinding | forIterable | whileStatement | returnStatement
  | expressionStatement | typeRef | assignmentExpr | assignmentOperator | ternaryExpr
  | binaryExpr | binaryOp | prefixExpr | postfixExpr | castExpr | arrayAccessExpr
  | functionInvoke | methodInvoke | arguments | primary | error
deriving DecidableEq, Repr, Inhabited

namespace Rule

/-- Every rule, in the order of their declaration. -/
def all : List Rule :=
  [.script, .kindDecl, .businessHeader, .businessName, .processDecl, .functionDecl, .parameters,
    .requirementDecl, .block, .variableStatement, .ifStatement, .forStatement, .forInit,
    .forCondition, .forUpdate, .forEachBinding, .forIterable, .whileStatement, .returnStatement,
    .expressionStatement, .typeRef, .assignmentExpr, .assignmentOperator, .ternaryExpr,
    .binaryExpr, .binaryOp, .prefixExpr, .postfixExpr, .castExpr, .arrayAccessExpr,
    .functionInvoke, .methodInvoke, .arguments, .primary, .error]

/-- The name of a rule in messages and listings. -/
def name : Rule → String
  | .script => "Script"
  | .kindDecl => "KindDecl"
  | .businessHeader => "BusinessHeader"
  | .businessName => "BusinessName"
  | .processDecl => "ProcessDecl"
  | .functionDecl => "FunctionDecl"
  | .parameters => "Parameters"
  | .requirementDecl => "RequirementDecl"
  | .block => "Block"
  | .variableStatement => "VariableStatement"
  | .ifStatement => "IfStatement"
  | .forStatement => "ForStatement"
  | .forInit => "ForInit"
  | .forCondition => "ForCondition"
  | .forUpdate => "ForUpdate"
  | .forEachBinding => "ForEachBinding"
  | .forIterable => "ForIterable"
  | .whileStatement => "WhileStatement"
  | .returnStatement => "ReturnStatement"
  | .expressionStatement => "ExpressionStatement"
  | .typeRef => "Type"
  | .assignmentExpr => "AssignmentExpr"
  | .assignmentOperator => "AssignmentOperator"
  | .ternaryExpr => "TernaryExpr"
  | .binaryExpr => "BinaryExpr"
  | .binaryOp => "BinaryOp"
  | .prefixExpr => "PrefixExpr"
  | .postfixExpr => "PostfixExpr"
  | .castExpr => "CastExpr"
  | .arrayAccessExpr => "ArrayAccessExpr"
  | .functionInvoke => "FunctionInvoke"
  | .methodInvoke => "MethodInvoke"
  | .arguments => "Arguments"
  | .primary => "Primary"
  | .error => "Error"

/-- The name of a rule in written trees. -/
def tag : Rule → String
  | .script => "script"
  | .kindDecl => "kind_decl"
  | .businessHeader => "business_header"
  | .businessName => "business_name"
  | .processDecl => "process_decl"
  | .functionDecl => "function_decl"
  | .parameters => "parameters"
  | .requirementDecl => "requirement_decl"
  | .block => "block"
  | .variableStatement => "variable_statement"
  | .ifStatement => "if_statement"
  | .forStatement => "for_statement"
  | .forInit => "for_init"
  | .forCondition => "for_condition"
  | .forUpdate => "for_update"
  | .forEachBinding => "for_each_binding"
  | .forIterable => "for_iterable"
  | .whileStatement => "while_statement"
  | .returnStatement => "return_statement"
  | .expressionStatement => "expression_statement"
  | .typeRef => "type"
  | .assignmentExpr => "assignment_expr"
  | .assignmentOperator => "assignment_operator"
  | .ternaryExpr => "ternary_expr"
  | .binaryExpr => "binary_expr"
  | .binaryOp => "binary_op"
  | .prefixExpr => "prefix_expr"
  | .postfixExpr => "postfix_expr"
  | .castExpr => "cast_expr"
  | .arrayAccessExpr => "array_access_expr"
  | .functionInvoke => "function_invoke"
  | .methodInvoke => "method_invoke"
  | .arguments => "arguments"
  | .primary => "primary"
  | .error => "error"

/-- The rule with a given tag. -/
def ofTag? (text : String) : Option Rule := all.find? fun rule => rule.tag == text

/-- Rules that yield a value. -/
def isExpression : Rule → Bool
  | .assignmentExpr | .ternaryExpr | .binaryExpr | .prefixExpr | .postfixExpr | .castExpr
  | .arrayAccessExpr | .functionInvoke | .methodInvoke | .primary => true
  | _ => false

/-- Rules that stand in the body of a process or function. -/
def isStatement : Rule → Bool
  | .block | .variableStatement | .ifStatement | .forStatement | .whileStatement
  | .returnStatement | .expressionStatement => true
  | _ => false

theorem mem_all (rule : Rule) : rule ∈ all := by cases rule <;> decide

theorem ofTag?_tag (rule : Rule) : ofTag? rule.tag = some rule := by
  cases rule <;> decide

end Rule

/-- What a node of a tree stands for. -/
inductive Label where
  | token (kind : TokenKind)
  | rule (rule : Rule)
deriving DecidableEq, Repr, Inhabited

namespace Label

/-- The name of a label in messages and listings. -/
def name : Label → String
  | .token kind => kind.symbol
  | .rule r => r.name

/-- The kind of token, for the label of a leaf. -/
def tokenKind? : Label → Option TokenKind
  | .token kind => some kind
  | .rule _ => none

/-- The label of a rule that yields a value. -/
def isExpression : Label → Bool
  | .token _ => false
  | .rule r => r.isExpression

/-- The label of a rule that stands in a body. -/
def isStatement : Label → Bool
  | .token _ => false
  | .rule r => r.isStatement

end Label

end QuestScript
