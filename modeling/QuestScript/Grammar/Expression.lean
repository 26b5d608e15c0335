/-
# QuestScript.Grammar.Expression -- types and expressions

    type       = name ("." name)* ("<" (arg ("," arg)*)? ">")? ("[" "]")*
    arg        = "?" | type
    expression = ternary (assignment-operator expression)?
    ternary    = binary ("?" ternary ":" ternary)?
    binary     = operand (binary-operator operand)*          grouped by precedence
    operand    = ("!" | "-" | "+" | "++" | "--") operand
               | "(" type ")" operand                        when that reads as a cast
               | primary suffix*
    suffix     = "." name arguments? | "[" expression "]" | "++" | "--"
    primary    = number | string | "true" | "false" | "null" | name arguments?
               | "(" expression ")" | creator
    creator    = "new" type (arguments | ("[" expression? "]")+ array? | array)
    arguments  = "(" (expression ("," expression)*)? ")"
    array      = "{" (expression ("," expression)*)? "}"

A parenthesised type is a cast when a token stands behind it that can begin an operand
but no binary operator; so `(a) - b` is a subtraction.  Every expression, every branch of
a conditional, every operator before an operand, every cast, every link of a chain of
binary operators or suffixes and every list of type arguments is one level deeper.
-/
import QuestScript.Grammar.Form

namespace QuestScript.Grammar.Form

set_option autoImplicit false

/-! ## Types -/

/-- The tokens of a type. -/
def typeParts : Form :=
  token (· == .identifier) "type" >>
  repeated (one .dot) (· == .identifier) (one .dot >> one .identifier) >>
  whenNext (· == .lt) (enter .typeArguments) >>
  repeated (one .lBracket) (· == .rBracket) (one .lBracket >> one .rBracket)

/-- A type, one node over its tokens. -/
def typeRef : Form := node .typeRef typeParts

/-- A wildcard or the tokens of a type. -/
def typeArgument : Form := ifNext (· == .question) (one .question) typeParts

/-- The tokens of a list of type arguments, which may be empty. -/
def typeArguments : Form :=
  one .lt >>
  ifNext (· == .gt) (one .gt) (commaSeparated typeArgument >> one .gt)

/-! ## Lists of expressions -/

/-- An expression, one level deeper. -/
def expression : Form := frame (enter .assignment)

/-- Expressions with commas between them. -/
def expressions : Form := commaSeparated (trivia >> expression)

/-- The arguments of a call. -/
def arguments : Form :=
  node .arguments (one .lParen >> unlessNext (· == .rParen) expressions >> one .rParen)

/-- The elements of an array. -/
def arrayElements : Form :=
  one .lBrace >> unlessNext (· == .rBrace) expressions >> one .rBrace

/-! ## Operands -/

/-- What `new` makes: an object, an array of given sizes, or an array of elements. -/
def creator : Form :=
  one .kwNew >> trivia >> typeRef >>
  ifNext (· == .lParen) (trivia >> arguments)
    (ifNext (· == .lBracket)
      (whileNext (· == .lBracket)
          (one .lBracket >> unlessNext (· == .rBracket) (trivia >> expression) >> one .rBracket) >>
        whenNext (· == .lBrace) arrayElements)
      (ifNext (· == .lBrace) arrayElements (refuse "(")))

/-- Tokens that are an expression on their own. -/
def isAtom : TokenKind → Bool
  | .number | .kwTrue | .kwFalse | .kwNull => true
  | _ => false

/-- A literal, a name, a call, an expression in parentheses or a creator. -/
def primary : Form :=
  ifNext isAtom (take isAtom >> close .primary)
    (ifNext (· == .string) (string "string" >> close .primary)
      (ifNext (· == .identifier)
        (one .identifier >>
          ifNext (· == .lParen) (trivia >> arguments >> close .functionInvoke) (close .primary))
        (ifNext (· == .lParen)
          (one .lParen >> trivia >> expression >> one .rParen >> close .primary)
          (ifNext (· == .kwNew) (creator >> close .primary) (refuse "expression")))))

/-- Operators that change a variable. -/
def isIncrement : TokenKind → Bool
  | .plusPlus | .minusMinus => true
  | _ => false

/-- Tokens that begin a suffix. -/
def startsSuffix : TokenKind → Bool
  | .dot | .lBracket | .plusPlus | .minusMinus => true
  | _ => false

/-- More suffixes of the operand in the frame. -/
def suffixes : Form := whenNext startsSuffix (enter .suffix)

/-- One suffix of the operand in the frame, and more. -/
def suffix : Form :=
  ifNext (· == .dot)
    (one .dot >> token (· == .identifier) "member name" >>
      ifNext (· == .lParen) (trivia >> arguments >> close .methodInvoke) (close .primary))
    (ifNext (· == .lBracket)
      (one .lBracket >> trivia >> expression >> one .rBracket >> close .arrayAccessExpr)
      (take isIncrement >> close .postfixExpr)) >>
  suffixes

/-- Operators that stand before their operand. -/
def isUnary : TokenKind → Bool
  | .bang | .minus | .plus | .plusPlus | .minusMinus => true
  | _ => false

/-- Tokens that can begin the operand of a cast.  Signs are not among them. -/
def startsCastOperand : TokenKind → Bool
  | .identifier | .number | .string | .kwTrue | .kwFalse | .kwNull | .kwNew | .lParen
  | .bang => true
  | _ => false

/-- A type in parentheses, as it is looked for ahead. -/
def castAhead : Form := one .lParen >> typeParts >> one .rParen

/-- An operand with the operators before and the suffixes behind it. -/
def operand : Form :=
  ifNext isUnary (enter .unary)
    (choose castAhead startsCastOperand (enter .cast) (primary >> suffixes))

/-- An operator and its operand. -/
def unary : Form := take isUnary >> trivia >> frame operand >> close .prefixExpr

/-- A cast and its operand. -/
def cast : Form :=
  one .lParen >> trivia >> typeRef >> one .rParen >> trivia >> frame operand >> close .castExpr

/-! ## Operators between operands -/

/-- More operators that bind at least as tightly as `least`. -/
def links (least : Precedence) : Form :=
  least.upward.foldr (fun p other => ifNext p.admits (enter (.link least p)) other) empty

/-- Operands joined by operators that bind at least as tightly as `least`. -/
def binary (least : Precedence) : Form := operand >> links least

/-- The right operand of an operator. -/
def rightOperand (p : Precedence) : Form :=
  match p.tighter? with
  | some q => binary q
  | none => operand

/-- An operator and its right operand, and more operators behind. -/
def link (least own : Precedence) : Form :=
  trivia >> node .binaryOp (take own.admits) >> trivia >> frame (rightOperand own) >>
  close .binaryExpr >> links least

/-- A conditional, or only what would be its condition. -/
def ternary : Form :=
  binary .or >>
  whenNext (· == .question)
    (one .question >> trivia >> frame (enter .ternary) >> one .colon >> trivia >>
      frame (enter .ternary) >> close .ternaryExpr)

/-- An assignment, or only what would be its target. -/
def assignment : Form :=
  ternary >>
  whenNext TokenKind.isAssignment
    (trivia >> node .assignmentOperator (take TokenKind.isAssignment) >> trivia >> expression >>
      close .assignmentExpr)

end QuestScript.Grammar.Form
