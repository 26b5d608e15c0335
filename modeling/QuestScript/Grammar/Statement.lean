/-
# QuestScript.Grammar.Statement -- statements

    block      = "{" statement* "}"
    statement  = block | if | for | while | return | variable | expression? ";"
    variable   = declarators ";"                             when a type and a name follow
    declarators = type declarator ("," declarator)*
    declarator = name ("=" expression)?
    if         = "if" "(" expression ")" statement ("else" statement)?
    while      = "while" "(" expression ")" statement
    return     = "return" expression? ";"
    for        = "for" "(" header ")" statement
    header     = type name ":" expression
               | (declarators | expressions)? ";" expression? ";" expressions?

A block recovers from a statement that cannot be read: the tokens up to and including the
next `;`, or up to a `}` or the next item of the script, are put under an error node.
-/
import QuestScript.Grammar.Expression

namespace QuestScript.Grammar.Form

set_option autoImplicit false

/-- A statement, one level deeper. -/
def statement : Form := frame (enter .statement)

/-! ## Blocks -/

/-- Where a block ends, with its brace or without. -/
def endsBlock (kind : TokenKind) : Bool := kind == .rBrace || kind == .eof || kind.startsItem

/-- The tokens that a statement could not be made of. -/
def skippedStatement : Form :=
  unlessNext endsBlock
    (node .error
      (takeWhile (fun kind => !endsBlock kind && kind != .semi) >>
        whenNext (· == .semi) (one .semi)))

/-- Statements up to where the block ends, with the trivia behind each. -/
def statements : Form :=
  whileNext (fun kind => !endsBlock kind) (recover statement skippedStatement >> trivia)

/-- Statements in braces. -/
def block : Form := node .block (one .lBrace >> trivia >> statements >> one .rBrace)

/-! ## Declarations -/

/-- A variable with or without its first value. -/
def declarator : Form :=
  token (· == .identifier) "variable name" >>
  whenNext (· == .assign) (one .assign >> trivia >> expression)

/-- Variables of one type. -/
def declarators : Form := typeRef >> commaSeparated declarator

/-- A form when a type and a name come next, another one otherwise. -/
def ifDeclaration (yes no : Form) : Form := choose typeParts (· == .identifier) yes no

/-! ## Control flow -/

/-- A condition in parentheses. -/
def condition : Form := one .lParen >> trivia >> expression >> one .rParen

/-- A condition, what is done if it holds, and perhaps what is done otherwise. -/
def ifStatement : Form :=
  node .ifStatement
    (one .kwIf >> condition >> trivia >> statement >>
      whenNext (· == .kwElse) (one .kwElse >> trivia >> statement))

/-- What is done as long as a condition holds. -/
def whileStatement : Form :=
  node .whileStatement (one .kwWhile >> condition >> trivia >> statement)

/-- The end of a function, with or without a value. -/
def returnStatement : Form :=
  node .returnStatement
    (one .kwReturn >> unlessNext (· == .semi) (trivia >> expression) >> one .semi)

/-- The header of a loop over the elements of something. -/
def eachHeader : Form :=
  trivia >> node .forEachBinding (typeRef >> one .identifier) >> one .colon >> trivia >>
  node .forIterable expression

/-- What a loop begins with: variables or expressions. -/
def forInit : Form := node .forInit (ifDeclaration declarators expressions)

/-- The header of a loop with a condition. -/
def classicHeader : Form :=
  unlessNext (· == .semi) (trivia >> forInit) >> one .semi >>
  unlessNext (· == .semi) (trivia >> node .forCondition expression) >> one .semi >>
  unlessNext (· == .rParen) (trivia >> node .forUpdate expressions)

/-- A loop; a type, a name and a colon ahead make it one over elements. -/
def forStatement : Form :=
  node .forStatement
    (one .kwFor >> one .lParen >>
      choose (typeParts >> one .identifier) (· == .colon) eachHeader classicHeader >>
      one .rParen >> trivia >> statement)

/-! ## Any statement -/

/-- Variables of one type, as a statement. -/
def variableStatement : Form := node .variableStatement (declarators >> one .semi)

/-- An expression as a statement, or no expression at all. -/
def expressionStatement : Form :=
  node .expressionStatement (unlessNext (· == .semi) expression >> one .semi)

/-- A statement, by the token it begins with. -/
def anyStatement : Form :=
  ifNext (· == .lBrace) block
    (ifNext (· == .kwIf) ifStatement
      (ifNext (· == .kwFor) forStatement
        (ifNext (· == .kwWhile) whileStatement
          (ifNext (· == .kwReturn) returnStatement
            (ifDeclaration variableStatement expressionStatement)))))

end QuestScript.Grammar.Form
