/-
# QuestScript.Token.Kind -- the kinds of tokens

Every stretch of a script is a token of one of these kinds, blanks and comments
(`trivia`) included.  A kind has a tag, its name in written trees, and a display
form, the way messages speak of it; for keywords, annotations, operators and
delimiters the display form is the token's only spelling.
-/

namespace QuestScript

set_option autoImplicit false

/-- What a token is. -/
inductive TokenKind where
  | number | string | kwTrue | kwFalse | kwNull | identifier | kindMark | businessMark
  | kwService | kwPrd | kwProcess | kwFunction | kwRequirement | kwIf | kwElse | kwFor | kwWhile
  | kwReturn | kwNew | plus | minus | star | slash | percent | bang | plusPlus | minusMinus
  | assign | plusAssign | minusAssign | starAssign | slashAssign | percentAssign | eqEq | bangEq
  | lt | gt | ltEq | gtEq | ampAmp | pipePipe | question | colon | lParen | rParen | lBracket
  | rBracket | lBrace | rBrace | semi | comma | dot | backquote | trivia | eof | error
deriving DecidableEq, Repr, Inhabited

namespace TokenKind

/-- Every kind, in the order of their declaration. -/
def all : List TokenKind :=
  [.number, .string, .kwTrue, .kwFalse, .kwNull, .identifier, .kindMark, .businessMark,
    .kwService, .kwPrd, .kwProcess, .kwFunction, .kwRequirement, .kwIf, .kwElse, .kwFor,
    .kwWhile, .kwReturn, .kwNew, .plus, .minus, .star, .slash, .percent, .bang, .plusPlus,
    .minusMinus, .assign, .plusAssign, .minusAssign, .starAssign, .slashAssign, .percentAssign,
    .eqEq, .bangEq, .lt, .gt, .ltEq, .gtEq, .ampAmp, .pipePipe, .question, .colon, .lParen,
    .rParen, .lBracket, .rBracket, .lBrace, .rBrace, .semi, .comma, .dot, .backquote, .trivia,
    .eof, .error]

/-- The name of a kind in written trees. -/
def tag : TokenKind → String
  | .number => "NUMBER"
  | .string => "STRING"
  | .kwTrue => "TRUE"
  | .kwFalse => "FALSE"
  | .kwNull => "NULL"
  | .identifier => "IDENTIFIER"
  | .kindMark => "KIND_ANNOTATION"
  | .businessMark => "BUSINESS_ANNOTATION"
  | .kwService => "SERVICE"
  | .kwPrd => "PRD"
  | .kwProcess => "PROCESS"
  | .kwFunction => "FUNCTION"
  | .kwRequirement => "REQUIREMENT"
  | .kwIf => "IF"
  | .kwElse => "ELSE"
  | .kwFor => "FOR"
  | .kwWhile => "WHILE"
  | .kwReturn => "RETURN"
  | .kwNew => "NEW"
  | .plus => "PLUS"
  | .minus => "MINUS"
  | .star => "STAR"
  | .slash => "SLASH"
  | .percent => "PERCENT"
  | .bang => "BANG"
  | .plusPlus => "PLUS_PLUS"
  | .minusMinus => "MINUS_MINUS"
  | .assign => "ASSIGN"
  | .plusAssign => "PLUS_ASSIGN"
  | .minusAssign => "MINUS_ASSIGN"
  | .starAssign => "STAR_ASSIGN"
  | .slashAssign => "SLASH_ASSIGN"
  | .percentAssign => "PERCENT_ASSIGN"
  | .eqEq => "EQ_EQ"
  | .bangEq => "BANG_EQ"
  | .lt => "LT"
  | .gt => "GT"
  | .ltEq => "LT_EQ"
  | .gtEq => "GT_EQ"
  | .ampAmp => "AMP_AMP"
  | .pipePipe => "PIPE_PIPE"
  | .question => "QUESTION"
  | .colon => "COLON"
  | .lParen => "L_PAREN"
  | .rParen => "R_PAREN"
  | .lBracket => "L_BRACKET"
  | .rBracket => "R_BRACKET"
  | .lBrace => "L_BRACE"
  | .rBrace => "R_BRACE"
  | .semi => "SEMI"
  | .comma => "COMMA"
  | .dot => "DOT"
  | .backquote => "BACKQUOTE"
  | .trivia => "WHITESPACE"
  | .eof => "EOF"
  | .error => "ERROR"

/-- The kind with a given tag. -/
def ofTag? (name : String) : Option TokenKind := all.find? fun kind => kind.tag == name

/-- The short name of a kind in listings; it differs from the tag for trivia only. -/
def symbol : TokenKind → String
  | .trivia => "WS"
  | kind => kind.tag

/-- How messages speak of a token of this kind. -/
def display : TokenKind → String
  | .number => "number"
  | .string => "string"
  | .kwTrue => "true"
  | .kwFalse => "false"
  | .kwNull => "null"
  | .identifier => "identifier"
  | .kindMark => "@kind"
  | .businessMark => "@business"
  | .kwService => "service"
  | .kwPrd => "prd"
  | .kwProcess => "process"
  | .kwFunction => "function"
  | .kwRequirement => "requirement"
  | .kwIf => "if"
  | .kwElse => "else"
  | .kwFor => "for"
  | .kwWhile => "while"
  | .kwReturn => "return"
  | .kwNew => "new"
  | .plus => "+"
  | .minus => "-"
  | .star => "*"
  | .slash => "/"
  | .percent => "%"
  | .bang => "!"
  | .plusPlus => "++"
  | .minusMinus => "--"
  | .assign => "="
  | .plusAssign => "+="
  | .minusAssign => "-="
  | .starAssign => "*="
  | .slashAssign => "/="
  | .percentAssign => "%="
  | .eqEq => "=="
  | .bangEq => "!="
  | .lt => "<"
  | .gt => ">"
  | .ltEq => "<="
  | .gtEq => ">="
  | .ampAmp => "&&"
  | .pipePipe => "||"
  | .question => "?"
  | .colon => ":"
  | .lParen => "("
  | .rParen => ")"
  | .lBracket => "["
  | .rBracket => "]"
  | .lBrace => "\x7b"
  | .rBrace => "\x7d"
  | .semi => ";"
  | .comma => ","
  | .dot => "."
  | .backquote => "\x60"
  | .trivia => "whitespace"
  | .eof => "end of file"
  | .error => "error"

/-- Blanks and comments, which no rule of the grammar mentions. -/
def isTrivia : TokenKind → Bool
  | .trivia => true
  | _ => false

/-- Literal values. -/
def isLiteral : TokenKind → Bool
  | .number | .string | .kwTrue | .kwFalse | .kwNull => true
  | _ => false

/-- Words that cannot be names. -/
def isKeyword : TokenKind → Bool
  | .kwService | .kwPrd | .kwProcess | .kwFunction | .kwRequirement | .kwIf | .kwElse | .kwFor
  | .kwWhile | .kwReturn | .kwNew | .kwTrue | .kwFalse | .kwNull => true
  | _ => false

/-- `=` and the operators that combine it with arithmetic. -/
def isAssignment : TokenKind → Bool
  | .assign | .plusAssign | .minusAssign | .starAssign | .slashAssign | .percentAssign => true
  | _ => false

/-- Tokens that open an item of a script. -/
def startsItem : TokenKind → Bool
  | .kindMark | .businessMark | .kwProcess | .kwFunction | .kwRequirement => true
  | _ => false

/-- The keywords, each with its spelling as its display form. -/
def keywords : List TokenKind := all.filter isKeyword

theorem mem_all (kind : TokenKind) : kind ∈ all := by cases kind <;> decide

theorem ofTag?_tag (kind : TokenKind) : ofTag? kind.tag = some kind := by
  cases kind <;> decide

end TokenKind

end QuestScript
