/-
# QuestScript.Statement.Basic -- statements

A script's processes and functions are kept as statements: the same order and the same
words as in the script, without its comments and with blanks made uniform.  Types and
operands are kept as text, calls as their parts, and everything else as a composite of
smaller statements and single tokens.

A loop knows which of its children are its clauses by their places among its children.
-/
import QuestScript.Token.Kind

namespace QuestScript

set_option autoImplicit false

/-- A call with its arguments as text; with a receiver it is a method call. -/
structure Call where
  receiver : Option String
  name : String
  arguments : String
deriving DecidableEq, Repr, Inhabited

/-- Statements and expressions that consist of their children alone. -/
inductive CompositeKind where
  | block | variables | ifElse | whileLoop | expression | returning
  | assignment | binary | postfixed | prefixed | ternary | cast | arrayAccess
deriving DecidableEq, Repr, Inhabited

/-- Which children are the clauses of a loop. -/
inductive LoopControl where
  | classic (init condition update : Option Nat)
  | each (binding iterable : Nat)
deriving DecidableEq, Repr, Inhabited

/-- A parameter of a function. -/
structure Parameter where
  typeName : String
  name : String
deriving DecidableEq, Repr, Inhabited

/-- A statement or a part of one. -/
inductive Statement where
  | typeRef (text : String)
  /-- A literal, a name, a member, an expression in parentheses or a creator. -/
  | primary (text : String)
  | token (kind : TokenKind) (text : String)
  | call (call : Call)
  | composite (kind : CompositeKind) (children : List Statement)
  | forLoop (children : List Statement) (control : LoopControl)
  | process (name : String) (children : List Statement)
  | function (name : String) (parameters : List Parameter) (children : List Statement)
deriving Repr, Inhabited

/-- What a statement is. -/
inductive StatementKind where
  | process | function | forLoop | token | typeRef | primary | methodCall | functionCall
  | composite (kind : CompositeKind)
deriving DecidableEq, Repr

namespace StatementKind

/-- The name of a kind in listings. -/
def name : StatementKind → String
  | .process => "Process"
  | .function => "Function"
  | .forLoop => "For"
  | .token => "Token"
  | .typeRef => "Type"
  | .primary => "PrimaryExpr"
  | .methodCall => "MethodInvokeExpr"
  | .functionCall => "FunctionInvokeExpr"
  | .composite .block => "Block"
  | .composite .variables => "Variable"
  | .composite .ifElse => "If"
  | .composite .whileLoop => "While"
  | .composite .expression => "Expression"
  | .composite .returning => "Return"
  | .composite .assignment => "AssignmentExpr"
  | .composite .binary => "BinaryExpr"
  | .composite .postfixed => "PostfixExpr"
  | .composite .prefixed => "PrefixExpr"
  | .composite .ternary => "TernaryExpr"
  | .composite .cast => "CastExpr"
  | .composite .arrayAccess => "ArrayAccessExpr"

end StatementKind

/-- A named body. -/
structure Process where
  name : String
  body : List Statement
deriving Repr, Inhabited

/-- A named body with parameters. -/
structure Function where
  name : String
  parameters : List Parameter
  body : List Statement
deriving Repr, Inhabited

/-- A loop with its clauses among its children, its body being the last of them. -/
structure ForLoop where
  children : List Statement
  control : LoopControl
deriving Repr, Inhabited

namespace Statement

/-- What a statement is; a call with a receiver is a method call. -/
def kind : Statement → StatementKind
  | .typeRef _ => .typeRef
  | .primary _ => .primary
  | .token _ _ => .token
  | .call c => if c.receiver.isSome then .methodCall else .functionCall
  | .composite k _ => .composite k
  | .forLoop _ _ => .forLoop
  | .process _ _ => .process
  | .function _ _ _ => .function

/-- The parts of a statement in order; leaves have none. -/
def children : Statement → List Statement
  | .composite _ cs | .forLoop cs _ | .process _ cs | .function _ _ cs => cs
  | _ => []

/-- The statement is made of others, though perhaps of none. -/
def isComposite : Statement → Bool
  | .composite _ _ | .forLoop _ _ | .process _ _ | .function _ _ _ => true
  | _ => false

mutual

/-- The loops in a statement, outer before inner, in order. -/
def loops : Statement → List ForLoop
  | .composite _ cs => loopsAll cs
  | .forLoop cs control => ⟨cs, control⟩ :: loopsAll cs
  | .process _ cs => loopsAll cs
  | .function _ _ cs => loopsAll cs
  | _ => []

/-- The loops in several statements. -/
def loopsAll : List Statement → List ForLoop
  | [] => []
  | s :: ss => s.loops ++ loopsAll ss

end

mutual

/-- The calls in a statement, in order.  Calls inside the text of an operand are part of
that text and not found. -/
def calls : Statement → List Call
  | .call c => [c]
  | .composite _ cs => callsAll cs
  | .forLoop cs _ => callsAll cs
  | .process _ cs => callsAll cs
  | .function _ _ cs => callsAll cs
  | _ => []

/-- The calls in several statements. -/
def callsAll : List Statement → List Call
  | [] => []
  | s :: ss => s.calls ++ callsAll ss

end

mutual

/-- The number of single tokens in a statement. -/
def tokenCount : Statement → Nat
  | .token _ _ => 1
  | .composite _ cs => tokenCountAll cs
  | .forLoop cs _ => tokenCountAll cs
  | .process _ cs => tokenCountAll cs
  | .function _ _ cs => tokenCountAll cs
  | _ => 0

/-- The number of single tokens in several statements. -/
def tokenCountAll : List Statement → Nat
  | [] => 0
  | s :: ss => s.tokenCount + tokenCountAll ss

end

end Statement

namespace ForLoop

/-- The child at a place, if there is a place and a child there. -/
private def childAt (loop : ForLoop) (place : Option Nat) : Option Statement :=
  place.bind fun i => loop.children[i]?

/-- What a classic loop begins with. -/
def init? (loop : ForLoop) : Option Statement :=
  match loop.control with
  | .classic init _ _ => loop.childAt init
  | .each _ _ => none

/-- The condition of a classic loop. -/
def condition? (loop : ForLoop) : Option Statement :=
  match loop.control with
  | .classic _ condition _ => loop.childAt condition
  | .each _ _ => none

/-- What a classic loop does after each round. -/
def update? (loop : ForLoop) : Option Statement :=
  match loop.control with
  | .classic _ _ update => loop.childAt update
  | .each _ _ => none

/-- The variable of a loop over elements. -/
def binding? (loop : ForLoop) : Option Statement :=
  match loop.control with
  | .classic _ _ _ => none
  | .each binding _ => loop.childAt (some binding)

/-- What a loop over elements goes through. -/
def iterable? (loop : ForLoop) : Option Statement :=
  match loop.control with
  | .classic _ _ _ => none
  | .each _ iterable => loop.childAt (some iterable)

/-- What is done in each round. -/
def body? (loop : ForLoop) : Option Statement := loop.children.getLast?

end ForLoop

end QuestScript
