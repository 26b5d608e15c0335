/-
# QuestScript.Grammar.Reading -- reading tokens by a form

`Form.read` runs a form on a list of tokens.  It either comes to the end of the form,
with the nodes of the frame and the tokens left, or gives up with a `Fault`: why, and
the tokens that were left then.  Either way it says which faults were reported on the
way, where the form recovered from them.

Reading is by recursion on the form.  A repeated form makes one round for each token at
most, for a round that leaves the tokens as they are is the last; an entry is read by
whatever reads the level below, `Entry.read n` with `n` levels left, and with none left
it is a fault.
-/
import QuestScript.Grammar.Form
import QuestScript.Tree.Basic

namespace QuestScript.Grammar

set_option autoImplicit false

/-- Why a form gave up. -/
inductive Cause where
  /-- The next token is not what the form needs. -/
  | expected (what : String)
  /-- The next token is a string without its closing quote. -/
  | openString
  /-- No level of nesting is left. -/
  | tooDeep
deriving DecidableEq, Repr

/-- Why a form gave up and what was left to read then. -/
structure Fault where
  cause : Cause
  rest : List Token
deriving DecidableEq, Repr

/-- What comes of reading a form. -/
inductive Outcome where
  | done (frame : List Tree) (rest : List Token) (reported : List Fault)
  | failed (fault : Fault) (reported : List Fault)
deriving Repr

/-- A way to read, given the frame so far and the tokens. -/
abbrev Reader := List Tree → List Token → Outcome

/-- The kind of the next token that is not trivia, `eof` if there is none. -/
def nextKind (ts : List Token) : TokenKind :=
  ((ts.find? fun t => !t.isTrivia).map Token.kind).getD .eof

/-- The trivia that comes next. -/
def leadingTrivia (ts : List Token) : List Token := ts.takeWhile Token.isTrivia

/-- The tokens from the next one on that is not trivia. -/
def afterTrivia (ts : List Token) : List Token := ts.dropWhile Token.isTrivia

theorem leadingTrivia_append_afterTrivia (ts : List Token) :
    leadingTrivia ts ++ afterTrivia ts = ts := List.takeWhile_append_dropWhile

/-- A string token closes with the quote it opens with, and that quote is not escaped: an
even number of backslashes stands before it. -/
def closesQuote (text : String) : Bool :=
  match text.toList with
  | [] => false
  | quote :: body =>
      match body.reverse with
      | [] => false
      | last :: inner => last == quote && (inner.takeWhile (· == '\\')).length % 2 == 0

namespace Outcome

/-- Go on reading where a form came to its end. -/
def andThen (o : Outcome) (next : Reader) : Outcome :=
  match o with
  | .failed fault reported => .failed fault reported
  | .done frame rest reported =>
      match next frame rest with
      | .done frame rest more => .done frame rest (reported ++ more)
      | .failed fault more => .failed fault (reported ++ more)

/-- Add the nodes of an inner frame to the outer one. -/
def into (outer : List Tree) : Outcome → Outcome
  | .done frame rest reported => .done (outer ++ frame) rest reported
  | .failed fault reported => .failed fault reported

/-- Report the fault, if there is one, and go on from it. -/
def orElse (o : Outcome) (skip : List Token → Outcome) : Outcome :=
  match o with
  | .done frame rest reported => .done frame rest reported
  | .failed fault reported =>
      match skip fault.rest with
      | .done frame rest more => .done frame rest (reported ++ fault :: more)
      | .failed fault' more => .failed fault' (reported ++ fault :: more)

/-- The form can be read, and a token of an admitted kind stands behind it. -/
def leadsTo (admits : TokenKind → Bool) : Outcome → Bool
  | .done _ rest _ => admits (nextKind rest)
  | .failed _ _ => false

end Outcome

namespace Reader

/-- The next token, if `test` lets it pass. -/
def ofToken (test : Token → Option Cause) (atEnd : Cause) : Reader := fun frame ts =>
  match afterTrivia ts with
  | [] => .failed ⟨atEnd, ts⟩ []
  | t :: rest =>
      match test t with
      | some cause => .failed ⟨cause, ts⟩ []
      | none => .done (frame ++ (leadingTrivia ts).map Tree.leaf ++ [Tree.leaf t]) rest []

/-- At most `rounds` rounds, as long as the tokens look right. -/
def rounds (looks : List Token → Bool) (body : Reader) : Nat → Reader
  | 0 => fun frame ts => .done frame ts []
  | n + 1 => fun frame ts =>
      if looks ts then (body frame ts).andThen (rounds looks body n) else .done frame ts []

end Reader

namespace Form

/-- Read a form, with `inner` to read the entries it enters. -/
def read (inner : Entry → Reader) : Form → Reader
  | .empty => fun frame ts => .done frame ts []
  | .trivia => fun frame ts =>
      .done (frame ++ (leadingTrivia ts).map Tree.leaf) (afterTrivia ts) []
  | .token admits expected =>
      Reader.ofToken (fun t => if admits t.kind then none else some (.expected expected))
        (.expected expected)
  | .string expected =>
      Reader.ofToken
        (fun t =>
          if t.kind ≠ .string then some (.expected expected)
          else if closesQuote t.text then none
          else some .openString)
        (.expected expected)
  | .refuse expected => fun _ ts => .failed ⟨.expected expected, ts⟩ []
  | .seq first second => fun frame ts => (read inner first frame ts).andThen (read inner second)
  | .frame body => fun frame ts => (read inner body [] ts).into frame
  | .close rule => fun frame ts => .done [Tree.ofRule rule frame] ts []
  | .choose look admits yes no => fun frame ts =>
      if (read inner look [] ts).leadsTo admits then read inner yes frame ts
      else read inner no frame ts
  | .repeated look admits body => fun frame ts =>
      Reader.rounds (fun ts => (read inner look [] ts).leadsTo admits) (read inner body)
        (ts.length + 1) frame ts
  | .enter entry => inner entry
  | .recover body skip => fun frame ts =>
      (read inner body frame ts).orElse (read inner skip frame)

end Form

end QuestScript.Grammar
