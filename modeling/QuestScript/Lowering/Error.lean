/-
# QuestScript.Lowering.Error -- why a script has no module

A script that was read may still not describe anything: its kind is unknown, an item or
statement does not belong where it stands, or a tree that was made elsewhere does not
have the shape that reading gives to trees.
-/
import QuestScript.Diagnostic
import QuestScript.Module.Kind

namespace QuestScript

open Text (Span)

set_option autoImplicit false

/-- What is missing in a tree that reading cannot have made. -/
inductive Malformation where
  | headerWithoutName
  | itemWithoutName (item : Label)
  | itemWithoutBody (item : Label)
  | notABlock (found : Label)
  | notExactlyOne (wrapper : Label) (text : String)
  | callWithoutName
  | methodCallWithoutReceiver
  | methodCallWithoutName
  | callWithoutArguments
  | emptyClause (clause : Label)
  | eachLoopIncomplete (text : String)
  | loopWithoutBody (text : String)
deriving DecidableEq, Repr

/-- A text in back quotes. -/
private def backQuoted (text : String) : String := "\x60" ++ text ++ "\x60"

/-- What is missing, in words. -/
def Malformation.message : Malformation → String
  | .headerWithoutName => "business header missing name"
  | .itemWithoutName item => item.name ++ " missing name"
  | .itemWithoutBody item => item.name ++ " missing body"
  | .notABlock found => "expected Block, found " ++ found.name
  | .notExactlyOne wrapper text =>
      wrapper.name ++ " must wrap exactly one node: " ++ backQuoted text
  | .callWithoutName => "function invocation missing name"
  | .methodCallWithoutReceiver => "method invocation without receiver"
  | .methodCallWithoutName => "method invocation missing name"
  | .callWithoutArguments => "invocation missing argument list"
  | .emptyClause clause => "empty " ++ clause.name
  | .eachLoopIncomplete text =>
      "for-each loop needs both a binding and an iterable: " ++ backQuoted text
  | .loopWithoutBody text => "for loop without body: " ++ backQuoted text

/-- Why a script has no module. -/
inductive LoweringError where
  | unrecognizedKind (found : Option String)
  | noPipeline (kind : DocumentKind)
  | unsupportedStatement (label : Label) (span : Span)
  | unsupportedNode (label : Label) (span : Span)
  | malformed (what : Malformation)
  | invalidScript (diagnostics : List Diagnostic)
deriving DecidableEq, Repr

namespace LoweringError

/-- Why there is no module, in words. -/
def message : LoweringError → String
  | .unrecognizedKind none => "unrecognized document kind"
  | .unrecognizedKind (some found) => "unrecognized document kind: " ++ found
  | .noPipeline kind => "no pipeline registered for kind " ++ backQuoted kind.code
  | .unsupportedStatement label span =>
      "unsupported statement " ++ backQuoted label.name ++ " at " ++ span.place
  | .unsupportedNode label span =>
      "unsupported node " ++ backQuoted label.name ++ " at " ++ span.place
  | .malformed what => "invalid CST: " ++ what.message
  | .invalidScript diagnostics =>
      "script has " ++ toString diagnostics.length ++ " syntax error(s), first: " ++
        (diagnostics.head?.map Diagnostic.message).getD ""

end LoweringError

/-- What can come of lowering. -/
abbrev Lowered (α : Type) := Except LoweringError α

end QuestScript
