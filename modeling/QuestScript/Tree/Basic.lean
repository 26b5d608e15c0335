/-
# QuestScript.Tree.Basic -- concrete syntax trees

A tree keeps everything a script says: its leaves are the tokens, blanks and comments
included, and its inner nodes are the rules that were recognised.  Trees may also come
from elsewhere, so a node of any label may carry any span, children and text; a node
that has a text of its own speaks for itself, and its children are not read.

`Tree.tokens` is the view of a tree as the tokens at its leaves, left to right.
-/
import QuestScript.Token.Basic
import QuestScript.Tree.Label

namespace QuestScript

open Text (Span)

set_option autoImplicit false

/-- A node with what it stands for, where, over what, and the text of a leaf. -/
structure Tree where
  label : Label
  span : Span
  children : List Tree
  text : Option String
deriving Repr, Inhabited

namespace Tree

/-! ## Equality -/

mutual

/-- Trees are compared node by node. -/
def decEq : (a b : Tree) → Decidable (a = b)
  | ⟨la, sa, ca, ta⟩, ⟨lb, sb, cb, tb⟩ =>
      if h : la = lb ∧ sa = sb ∧ ta = tb then
        match decEqAll ca cb with
        | .isTrue hc => .isTrue (by obtain ⟨rfl, rfl, rfl⟩ := h; rw [hc])
        | .isFalse hc => .isFalse (by intro e; injection e; exact hc (by assumption))
      else .isFalse (by intro e; injection e with h1 h2 _ h4; exact h ⟨h1, h2, h4⟩)

/-- Lists of trees are compared tree by tree. -/
def decEqAll : (as bs : List Tree) → Decidable (as = bs)
  | [], [] => .isTrue rfl
  | [], _ :: _ => .isFalse (by intro e; cases e)
  | _ :: _, [] => .isFalse (by intro e; cases e)
  | a :: as, b :: bs =>
      match decEq a b, decEqAll as bs with
      | .isTrue h, .isTrue hs => .isTrue (by rw [h, hs])
      | .isFalse h, _ => .isFalse (by intro e; injection e; exact h (by assumption))
      | _, .isFalse hs => .isFalse (by intro e; injection e; exact hs (by assumption))

end

instance : DecidableEq Tree := decEq

/-! ## Building -/

/-- The leaf for a token. -/
def leaf (t : Token) : Tree := ⟨.token t.kind, t.span, [], some t.text⟩

/-- The span from the first to the last of some nodes. -/
def cover : List Tree → Span
  | [] => .zero
  | first :: rest => ⟨first.span.start, (rest.getLast?.getD first).span.stop⟩

/-- The node of a rule over its parts. -/
def ofRule (rule : Rule) (parts : List Tree) : Tree := ⟨.rule rule, cover parts, parts, none⟩

/-! ## Looking -/

/-- The kind of a leaf. -/
def tokenKind? (t : Tree) : Option TokenKind := t.label.tokenKind?

/-- The node is a leaf. -/
def isToken (t : Tree) : Bool := t.tokenKind?.isSome

/-- A leaf of blanks and comments. -/
def isTrivia (t : Tree) : Bool := t.tokenKind?.any TokenKind.isTrivia

/-- The node's own text, empty where there is none. -/
def ownText (t : Tree) : String := t.text.getD ""

mutual

/-- The text a node covers. -/
def fullText : Tree → String
  | ⟨_, _, _, some text⟩ => text
  | ⟨_, _, children, none⟩ => fullTexts children

/-- The text of several nodes, one behind the other. -/
def fullTexts : List Tree → String
  | [] => ""
  | t :: ts => t.fullText ++ fullTexts ts

end

mutual

/-- The tokens at the leaves, left to right. -/
def tokens : Tree → List Token
  | ⟨.token kind, span, _, text⟩ => [⟨kind, span, text.getD ""⟩]
  | ⟨.rule _, _, children, _⟩ => tokensAll children

/-- The tokens of several nodes, one behind the other. -/
def tokensAll : List Tree → List Token
  | [] => []
  | t :: ts => t.tokens ++ tokensAll ts

end

mutual

/-- A node and everything in it, outer before inner, in order. -/
def nodes : Tree → List Tree
  | ⟨label, span, children, text⟩ => ⟨label, span, children, text⟩ :: nodesAll children

/-- Several nodes and everything in them. -/
def nodesAll : List Tree → List Tree
  | [] => []
  | t :: ts => t.nodes ++ nodesAll ts

end

/-- The children without blanks and comments. -/
def significant (t : Tree) : List Tree := t.children.filter fun child => !child.isTrivia

/-- The first child with a label. -/
def find? (t : Tree) (label : Label) : Option Tree :=
  t.children.find? fun child => child.label = label

/-- All children with a label. -/
def findAll (t : Tree) (label : Label) : List Tree :=
  t.children.filter fun child => child.label = label

/-- The first child that stands for a rule. -/
def findRule? (t : Tree) (rule : Rule) : Option Tree := t.find? (.rule rule)

/-- The first child that is a token of a kind. -/
def findToken? (t : Tree) (kind : TokenKind) : Option Tree := t.find? (.token kind)

@[simp] theorem isTrivia_leaf (t : Token) : (leaf t).isTrivia = t.isTrivia := rfl

@[simp] theorem isTrivia_ofRule (rule : Rule) (parts : List Tree) :
    (ofRule rule parts).isTrivia = false := rfl

@[simp] theorem tokens_leaf (t : Token) : (leaf t).tokens = [t] := by
  simp [leaf, tokens]

@[simp] theorem tokens_ofRule (rule : Rule) (parts : List Tree) :
    (ofRule rule parts).tokens = tokensAll parts := by
  simp [ofRule, tokens]

theorem tokensAll_append (as bs : List Tree) :
    tokensAll (as ++ bs) = tokensAll as ++ tokensAll bs := by
  induction as with
  | nil => simp [tokensAll]
  | cons a as ih => simp [tokensAll, ih]

end Tree

end QuestScript
