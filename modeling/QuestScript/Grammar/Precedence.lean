/-
# QuestScript.Grammar.Precedence -- how tightly binary operators bind

Six levels, all of them grouping to the left: an operator takes as its right operand
only what binds more tightly than itself.
-/
import QuestScript.Token.Kind

namespace QuestScript.Grammar

set_option autoImplicit false

/-- The levels of binary operators, loosest first. -/
inductive Precedence where
  | or | and | equality | comparison | term | factor
deriving DecidableEq, Repr, Inhabited

namespace Precedence

/-- Every level, loosest first. -/
def all : List Precedence := [.or, .and, .equality, .comparison, .term, .factor]

/-- The place of a level among all. -/
def rank : Precedence → Nat
  | .or => 1
  | .and => 2
  | .equality => 3
  | .comparison => 4
  | .term => 5
  | .factor => 6

/-- The level of a binary operator. -/
def ofKind? : TokenKind → Option Precedence
  | .pipePipe => some .or
  | .ampAmp => some .and
  | .eqEq | .bangEq => some .equality
  | .lt | .gt | .ltEq | .gtEq => some .comparison
  | .plus | .minus => some .term
  | .star | .slash | .percent => some .factor
  | _ => none

/-- The next tighter level. -/
def tighter? : Precedence → Option Precedence
  | .or => some .and
  | .and => some .equality
  | .equality => some .comparison
  | .comparison => some .term
  | .term => some .factor
  | .factor => none

/-- A kind is a binary operator of this level. -/
def admits (p : Precedence) (kind : TokenKind) : Bool := ofKind? kind = some p

/-- The levels that bind at least as tightly. -/
def upward (p : Precedence) : List Precedence := all.filter fun q => p.rank ≤ q.rank

theorem mem_upward {p q : Precedence} : q ∈ p.upward ↔ p.rank ≤ q.rank := by
  cases p <;> cases q <;> decide

theorem rank_tighter? {p q : Precedence} (h : p.tighter? = some q) : q.rank = p.rank + 1 := by
  cases p <;> simp [tighter?] at h <;> subst h <;> rfl

end Precedence

end QuestScript.Grammar
