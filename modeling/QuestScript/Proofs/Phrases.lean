/-
# QuestScript.Proofs.Phrases -- what stands under the rules, level by level

`production` leaves open which expressions stand where.  `phrase` does not: it says how
tightly the operands of an operator must bind themselves, which is what makes a tree the only
one for its tokens.  Expressions have levels (`Tree.level`), an assignment binding loosest and
a chain of suffixes tightest, and a binary operator stands between operands of which the left
one may be of its own level and the right one must be tighter.

Two phrases look at more than levels.  A cast has an operand that does not begin with a sign,
for a type in parentheses before a sign is read as a value.  And a branch with an `else`
behind it must not end with an `if` without one, for the `else` would be taken by that
(`Tree.Dangling`).

The phrases leave one choice open.  Brackets behind `new` and a type may belong to the type,
to the sizes of an array or to an index of what was made, and they are read as early as they
can be: a type takes every empty pair that follows it, and an array without elements every
pair that follows its sizes.  `strict` says so of the two rules concerned.
-/
import QuestScript.Proofs.ExpressionWords

namespace QuestScript

open Grammar (Precedence)

set_option autoImplicit false

/-! ## Levels -/

/-- The levels of expressions, loosest first. -/
inductive Level where
  | assignment | ternary
  | binary (p : Precedence)
  | unary | suffixed
deriving DecidableEq, Repr

/-- The place of a level among all. -/
def Level.rank : Level → Nat
  | .assignment => 0
  | .ternary => 1
  | .binary p => 1 + p.rank
  | .unary => 8
  | .suffixed => 9

namespace Tree

/-- The level of the operator that a node over an operator holds. -/
def operator? (t : Tree) : Option Precedence :=
  match t.significant with
  | [leaf] => leaf.tokenKind?.bind Precedence.ofKind?
  | _ => none

/-- The level of an expression, by what stands at its top. -/
def level (t : Tree) : Level :=
  match t.label with
  | .rule .assignmentExpr => .assignment
  | .rule .ternaryExpr => .ternary
  | .rule .binaryExpr =>
      match t.significant with
      | [_, op, _] =>
          match op.operator? with
          | some p => .binary p
          | none => .assignment
      | _ => .assignment
  | .rule .prefixExpr | .rule .castExpr => .unary
  | _ => .suffixed

/-- The statement ends with an `if` without an `else`, or is one. -/
inductive Dangling : Tree → Prop where
  | noElse (t : Tree) (isIf : t.label = .rule .ifStatement)
      (noElse : ∀ child ∈ t.significant, child.label ≠ .token .kwElse) : Dangling t
  | last (t child : Tree) (isStmt : t.label.isStatement)
      (ends : t.significant.getLast? = some child) (below : Dangling child) : Dangling t

end Tree

namespace Grammar

open QuestScript.Tree (Dangling)
open scoped Computability

/-! ## Phrases -/

/-- An expression of a level or tighter. -/
def exprAt (l : Level) : Language Tree :=
  single fun t => t.label.isExpression ∧ l.rank ≤ t.level.rank

/-- An expression tighter than a level. -/
def exprAbove (l : Level) : Language Tree :=
  single fun t => t.label.isExpression ∧ l.rank < t.level.rank

/-- A binary operator of a level. -/
def operatorAt (p : Precedence) : Language Tree :=
  single fun t => t.label = .rule .binaryOp ∧ t.operator? = some p

/-- An operator between its operands, which group to the left. -/
def operation (p : Precedence) : Language Tree :=
  exprAt (.binary p) * operatorAt p * exprAbove (.binary p)

/-- What may be cast: an operand that begins with neither a sign nor an increment. -/
def castOperand : Language Tree :=
  single fun t => t.label.isExpression ∧ Level.unary.rank ≤ t.level.rank ∧
    ∃ k, (wordOf [t]).head? = some k ∧ Form.startsCastOperand k

/-- Brackets with an expression in them or nothing. -/
def bracket : Language Tree := tok .lBracket * opt expr * tok .rBracket

/-- What follows `new` and a type: arguments, brackets with elements behind them or not, or
elements. -/
def creation : Language Tree :=
  nodeOf .arguments + (bracket * bracket∗ * opt elements + elements)

/-- A statement that an `else` may stand behind. -/
def settled : Language Tree := single fun t => t.label.isStatement ∧ ¬ t.Dangling

/-- What stands under a rule, levels taken into account. -/
def phrase : Rule → Language Tree
  | .typeRef => {nodes | ∃ d, ∃ w ∈ typeWords d, nodes.map Tree.label = w.map Label.token}
  | .ifStatement =>
      tok .kwIf * (tok .lParen * expr * tok .rParen) * (stmt + settled * (tok .kwElse * stmt))
  | .assignmentExpr => exprAt .ternary * nodeOf .assignmentOperator * expr
  | .ternaryExpr =>
      exprAt (.binary .or) * tok .question * exprAt .ternary * tok .colon * exprAt .ternary
  | .binaryExpr => {nodes | ∃ p, nodes ∈ operation p}
  | .prefixExpr => tokOf Form.isUnary * exprAt .unary
  | .castExpr => tok .lParen * nodeOf .typeRef * tok .rParen * castOperand
  | .postfixExpr => exprAt .suffixed * tokOf Form.isIncrement
  | .arrayAccessExpr => exprAt .suffixed * tok .lBracket * expr * tok .rBracket
  | .methodInvoke => exprAt .suffixed * tok .dot * tok .identifier * nodeOf .arguments
  | .primary =>
      tokOf Form.isAtom + closedString + tok .identifier + tok .lParen * expr * tok .rParen +
        tok .kwNew * nodeOf .typeRef * creation + exprAt .suffixed * tok .dot * tok .identifier
  | rule => production rule

/-- Every node of the tree is an instance of its phrase, and none holds skipped tokens. -/
def Grammatical (t : Tree) : Prop :=
  ∀ node ∈ t.nodes, ∀ rule, node.label = .rule rule →
    rule ≠ .error ∧ node.significant ∈ phrase rule

/-! ### Phrases are productions -/

theorem single_mono {p q : Tree → Prop} (h : ∀ t, p t → q t) : single p ≤ single q := by
  rintro _ ⟨t, rfl, ht⟩
  exact ⟨t, rfl, h t ht⟩

theorem exprAt_le (l : Level) : exprAt l ≤ expr := single_mono fun _ h => h.1

theorem exprAbove_le (l : Level) : exprAbove l ≤ exprAt l :=
  single_mono fun _ h => ⟨h.1, h.2.le⟩

theorem settled_le : settled ≤ stmt := single_mono fun _ h => h.1

theorem castOperand_le : castOperand ≤ exprAt .unary := single_mono fun _ h => ⟨h.1, h.2.1⟩

theorem operatorAt_le (p : Precedence) : operatorAt p ≤ nodeOf .binaryOp :=
  single_mono fun _ h => h.1

theorem operation_le (p : Precedence) : operation p ≤ production .binaryExpr :=
  mul_le_mul' (mul_le_mul' (exprAt_le _) (operatorAt_le p)) ((exprAbove_le _).trans (exprAt_le _))

theorem creation_le : creation ≤ created := by
  have brackets : bracket * bracket∗ ≤ bracket∗ := mul_kstar_le_kstar
  unfold creation created
  gcongr
  exact brackets

theorem mem_kstar_of_forall {L : Language Tree} {nodes : List Tree} (h : ∀ t ∈ nodes, [t] ∈ L) :
    nodes ∈ L∗ := by
  induction nodes with
  | nil => exact Language.nil_mem_kstar L
  | cons t nodes ih =>
      obtain ⟨first, rest⟩ := List.forall_mem_cons.mp h
      exact (mul_kstar_le_kstar : L * L∗ ≤ L∗) (Language.append_mem_mul first (ih rest))

theorem spelled_le {d : Nat} {w : List TokenKind} (h : w ∈ typeWords d) {nodes : List Tree}
    (labels : nodes.map Tree.label = w.map Label.token) : nodes ∈ typeTokens := by
  obtain ⟨v, rfl⟩ := cons_of_mem_typeWords h
  obtain ⟨t, rest, rfl, label, labels⟩ := List.map_eq_cons_iff.mp labels
  refine mem_single_mul.mpr ⟨t, rest, rfl, label, mem_kstar_of_forall fun u member => ?_⟩
  obtain ⟨k, inside, same⟩ : ∃ k ∈ v, Label.token k = u.label := by
    have := List.mem_map_of_mem (f := Tree.label) member
    rwa [labels, List.mem_map] at this
  exact ⟨u, rfl, k, same.symm, isTypeToken_of_mem h (List.mem_cons_of_mem _ inside)⟩

theorem phrase_le_production (rule : Rule) : phrase rule ≤ production rule := by
  have mono {K K' L : Language Tree} (h : K ≤ K') : K * L ≤ K' * L := mul_le_mul' h le_rfl
  cases rule
  case typeRef =>
    rintro nodes ⟨d, w, word, labels⟩
    exact spelled_le word labels
  case ifStatement =>
    have branches : stmt + settled * (tok .kwElse * stmt) ≤ stmt * opt (tok .kwElse * stmt) := by
      rw [opt, mul_add, mul_one]
      exact add_le_add le_rfl (mono settled_le)
    exact (mul_le_mul' le_rfl branches).trans (mul_assoc _ _ _).ge
  case assignmentExpr => exact mono (mono (exprAt_le _))
  case ternaryExpr =>
    exact mul_le_mul' (mono (mul_le_mul' (mono (exprAt_le _)) (exprAt_le _))) (exprAt_le _)
  case binaryExpr =>
    rintro nodes ⟨p, member⟩
    exact operation_le p member
  case prefixExpr => exact mul_le_mul' le_rfl (exprAt_le _)
  case postfixExpr => exact mono (exprAt_le _)
  case castExpr => exact mul_le_mul' le_rfl (castOperand_le.trans (exprAt_le _))
  case arrayAccessExpr => exact mono (mono (mono (exprAt_le _)))
  case methodInvoke => exact mono (mono (mono (exprAt_le _)))
  case primary =>
    exact add_le_add (add_le_add le_rfl (mul_le_mul' le_rfl creation_le))
      (mono (mono (exprAt_le _)))
  all_goals exact le_rfl

/-! ## Strict phrases -/

/-- Brackets with an expression in them. -/
def sized : Language Tree := tok .lBracket * expr * tok .rBracket

/-- An array with sizes, of which the first is given, and without elements. -/
def sizedArray : Language Tree := tok .kwNew * nodeOf .typeRef * (sized * bracket∗)

/-- What else may follow `new` and a type. -/
def initialized : Language Tree :=
  nodeOf .arguments + (sized * bracket∗ * elements + elements)

/-- An operand with suffixes that an index may stand behind. -/
def indexable : Language Tree :=
  single fun t => t.label.isExpression ∧ Level.suffixed.rank ≤ t.level.rank ∧
    t.significant ∉ sizedArray

/-- What stands under a rule where brackets are taken as early as they can be. -/
def strict : Rule → Language Tree
  | .primary =>
      tokOf Form.isAtom + closedString + tok .identifier + tok .lParen * expr * tok .rParen +
        (sizedArray + tok .kwNew * nodeOf .typeRef * initialized) +
          exprAt .suffixed * tok .dot * tok .identifier
  | .arrayAccessExpr => indexable * tok .lBracket * expr * tok .rBracket
  | rule => phrase rule

theorem indexable_le : indexable ≤ exprAt .suffixed := single_mono fun _ h => ⟨h.1, h.2.1⟩

theorem sized_le : sized ≤ bracket := by
  unfold sized bracket opt
  gcongr
  exact le_add_self

theorem sizedArray_le : sizedArray ≤ tok .kwNew * nodeOf .typeRef * creation := by
  refine mul_le_mul' le_rfl ?_
  calc sized * bracket∗ ≤ bracket * bracket∗ := mul_le_mul' sized_le le_rfl
    _ = bracket * bracket∗ * 1 := (mul_one _).symm
    _ ≤ bracket * bracket∗ * opt elements := mul_le_mul' le_rfl le_self_add
    _ ≤ creation := le_self_add.trans le_add_self

theorem initialized_le : initialized ≤ creation := by
  unfold initialized creation opt
  gcongr
  · exact sized_le
  · exact le_add_self

theorem strict_le_phrase (rule : Rule) : strict rule ≤ phrase rule := by
  cases rule
  case primary =>
    exact add_le_add (add_le_add le_rfl (add_le sizedArray_le (mul_le_mul' le_rfl initialized_le)))
      le_rfl
  case arrayAccessExpr =>
    exact mul_le_mul' (mul_le_mul' (mul_le_mul' indexable_le le_rfl) le_rfl) le_rfl
  all_goals exact le_rfl

theorem starts_sizedArray : Starts (fun label => label = .token .kwNew) sizedArray :=
  starts_mul (starts_mul (starts_tok rfl))

theorem ends_sizedArray : Ends (fun label => label = .token .rBracket) sizedArray :=
  ends_mul (ends_mul_kstar (ends_mul (ends_tok rfl)) (ends_mul (ends_tok rfl)))

/-- What does not begin with `new` is no array. -/
theorem not_sizedArray_of_starts {L : Language Tree}
    (h : Starts (fun label => label ≠ .token .kwNew) L) {nodes : List Tree} (member : nodes ∈ L) :
    nodes ∉ sizedArray := by
  intro array
  obtain ⟨first, rest, rfl, notNew⟩ := h nodes member
  obtain ⟨first', rest', same, isNew⟩ := starts_sizedArray _ array
  obtain ⟨rfl, -⟩ := List.cons.inj same
  exact notNew isNew

/-- What is made with arguments or elements is no array of given sizes alone. -/
theorem not_sizedArray_of_initialized {L : Language Tree} {nodes : List Tree}
    (member : nodes ∈ L * initialized) : nodes ∉ sizedArray := by
  have ends : Ends (fun label => label ≠ .token .rBracket) (L * initialized) :=
    ends_mul (ends_add (ends_nodeOf (by simp))
      (ends_add (ends_mul (ends_mul (ends_tok (by simp)))) (ends_mul (ends_tok (by simp)))))
  intro array
  obtain ⟨init, last, rfl, notBracket⟩ := ends nodes member
  obtain ⟨init', last', same, isBracket⟩ := ends_sizedArray _ array
  obtain rfl : last = last' := by simpa using (List.append_inj' same rfl).2
  exact notBracket isBracket

end Grammar

end QuestScript
