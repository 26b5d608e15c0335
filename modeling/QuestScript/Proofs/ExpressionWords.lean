/-
# QuestScript.Proofs.ExpressionWords -- the tokens that an expression is made of

What the productions say of nodes they say of the tokens below.  Two things are needed to
tell expressions from types where both may stand: an expression closes no parenthesis that
it did not open, and a `>` in it that only tokens of types stand before has an operand
behind it (`Calm`).  Both are kept when words are put one behind the other, and so they are
shown production by production (`worded_of_met`).

A type whose arguments have arguments holds a `>` with no operand behind it
(`closes_inside`), so no expression begins with such a type (`Calm.not_deep`).
-/
import QuestScript.Proofs.Lossless
import QuestScript.Proofs.TypeWords

namespace QuestScript

set_option autoImplicit false

/-- What holds of a tree whenever it holds of its children holds of all trees. -/
theorem Tree.children_induct {P : Tree → Prop}
    (step : ∀ t : Tree, (∀ c ∈ t.children, P c) → P t) : ∀ t, P t
  | ⟨label, span, children, text⟩ => step _ fun c member =>
      have smaller : sizeOf c < sizeOf (Tree.mk label span children text) := by
        have inside : sizeOf c < sizeOf children := List.sizeOf_lt_of_mem member
        simp only [Tree.mk.sizeOf_spec]
        omega
      Tree.children_induct step c
termination_by t => sizeOf t
decreasing_by exact smaller

namespace Grammar

open QuestScript.Tree (tokensAll withoutTrivia)
open scoped Computability

/-! ## Calm words -/

/-- Kinds of tokens that an operand begins with. -/
def startsOperand (kind : TokenKind) : Bool := Form.isUnary kind || Form.startsCastOperand kind

/-- The word begins as an operand does. -/
def Begins (w : List TokenKind) : Prop := ∃ k v, w = k :: v ∧ startsOperand k

/-- The word closes no parenthesis that it did not open. -/
def Enclosed (w : List TokenKind) : Prop := ∀ u v, w = u ++ .rParen :: v → .lParen ∈ u

/-- A word that closes no parenthesis it did not open, and in which an operand stands behind
every `>` that only tokens of types stand before. -/
structure Calm (w : List TokenKind) : Prop where
  enclosed : Enclosed w
  guarded : ∀ u v, w = u ++ .gt :: v → (∀ k ∈ u, isTypeToken k) → Begins v

theorem Begins.append {v : List TokenKind} (h : Begins v) (w : List TokenKind) :
    Begins (v ++ w) := by
  obtain ⟨k, v, rfl, starts⟩ := h
  exact ⟨k, v ++ w, rfl, starts⟩

theorem enclosed_of_not_mem {w : List TokenKind} (h : .rParen ∉ w) : Enclosed w := by
  rintro u v rfl
  simp at h

theorem Enclosed.append {v w : List TokenKind} (hv : Enclosed v) (hw : Enclosed w) :
    Enclosed (v ++ w) := by
  intro u x split
  rcases List.append_eq_append_iff.mp split with ⟨a, rfl, rest⟩ | ⟨a, rfl, rest⟩
  · exact List.mem_append_right v (hw a x rest)
  · cases a with
    | nil => simpa using List.mem_append_right u (hw [] x rest.symm)
    | cons k a =>
        obtain ⟨rfl, rfl⟩ := List.cons.inj rest
        exact hv u a rfl

theorem calm_nil : Calm [] := ⟨enclosed_of_not_mem (by simp), by simp⟩

theorem Calm.append {v w : List TokenKind} (hv : Calm v) (hw : Calm w) : Calm (v ++ w) where
  enclosed := hv.enclosed.append hw.enclosed
  guarded u x split types := by
    rcases List.append_eq_append_iff.mp split with ⟨a, rfl, rest⟩ | ⟨a, rfl, rest⟩
    · exact hw.guarded a x rest fun k member => types k (List.mem_append_right v member)
    · cases a with
      | nil => exact hw.guarded [] x rest.symm (by simp)
      | cons k a =>
          obtain ⟨rfl, rfl⟩ := List.cons.inj rest
          exact (hv.guarded u a rfl types).append w

theorem calm_singleton {k : TokenKind} (notClose : k ≠ .rParen) (notGt : k ≠ .gt) :
    Calm [k] where
  enclosed := enclosed_of_not_mem (by simpa using notClose.symm)
  guarded u v split _ := by
    cases u with
    | nil => exact absurd (List.cons.inj split).1 notGt
    | cons x u => simp at split

/-- Behind an operator an operand begins. -/
theorem Calm.operator {k : TokenKind} {w : List TokenKind} (notClose : k ≠ .rParen)
    (begins : Begins w) (calm : Calm w) : Calm (k :: w) where
  enclosed := (enclosed_of_not_mem (w := [k]) (by simpa using notClose.symm)).append calm.enclosed
  guarded u v split types := by
    cases u with
    | nil =>
        obtain ⟨-, rfl⟩ := List.cons.inj split
        exact begins
    | cons x u =>
        obtain ⟨rfl, rest⟩ := List.cons.inj split
        exact calm.guarded u v rest fun k member => types k (List.mem_cons_of_mem _ member)

/-- Behind what stands in no type only parentheses matter. -/
theorem calm_cons {k : TokenKind} {w : List TokenKind} (notType : isTypeToken k = false)
    (enclosed : Enclosed (k :: w)) : Calm (k :: w) where
  enclosed := enclosed
  guarded u v split types := by
    cases u with
    | nil =>
        rw [(List.cons.inj split).1] at notType
        simp [isTypeToken] at notType
    | cons x u =>
        have isType := types x (by simp)
        rw [← (List.cons.inj split).1, notType] at isType
        simp at isType

theorem calm_lParen (w : List TokenKind) : Calm (.lParen :: w) :=
  calm_cons rfl fun u v split => by
    cases u with
    | nil => simp at split
    | cons x u => simp [(List.cons.inj split).1]

/-- No expression begins with a type whose arguments have arguments. -/
theorem Calm.not_deep {d : Nat} {w v : List TokenKind} (calm : Calm (w ++ v))
    (word : w ∈ typeWords d) : w ∈ typeWords 1 := by
  by_contra deep
  obtain ⟨u, k, x, rfl, next⟩ := closes_inside word deep
  obtain ⟨_, _, same, starts⟩ := calm.guarded u (k :: x ++ v) (by simp) fun k' member =>
    isTypeToken_of_mem word (by simp [member])
  obtain ⟨rfl, -⟩ := List.cons.inj same
  rcases next with rfl | rfl | rfl <;> simp [startsOperand, Form.isUnary,
    Form.startsCastOperand] at starts

/-! ## Words of nodes -/

/-- The kinds of the significant tokens below some nodes. -/
def wordOf (nodes : List Tree) : List TokenKind := kinds (tokensAll nodes)

@[simp] theorem wordOf_nil : wordOf [] = [] := rfl

@[simp] theorem wordOf_append (nodes nodes' : List Tree) :
    wordOf (nodes ++ nodes') = wordOf nodes ++ wordOf nodes' := by
  simp [wordOf, Tree.tokensAll_append]

theorem wordOf_cons (t : Tree) (nodes : List Tree) :
    wordOf (t :: nodes) = wordOf [t] ++ wordOf nodes :=
  wordOf_append [t] nodes

theorem wordOf_token {t : Tree} {k : TokenKind} (label : t.label = .token k) :
    wordOf [t] = if k.isTrivia then [] else [k] := by
  obtain ⟨_, span, children, text⟩ := t
  subst label
  cases trivial : k.isTrivia <;>
    simp [wordOf, kinds, significant, tokensAll, Tree.tokens, Token.isTrivia, trivial]

theorem wordOf_trivia {t : Tree} (h : t.isTrivia) : wordOf [t] = [] := by
  cases label : t.label with
  | token k =>
      have isTrivia : k.isTrivia := by
        simpa [Tree.isTrivia, Tree.tokenKind?, Label.tokenKind?, label] using h
      rw [wordOf_token label, if_pos isTrivia]
  | rule r => simp [Tree.isTrivia, Tree.tokenKind?, Label.tokenKind?, label] at h

@[simp] theorem wordOf_withoutTrivia (nodes : List Tree) :
    wordOf (withoutTrivia nodes) = wordOf nodes := by
  induction nodes with
  | nil => rfl
  | cons t nodes ih =>
      rw [wordOf_cons, ← ih]
      cases trivial : t.isTrivia with
      | true => simp [withoutTrivia, trivial, wordOf_trivia]
      | false => rw [← wordOf_cons]; simp [withoutTrivia, trivial]

theorem wordOf_rule {t : Tree} {rule : Rule} (label : t.label = .rule rule) :
    wordOf [t] = wordOf t.significant := by
  obtain ⟨_, span, children, text⟩ := t
  subst label
  rw [Tree.significant_eq, wordOf_withoutTrivia]
  simp [wordOf, tokensAll, Tree.tokens]

/-! ## Words of productions -/

/-- What words the node of a rule has. -/
def RuleWord (rule : Rule) (w : List TokenKind) : Prop :=
  match rule with
  | .typeRef => ∀ k ∈ w, isTypeToken k
  | .arguments => ∃ v, w = .lParen :: v
  | .assignmentOperator => ∃ k, w = [k] ∧ k.isAssignment
  | .binaryOp => ∃ k, w = [k] ∧ (Precedence.ofKind? k).isSome
  | rule => rule.isExpression → Begins w ∧ Calm w

/-- The node has a word of its rule. -/
def Worded (t : Tree) : Prop := ∀ rule, t.label = .rule rule → RuleWord rule (wordOf [t])

/-- The language has calm words, if its nodes have words of their rules. -/
def CalmOn (L : Language Tree) : Prop :=
  ∀ nodes ∈ L, (∀ t ∈ nodes, Worded t) → Calm (wordOf nodes)

/-- The language has words that begin as operands do. -/
def BeginsOn (L : Language Tree) : Prop :=
  ∀ nodes ∈ L, (∀ t ∈ nodes, Worded t) → Begins (wordOf nodes)

variable {K L : Language Tree}

theorem calmOn_one : CalmOn 1 := by
  rintro _ rfl -
  exact calm_nil

theorem CalmOn.mul (hK : CalmOn K) (hL : CalmOn L) : CalmOn (K * L) := by
  rintro _ ⟨k, inK, l, inL, rfl⟩ worded
  obtain ⟨wordedK, wordedL⟩ := List.forall_mem_append.mp worded
  simpa using (hK k inK wordedK).append (hL l inL wordedL)

theorem CalmOn.add (hK : CalmOn K) (hL : CalmOn L) : CalmOn (K + L) :=
  fun nodes member => member.elim (hK nodes) (hL nodes)

theorem CalmOn.kstar (h : CalmOn L) : CalmOn L∗ := by
  rintro _ ⟨words, rfl, each⟩ worded
  induction words with
  | nil => exact calm_nil
  | cons word words ih =>
      obtain ⟨first, rest⟩ := List.forall_mem_cons.mp each
      rw [List.flatten_cons] at worded ⊢
      obtain ⟨wordedFirst, wordedRest⟩ := List.forall_mem_append.mp worded
      simpa using (h word first wordedFirst).append (ih rest wordedRest)

theorem calmOn_opt (h : CalmOn L) : CalmOn (opt L) := .add calmOn_one h

theorem calmOn_tokOf {admits : TokenKind → Bool} (close : admits .rParen = false)
    (gt : admits .gt = false) : CalmOn (tokOf admits) := by
  rintro _ ⟨t, rfl, k, label, admitted⟩ -
  rw [wordOf_token label]
  split
  · exact calm_nil
  · exact calm_singleton (by rintro rfl; simp [close] at admitted)
      (by rintro rfl; simp [gt] at admitted)

theorem calmOn_tok {k : TokenKind} (plain : k ≠ .rParen ∧ k ≠ .gt) : CalmOn (tok k) := by
  rintro _ ⟨t, rfl, label⟩ -
  rw [wordOf_token label]
  split
  · exact calm_nil
  · exact calm_singleton plain.1 plain.2

theorem beginsOn_tokOf {admits : TokenKind → Bool} (starts : ∀ k, admits k → startsOperand k) :
    BeginsOn (tokOf admits) := by
  rintro _ ⟨t, rfl, k, label, admitted⟩ -
  have notTrivia : k.isTrivia = false := by
    have := starts k admitted
    cases k <;> first | rfl | simp [startsOperand, Form.isUnary, Form.startsCastOperand] at this
  exact ⟨k, [], by simp [wordOf_token label, notTrivia], starts k admitted⟩

theorem beginsOn_tok {k : TokenKind} (starts : startsOperand k) : BeginsOn (tok k) := by
  rintro _ ⟨t, rfl, label⟩ worded
  have one : [t] ∈ tokOf (· == k) := ⟨t, rfl, k, label, by simp⟩
  exact beginsOn_tokOf (by simpa using starts) [t] one worded

theorem calmOn_closedString : CalmOn closedString := by
  rintro _ ⟨t, rfl, label, -⟩ worded
  exact calmOn_tok (k := .string) (by decide) [t] ⟨t, rfl, label⟩ worded

theorem beginsOn_closedString : BeginsOn closedString := by
  rintro _ ⟨t, rfl, label, -⟩ worded
  exact beginsOn_tok (k := .string) (by decide) [t] ⟨t, rfl, label⟩ worded

theorem BeginsOn.mul (h : BeginsOn K) : BeginsOn (K * L) := by
  rintro _ ⟨k, inK, l, -, rfl⟩ worded
  rw [wordOf_append]
  exact (h k inK (List.forall_mem_append.mp worded).1).append _

theorem BeginsOn.add (hK : BeginsOn K) (hL : BeginsOn L) : BeginsOn (K + L) :=
  fun nodes member => member.elim (hK nodes) (hL nodes)

theorem RuleWord.expression {rule : Rule} {w : List TokenKind} (h : RuleWord rule w)
    (isExpr : rule.isExpression) : Begins w ∧ Calm w := by
  cases rule <;> first | exact h isExpr | simp [Rule.isExpression] at isExpr

/-- An expression has a word that is calm and begins as an operand does. -/
theorem Worded.expression {t : Tree} (h : Worded t) (isExpr : t.label.isExpression) :
    Begins (wordOf [t]) ∧ Calm (wordOf [t]) := by
  cases label : t.label with
  | token k => simp [label, Label.isExpression] at isExpr
  | rule r =>
      rw [label] at isExpr
      exact (h r label).expression isExpr

theorem calmOn_expr : CalmOn expr := by
  rintro _ ⟨t, rfl, isExpr⟩ worded
  exact ((worded t (by simp)).expression isExpr).2

theorem beginsOn_expr : BeginsOn expr := by
  rintro _ ⟨t, rfl, isExpr⟩ worded
  exact ((worded t (by simp)).expression isExpr).1

theorem calmOn_arguments : CalmOn (nodeOf .arguments) := by
  rintro _ ⟨t, rfl, label⟩ worded
  obtain ⟨v, same⟩ := worded t (by simp) .arguments label
  rw [same]
  exact calm_lParen v

theorem calmOn_assignmentOperator : CalmOn (nodeOf .assignmentOperator) := by
  rintro _ ⟨t, rfl, label⟩ worded
  obtain ⟨k, same, assigns⟩ := worded t (by simp) .assignmentOperator label
  rw [same]
  exact calm_singleton (by rintro rfl; simp [TokenKind.isAssignment] at assigns)
    (by rintro rfl; simp [TokenKind.isAssignment] at assigns)

/-- Whatever an opening parenthesis begins is calm. -/
theorem calmOn_parenthesis (L : Language Tree) : CalmOn (tok .lParen * L) := by
  rintro _ ⟨_, ⟨t, rfl, label⟩, l, -, rfl⟩ -
  rw [wordOf_append, wordOf_token label]
  exact calm_lParen (wordOf l)

/-- A `>` may be an operator, but an operand begins behind it. -/
theorem calmOn_operation : CalmOn (expr * nodeOf .binaryOp * expr) := by
  rw [mul_assoc]
  refine calmOn_expr.mul ?_
  rintro _ ⟨_, ⟨op, rfl, label⟩, right, inExpr, rfl⟩ worded
  obtain ⟨wordedOp, wordedRight⟩ := List.forall_mem_append.mp worded
  obtain ⟨k, same, isOperator⟩ := wordedOp op (by simp) .binaryOp label
  rw [wordOf_append, same]
  exact (calmOn_expr right inExpr wordedRight).operator
    (by rintro rfl; simp [Precedence.ofKind?] at isOperator)
    (beginsOn_expr right inExpr wordedRight)

theorem calmOn_separated (h : CalmOn L) : CalmOn (separated L) :=
  h.mul (.kstar ((calmOn_tok (by decide)).mul h))

/-- Expressions between braces or brackets. -/
theorem calmOn_between {a b : TokenKind} (h : CalmOn L) (plain : a ≠ .rParen ∧ a ≠ .gt)
    (plain' : b ≠ .rParen ∧ b ≠ .gt) : CalmOn (tok a * opt L * tok b) :=
  ((calmOn_tok plain).mul (calmOn_opt h)).mul (calmOn_tok plain')

theorem calmOn_created : CalmOn created := by
  have elements : CalmOn elements :=
    calmOn_between (calmOn_separated calmOn_expr) (by decide) (by decide)
  have sizes := (calmOn_between (a := .lBracket) (b := .rBracket) calmOn_expr (by decide)
    (by decide)).kstar
  exact calmOn_arguments.add ((sizes.mul (calmOn_opt elements)).add elements)

/-- Types stand behind `new`, so what they hold of `>` does not matter. -/
theorem calmOn_creator : CalmOn (tok .kwNew * nodeOf .typeRef * created) := by
  rintro _ ⟨_, ⟨_, ⟨new, rfl, label⟩, _, ⟨type, rfl, typeLabel⟩, rfl⟩, l, inCreated, rfl⟩ worded
  have types := worded type (by simp) .typeRef typeLabel
  have calm := calmOn_created l inCreated fun t member => worded t (by simp [member])
  rw [wordOf_append, wordOf_append, wordOf_token label]
  refine calm_cons rfl (.append (v := .kwNew :: wordOf [type]) ?_ calm.enclosed)
  refine enclosed_of_not_mem fun member => ?_
  rcases List.mem_cons.mp member with impossible | member
  · simp at impossible
  · simpa [isTypeToken] using types _ member

/-- The productions of expressions have calm words that begin as operands do. -/
theorem production_words {rule : Rule} (isExpr : rule.isExpression) :
    BeginsOn (production rule) ∧ CalmOn (production rule) := by
  have isAtom : ∀ k, Form.isAtom k → startsOperand k := by
    intro k atom
    cases k <;> first | rfl | simp [Form.isAtom] at atom
  have tok {k : TokenKind} (plain : k ≠ .rParen ∧ k ≠ .gt) := calmOn_tok plain
  cases rule <;> try simp [Rule.isExpression] at isExpr
  case assignmentExpr =>
    exact ⟨beginsOn_expr.mul.mul, (calmOn_expr.mul calmOn_assignmentOperator).mul calmOn_expr⟩
  case ternaryExpr =>
    exact ⟨beginsOn_expr.mul.mul.mul.mul, (((calmOn_expr.mul (tok (by decide))).mul
      calmOn_expr).mul (tok (by decide))).mul calmOn_expr⟩
  case binaryExpr => exact ⟨beginsOn_expr.mul.mul, calmOn_operation⟩
  case prefixExpr =>
    exact ⟨(beginsOn_tokOf fun k unary => by simp [startsOperand, unary]).mul,
      (calmOn_tokOf rfl rfl).mul calmOn_expr⟩
  case postfixExpr => exact ⟨beginsOn_expr.mul, calmOn_expr.mul (calmOn_tokOf rfl rfl)⟩
  case castExpr =>
    refine ⟨(beginsOn_tok rfl).mul.mul.mul, ?_⟩
    rw [production, mul_assoc, mul_assoc]
    exact calmOn_parenthesis _
  case arrayAccessExpr =>
    exact ⟨beginsOn_expr.mul.mul.mul, ((calmOn_expr.mul (tok (by decide))).mul calmOn_expr).mul
      (tok (by decide))⟩
  case functionInvoke => exact ⟨(beginsOn_tok rfl).mul, (tok (by decide)).mul calmOn_arguments⟩
  case methodInvoke =>
    exact ⟨beginsOn_expr.mul.mul.mul, ((calmOn_expr.mul (tok (by decide))).mul
      (tok (by decide))).mul calmOn_arguments⟩
  case primary =>
    constructor
    · exact (((((beginsOn_tokOf isAtom).add beginsOn_closedString).add (beginsOn_tok rfl)).add
        (beginsOn_tok rfl).mul.mul).add (beginsOn_tok rfl).mul.mul).add beginsOn_expr.mul.mul
    · refine (((((calmOn_tokOf rfl rfl).add calmOn_closedString).add (tok (by decide))).add ?_).add
        calmOn_creator).add ((calmOn_expr.mul (tok (by decide))).mul (tok (by decide)))
      rw [mul_assoc]
      exact calmOn_parenthesis _

theorem isTypeToken_of_mem_word {nodes : List Tree} (h : nodes ∈ typeTokens) :
    ∀ k ∈ wordOf nodes, isTypeToken k := by
  have only : Only (fun label => ∃ k, label = .token k ∧ isTypeToken k) typeTokens :=
    only_mul (only_tok ⟨_, rfl, rfl⟩) (only_kstar (only_tokOf fun k isType => ⟨k, rfl, isType⟩))
  have leaves := only nodes h
  clear h
  induction nodes with
  | nil => simp
  | cons t nodes ih =>
      obtain ⟨⟨k, label, isType⟩, later⟩ := List.forall_mem_cons.mp leaves
      rw [wordOf_cons, List.forall_mem_append, wordOf_token label]
      refine ⟨fun k' member => ?_, ih later⟩
      split at member
      · simp at member
      · rwa [List.mem_singleton.mp member]

theorem Contract.Met.of_mem_significant {C : Contract} {t c : Tree} (h : C.Met t)
    (member : c ∈ t.significant) : C.Met c := by
  intro node inside
  refine h node ?_
  obtain ⟨label, span, children, text⟩ := t
  exact List.mem_cons_of_mem _ (Tree.mem_nodesAll.mpr ⟨c, (List.mem_filter.mp member).1, inside⟩)

theorem ruleWord_of_fits {rule : Rule} {nodes : List Tree} (fits : nodes ∈ production rule)
    (worded : ∀ t ∈ nodes, Worded t) : RuleWord rule (wordOf nodes) := by
  by_cases isExpr : rule.isExpression
  · have words := production_words isExpr
    cases rule <;> first
      | exact fun _ => ⟨words.1 nodes fits worded, words.2 nodes fits worded⟩
      | simp [Rule.isExpression] at isExpr
  · cases rule
    case typeRef => exact isTypeToken_of_mem_word fits
    case arguments =>
      rw [production, mul_assoc] at fits
      obtain ⟨t, rest, rfl, label, -⟩ := mem_single_mul.mp fits
      exact ⟨wordOf rest, by rw [wordOf_cons, wordOf_token label]; rfl⟩
    case assignmentOperator =>
      obtain ⟨t, rfl, k, label, assigns⟩ := fits
      refine ⟨k, ?_, assigns⟩
      cases k <;> first | exact wordOf_token label | simp [TokenKind.isAssignment] at assigns
    case binaryOp =>
      obtain ⟨t, rfl, k, label, isOperator⟩ := fits
      refine ⟨k, ?_, isOperator⟩
      cases k <;> first | exact wordOf_token label | simp [Precedence.ofKind?] at isOperator
    all_goals exact fun expr => absurd expr isExpr

/-- **Words of expressions.**  Where nodes fit the productions, words fit the rules. -/
theorem worded_of_met : ∀ t : Tree, shape.Met t → Worded t := by
  refine Tree.children_induct fun t below met rule label => ?_
  rw [wordOf_rule label]
  refine ruleWord_of_fits (met t t.mem_nodes_self rule label) fun c member => ?_
  exact below c (List.mem_filter.mp member).1 (met.of_mem_significant member)

/-! ## Words that are read -/

namespace Form

/-- What is read without a report are the words of the nodes that it puts into an empty frame. -/
theorem Reads.word {f : Form} {L : Language Tree} (h : f.Reads 1 L) (productive : f.productive)
    {n : Nat} {ts rest : List Token} {frame : List Tree}
    (done : f.readAt n [] ts = .done frame rest []) :
    ∃ taken, ts = taken ++ rest ∧ kinds taken = wordOf (withoutTrivia frame) ∧
      withoutTrivia frame ∈ L ∧ ∀ t ∈ withoutTrivia frame, Worded t := by
  obtain ⟨member, met⟩ := readAt_meets shape_kept productive (h [] _ rfl) (by simp) done
  have conserved := readAt_conserves productive n [] ts
  rw [done] at conserved
  obtain ⟨taken, added, rfl, leaves, -, all⟩ := conserved
  refine ⟨taken, rfl, ?_, member, fun t inFrame =>
    worded_of_met t (met t (List.mem_filter.mp inFrame).1)⟩
  rw [wordOf_withoutTrivia, wordOf, leaves, all rfl]
  rfl

/-- Expressions with commas between them are read from calm words. -/
theorem expressions_calm {n : Nat} {ts rest : List Token} {frame : List Tree}
    (done : expressions.readAt n [] ts = .done frame rest []) :
    ∃ taken, ts = taken ++ rest ∧ Calm (kinds taken) := by
  obtain ⟨taken, split, same, member, worded⟩ :=
    expressions_appends.reads.word (by decide) done
  exact ⟨taken, split, same ▸ calmOn_separated calmOn_expr _ member worded⟩

/-- An expression is read from a calm word. -/
theorem expression_calm {n : Nat} {ts rest : List Token} {frame frame' : List Tree}
    (done : expression.readAt n frame ts = .done frame' rest []) :
    ∃ taken, ts = taken ++ rest ∧ Calm (kinds taken) := by
  obtain ⟨inner, read, rfl⟩ := Outcome.into_eq_done.mp done
  have reads : (enter .assignment).Reads 1 expr := .enter .assignment
  obtain ⟨taken, split, same, member, worded⟩ := reads.word rfl read
  exact ⟨taken, split, same ▸ calmOn_expr _ member worded⟩

end Form

end Grammar

end QuestScript
