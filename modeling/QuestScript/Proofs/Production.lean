/-
# QuestScript.Proofs.Production -- what stands under the rules

`production` says of every rule which nodes stand under it, trivia left out, as a language
over trees.  A form reads from one language to another if it takes every frame that is a
word of the first to one of the second (`Form.Reads`); most forms just append a language to
whatever stands in the frame (`Form.Appends`).  There is one law for each building block,
and so what a form of the grammar appends is read off its definition.

Together they are a contract that the grammar keeps (`shape_kept`), and a script without
diagnostics is made of instances of productions: `Form.script_shaped`.
-/
import Mathlib.Computability.Language
import Mathlib.Order.CompletePartialOrder
import QuestScript.Proofs.Contract

namespace QuestScript.Grammar

open QuestScript.Tree (withoutTrivia)
open scoped Computability

set_option autoImplicit false

/-! ## Languages over trees -/

/-- One node with a property. -/
def single (p : Tree → Prop) : Language Tree := {nodes | ∃ t, nodes = [t] ∧ p t}

/-- A token of one kind. -/
def tok (kind : TokenKind) : Language Tree := single fun t => t.label = .token kind

/-- A token of an admitted kind. -/
def tokOf (admits : TokenKind → Bool) : Language Tree :=
  single fun t => ∃ kind, t.label = .token kind ∧ admits kind

/-- A string with its closing quote. -/
def closedString : Language Tree :=
  single fun t => t.label = .token .string ∧ closesQuote t.ownText

/-- The node of a rule. -/
def nodeOf (rule : Rule) : Language Tree := single fun t => t.label = .rule rule

/-- The node of any expression. -/
def expr : Language Tree := single fun t => t.label.isExpression

/-- The node of any statement. -/
def stmt : Language Tree := single fun t => t.label.isStatement

/-- A word or none. -/
def opt (L : Language Tree) : Language Tree := 1 + L

/-- Words with commas between them. -/
def separated (L : Language Tree) : Language Tree := L * (tok .comma * L)∗

theorem mem_single {p : Tree → Prop} {nodes : List Tree} :
    nodes ∈ single p ↔ ∃ t, nodes = [t] ∧ p t := Iff.rfl

theorem mem_single_mul {p : Tree → Prop} {L : Language Tree} {nodes : List Tree} :
    nodes ∈ single p * L ↔ ∃ t rest, nodes = t :: rest ∧ p t ∧ rest ∈ L := by
  constructor
  · rintro ⟨_, ⟨t, rfl, ht⟩, rest, hrest, rfl⟩
    exact ⟨t, rest, rfl, ht, hrest⟩
  · rintro ⟨t, rest, rfl, ht, hrest⟩
    exact Language.append_mem_mul (a := [t]) ⟨t, rfl, ht⟩ hrest

theorem mem_opt {L : Language Tree} {nodes : List Tree} :
    nodes ∈ opt L ↔ nodes = [] ∨ nodes ∈ L := Iff.rfl

/-! ## What words are made of -/

/-- The words of the language are made of nodes whose labels satisfy `p` alone. -/
def Only (p : Label → Prop) (L : Language Tree) : Prop := ∀ nodes ∈ L, ∀ t ∈ nodes, p t.label

section Only

variable {p : Label → Prop} {K L : Language Tree}

theorem only_one : Only p 1 := by
  rintro nodes rfl t member
  simp at member

theorem only_mul (hK : Only p K) (hL : Only p L) : Only p (K * L) := by
  rintro _ ⟨k, inK, l, inL, rfl⟩ t member
  exact (List.mem_append.mp member).elim (hK k inK t) (hL l inL t)

theorem only_add (hK : Only p K) (hL : Only p L) : Only p (K + L) :=
  fun nodes member => member.elim (hK nodes) (hL nodes)

theorem only_kstar (hL : Only p L) : Only p L∗ := by
  rintro _ ⟨words, rfl, each⟩ t member
  obtain ⟨word, inWords, inWord⟩ := List.mem_flatten.mp member
  exact hL word (each word inWords) t inWord

theorem only_opt (hL : Only p L) : Only p (opt L) := only_add only_one hL

theorem only_single {q : Tree → Prop} (h : ∀ t, q t → p t.label) : Only p (single q) := by
  rintro _ ⟨t, rfl, ht⟩ u member
  obtain rfl : u = t := by simpa using member
  exact h u ht

theorem only_tok {kind : TokenKind} (h : p (.token kind)) : Only p (tok kind) :=
  only_single fun _ label => label ▸ h

theorem only_tokOf {admits : TokenKind → Bool} (h : ∀ kind, admits kind → p (.token kind)) :
    Only p (tokOf admits) :=
  only_single fun _ ⟨kind, label, admitted⟩ => label ▸ h kind admitted

theorem only_closedString (h : p (.token .string)) : Only p closedString :=
  only_single fun _ ⟨label, _⟩ => label ▸ h

theorem only_nodeOf {rule : Rule} (h : p (.rule rule)) : Only p (nodeOf rule) :=
  only_single fun _ label => label ▸ h

theorem only_expr (h : ∀ label : Label, label.isExpression → p label) : Only p expr :=
  only_single fun t => h t.label

theorem only_stmt (h : ∀ label : Label, label.isStatement → p label) : Only p stmt :=
  only_single fun t => h t.label

end Only

/-- The words of the language have a last node, and its label satisfies `p`. -/
def Ends (p : Label → Prop) (L : Language Tree) : Prop :=
  ∀ nodes ∈ L, ∃ init last, nodes = init ++ [last] ∧ p last.label

section Ends

variable {p : Label → Prop} {K L : Language Tree}

theorem Ends.mono {q : Label → Prop} (h : Ends p L) (le : ∀ label, p label → q label) :
    Ends q L := by
  intro nodes member
  obtain ⟨init, last, whole, hp⟩ := h nodes member
  exact ⟨init, last, whole, le _ hp⟩

theorem ends_mul (hL : Ends p L) : Ends p (K * L) := by
  rintro _ ⟨k, -, l, inL, rfl⟩
  obtain ⟨init, last, rfl, hp⟩ := hL l inL
  exact ⟨k ++ init, last, by simp, hp⟩

theorem ends_add (hK : Ends p K) (hL : Ends p L) : Ends p (K + L) :=
  fun nodes member => member.elim (hK nodes) (hL nodes)

theorem ends_mul_opt (hK : Ends p K) (hL : Ends p L) : Ends p (K * opt L) := by
  rintro _ ⟨k, inK, l, inL, rfl⟩
  rcases mem_opt.mp inL with rfl | inL
  · simpa using hK k inK
  · exact ends_mul hL _ (Language.append_mem_mul inK inL)

theorem ends_mul_kstar (hK : Ends p K) (hL : Ends p L) : Ends p (K * L∗) := by
  rintro _ ⟨k, inK, _, ⟨words, rfl, each⟩, rfl⟩
  rcases List.eq_nil_or_concat' words with rfl | ⟨init, last, rfl⟩
  · simpa using hK k inK
  · obtain ⟨front, node, rfl, hp⟩ := hL last (each last (by simp))
    exact ⟨k ++ (init.flatten ++ front), node, by simp, hp⟩

theorem ends_separated (hL : Ends p L) : Ends p (separated L) := ends_mul_kstar hL (ends_mul hL)

theorem ends_single {q : Tree → Prop} (h : ∀ t, q t → p t.label) : Ends p (single q) := by
  rintro _ ⟨t, rfl, ht⟩
  exact ⟨[], t, rfl, h t ht⟩

theorem ends_tok {kind : TokenKind} (h : p (.token kind)) : Ends p (tok kind) :=
  ends_single fun _ label => label ▸ h

theorem ends_tokOf {admits : TokenKind → Bool} (h : ∀ kind, admits kind → p (.token kind)) :
    Ends p (tokOf admits) :=
  ends_single fun _ ⟨kind, label, admitted⟩ => label ▸ h kind admitted

theorem ends_nodeOf {rule : Rule} (h : p (.rule rule)) : Ends p (nodeOf rule) :=
  ends_single fun _ label => label ▸ h

theorem ends_expr (h : ∀ label : Label, label.isExpression → p label) : Ends p expr :=
  ends_single fun t => h t.label

theorem ends_stmt (h : ∀ label : Label, label.isStatement → p label) : Ends p stmt :=
  ends_single fun t => h t.label

end Ends

/-- The words of the language have a first node, and its label satisfies `p`. -/
def Starts (p : Label → Prop) (L : Language Tree) : Prop :=
  ∀ nodes ∈ L, ∃ first rest, nodes = first :: rest ∧ p first.label

section Starts

variable {p : Label → Prop} {K L : Language Tree}

theorem starts_mul (hK : Starts p K) : Starts p (K * L) := by
  rintro _ ⟨k, inK, l, -, rfl⟩
  obtain ⟨first, rest, rfl, hp⟩ := hK k inK
  exact ⟨first, rest ++ l, rfl, hp⟩

theorem starts_add (hK : Starts p K) (hL : Starts p L) : Starts p (K + L) :=
  fun nodes member => member.elim (hK nodes) (hL nodes)

theorem starts_opt_mul (hK : Starts p K) (hL : Starts p L) : Starts p (opt K * L) := by
  rintro _ ⟨k, inK, l, inL, rfl⟩
  rcases mem_opt.mp inK with rfl | inK
  · exact hL l inL
  · exact starts_mul hK _ (Language.append_mem_mul inK inL)

theorem starts_single {q : Tree → Prop} (h : ∀ t, q t → p t.label) : Starts p (single q) := by
  rintro _ ⟨t, rfl, ht⟩
  exact ⟨t, [], rfl, h t ht⟩

theorem starts_tok {kind : TokenKind} (h : p (.token kind)) : Starts p (tok kind) :=
  starts_single fun _ label => label ▸ h

theorem starts_tokOf {admits : TokenKind → Bool} (h : ∀ kind, admits kind → p (.token kind)) :
    Starts p (tokOf admits) :=
  starts_single fun _ ⟨kind, label, admitted⟩ => label ▸ h kind admitted

theorem starts_nodeOf {rule : Rule} (h : p (.rule rule)) : Starts p (nodeOf rule) :=
  starts_single fun _ label => label ▸ h

theorem starts_expr (h : ∀ label : Label, label.isExpression → p label) : Starts p expr :=
  starts_single fun t => h t.label

end Starts

/-! ## Productions -/

/-- The tokens of types. -/
def isTypeToken : TokenKind → Bool
  | .identifier | .dot | .lt | .gt | .comma | .question | .lBracket | .rBracket => true
  | _ => false

/-- The tokens of a type, the first of which is a name. -/
def typeTokens : Language Tree := tok .identifier * (tokOf isTypeToken)∗

/-- A variable with or without its first value. -/
def oneVariable : Language Tree := tok .identifier * opt (tok .assign * expr)

/-- Variables of one type. -/
def someVariables : Language Tree := nodeOf .typeRef * separated oneVariable

/-- The elements of an array in braces. -/
def elements : Language Tree := tok .lBrace * opt (separated expr) * tok .rBrace

/-- What may follow `new` and a type. -/
def created : Language Tree :=
  nodeOf .arguments + ((tok .lBracket * opt expr * tok .rBracket)∗ * opt elements + elements)

/-- The clauses of a loop. -/
def clauses : Language Tree :=
  nodeOf .forEachBinding * tok .colon * nodeOf .forIterable +
    opt (nodeOf .forInit) * tok .semi * opt (nodeOf .forCondition) * tok .semi *
      opt (nodeOf .forUpdate)

/-- The tokens of a business name. -/
def isNameToken (kind : TokenKind) : Bool := kind != .semi && kind != .backquote

/-- The rules of items. -/
def isItem : Rule → Bool
  | .kindDecl | .businessHeader | .processDecl | .functionDecl | .requirementDecl => true
  | _ => false

/-- What stands under a rule. -/
def production : Rule → Language Tree
  | .script => (single fun t => ∃ rule, t.label = .rule rule ∧ isItem rule)∗
  | .kindDecl => tok .kindMark * tokOf Form.namesKind * tok .semi
  | .businessHeader => tok .businessMark * nodeOf .businessName * tok .semi
  | .businessName =>
      tok .backquote * (tokOf isNameToken * (tokOf isNameToken)∗) * tok .backquote
  | .processDecl => tok .kwProcess * tok .identifier * nodeOf .block
  | .functionDecl =>
      tok .kwFunction * tok .identifier * tok .lParen * opt (nodeOf .parameters) * tok .rParen *
        nodeOf .block
  | .parameters => separated (nodeOf .typeRef * tok .identifier)
  | .requirementDecl =>
      tok .kwRequirement * tok .identifier * tok .lBrace * (closedString * tok .semi)∗ *
        tok .rBrace
  | .block => tok .lBrace * stmt∗ * tok .rBrace
  | .variableStatement => someVariables * tok .semi
  | .ifStatement =>
      tok .kwIf * (tok .lParen * expr * tok .rParen) * stmt * opt (tok .kwElse * stmt)
  | .forStatement => tok .kwFor * tok .lParen * clauses * tok .rParen * stmt
  | .forInit => someVariables + separated expr
  | .forCondition => expr
  | .forUpdate => separated expr
  | .forEachBinding => nodeOf .typeRef * tok .identifier
  | .forIterable => expr
  | .whileStatement => tok .kwWhile * (tok .lParen * expr * tok .rParen) * stmt
  | .returnStatement => tok .kwReturn * opt expr * tok .semi
  | .expressionStatement => opt expr * tok .semi
  | .typeRef => typeTokens
  | .assignmentExpr => expr * nodeOf .assignmentOperator * expr
  | .assignmentOperator => tokOf TokenKind.isAssignment
  | .ternaryExpr => expr * tok .question * expr * tok .colon * expr
  | .binaryExpr => expr * nodeOf .binaryOp * expr
  | .binaryOp => tokOf fun kind => (Precedence.ofKind? kind).isSome
  | .prefixExpr => tokOf Form.isUnary * expr
  | .postfixExpr => expr * tokOf Form.isIncrement
  | .castExpr => tok .lParen * nodeOf .typeRef * tok .rParen * expr
  | .arrayAccessExpr => expr * tok .lBracket * expr * tok .rBracket
  | .functionInvoke => tok .identifier * nodeOf .arguments
  | .methodInvoke => expr * tok .dot * tok .identifier * nodeOf .arguments
  | .arguments => tok .lParen * opt (separated expr) * tok .rParen
  | .primary =>
      tokOf Form.isAtom + closedString + tok .identifier + tok .lParen * expr * tok .rParen +
        tok .kwNew * nodeOf .typeRef * created + expr * tok .dot * tok .identifier
  | .error => 0

/-- What stands in the frame where the grammar recurs. -/
def Entry.opening : Entry → Language Tree
  | .statement | .assignment | .ternary | .unary | .cast => 1
  | .link _ _ | .suffix => expr
  | .typeArguments => typeTokens

/-- What stands in the frame behind an entry. -/
def Entry.result : Entry → Language Tree
  | .statement => stmt
  | .typeArguments => typeTokens
  | _ => expr

/-- Productions as a contract. -/
def shape : Contract where
  fits rule nodes := nodes ∈ production rule
  enters entry nodes _ := nodes ∈ entry.opening
  leaves entry _ nodes _ := nodes ∈ entry.result

/-! ## Laws of the building blocks -/

namespace Form

/-- The form takes frames of `P` to frames of `Q`. -/
def Reads (P : Language Tree) (f : Form) (Q : Language Tree) : Prop :=
  ∀ nodes next, nodes ∈ P → f.before shape (fun nodes _ => nodes ∈ Q) nodes next

/-- The form appends a word of `L` to any frame. -/
def Appends (f : Form) (L : Language Tree) : Prop := ∀ P, f.Reads P (P * L)

variable {P Q R K L : Language Tree} {f first second yes no body : Form}

theorem Reads.mono (h : f.Reads P Q) (le : Q ≤ R) : f.Reads P R :=
  fun nodes next member => before_mono (h nodes next member) fun _ _ inQ => le inQ

theorem Reads.of_le (h : f.Reads Q R) (le : P ≤ Q) : f.Reads P R :=
  fun nodes next member => h nodes next (le member)

theorem Reads.seq (h₁ : first.Reads P Q) (h₂ : second.Reads Q R) : (first >> second).Reads P R :=
  fun nodes next member => before_mono (f := first) (h₁ nodes next member) h₂

theorem Reads.choose {look : Form} {admits : TokenKind → Bool} (h₁ : yes.Reads P Q)
    (h₂ : no.Reads P Q) : (choose look admits yes no).Reads P Q :=
  fun nodes next member => ⟨fun _ => h₁ nodes next member, fun _ => h₂ nodes next member⟩

theorem Reads.repeated {look : Form} {admits : TokenKind → Bool} (h : body.Reads P P) :
    (repeated look admits body).Reads P P :=
  fun _ _ member => ⟨fun nodes _ => nodes ∈ P, member, fun nodes next inP _ => h nodes next inP,
    fun _ _ inP _ => inP⟩

theorem Reads.close {rule : Rule} (le : P ≤ production rule) :
    (close rule).Reads P (nodeOf rule) :=
  fun _ _ member => ⟨le member, fun _ _ => ⟨_, rfl, rfl⟩⟩

theorem Reads.enter (entry : Entry) : (enter entry).Reads entry.opening entry.result :=
  fun _ _ member => ⟨member, fun _ _ result => result⟩

theorem Reads.empty : Form.empty.Reads P P := fun _ _ member => member

theorem Appends.empty : Form.empty.Appends 1 := fun P => by
  rw [mul_one]
  exact .empty

theorem Appends.trivia : Form.trivia.Appends 1 := fun P => by
  rw [mul_one]
  exact fun _ _ member => member

theorem Appends.token (admits : TokenKind → Bool) (expected : String) :
    (token admits expected).Appends (tokOf admits) :=
  fun _ _ _ member admitted _ kind _ =>
    Language.append_mem_mul member ⟨_, rfl, _, rfl, kind ▸ admitted⟩

theorem Appends.string (expected : String) : (string expected).Appends closedString :=
  fun _ _ _ member _ kind closed _ =>
    Language.append_mem_mul member ⟨_, rfl, congrArg Label.token kind, closed⟩

theorem Appends.refuse (expected : String) : (refuse expected).Appends L :=
  fun _ _ _ _ => trivial

theorem Appends.mono (h : f.Appends K) (le : K ≤ L) : f.Appends L :=
  fun P => (h P).mono (mul_le_mul_right le P)

theorem Appends.reads (h : f.Appends L) : f.Reads 1 L := by
  simpa using h 1

theorem Appends.seq (h₁ : first.Appends K) (h₂ : second.Appends L) :
    (first >> second).Appends (K * L) := fun P => by
  rw [← mul_assoc]
  exact (h₁ P).seq (h₂ (P * K))

theorem Appends.choose {look : Form} {admits : TokenKind → Bool} (h₁ : yes.Appends L)
    (h₂ : no.Appends L) : (choose look admits yes no).Appends L :=
  fun P => .choose (h₁ P) (h₂ P)

theorem Appends.whenNext {admits : TokenKind → Bool} (h : body.Appends L) :
    (whenNext admits body).Appends (opt L) :=
  .choose (h.mono le_add_self) (Appends.empty.mono le_self_add)

theorem Appends.unlessNext {admits : TokenKind → Bool} (h : body.Appends L) :
    (unlessNext admits body).Appends (opt L) :=
  .choose (Appends.empty.mono le_self_add) (h.mono le_add_self)

theorem Appends.repeated {look : Form} {admits : TokenKind → Bool} (h : body.Appends L) :
    (repeated look admits body).Appends L∗ := fun P => by
  have rounds : body.Reads (P * L∗) (P * L∗) :=
    (h (P * L∗)).mono (by
      rw [mul_assoc]
      exact mul_le_mul_right kstar_mul_le_kstar P)
  exact (Reads.repeated rounds).of_le (le_mul_of_one_le_right' one_le_kstar)

theorem Appends.frame (h : body.Reads 1 L) : (Form.frame body).Appends L :=
  fun _ _ next member => before_mono (f := body) (h [] next rfl) fun _ _ inL =>
    Language.append_mem_mul member inL

theorem Reads.node {rule : Rule} (h : body.Reads 1 (production rule)) :
    (node rule body).Appends (nodeOf rule) :=
  .frame (h.seq (.close le_rfl))

theorem Appends.node {rule : Rule} (h : body.Appends (production rule)) :
    (node rule body).Appends (nodeOf rule) :=
  h.reads.node

theorem Appends.one (kind : TokenKind) : (one kind).Appends (tok kind) :=
  (Appends.token _ _).mono (by
    rintro _ ⟨t, rfl, k, label, admitted⟩
    obtain rfl : k = kind := by simpa using admitted
    exact ⟨t, rfl, label⟩)

theorem Appends.commaSeparated (h : body.Appends L) :
    (commaSeparated body).Appends (separated L) :=
  h.seq (.repeated ((Appends.one .comma).seq h))

theorem Appends.afterTrivia (h : body.Appends L) : (Form.trivia >> body).Appends L := by
  simpa using Appends.trivia.seq h

theorem Appends.thenTrivia (h : body.Appends L) : (body >> Form.trivia).Appends L := by
  simpa using h.seq .trivia

/-! ## Types -/

theorem tok_le_tokOf {kind : TokenKind} {admits : TokenKind → Bool} (h : admits kind) :
    tok kind ≤ tokOf admits := by
  rintro _ ⟨t, rfl, label⟩
  exact ⟨t, rfl, kind, label, h⟩

theorem tokOf_mono {admits admits' : TokenKind → Bool} (h : ∀ k, admits k → admits' k) :
    tokOf admits ≤ tokOf admits' := by
  rintro _ ⟨t, rfl, kind, label, admitted⟩
  exact ⟨t, rfl, kind, label, h kind admitted⟩

/-- A type goes on being one with more of its tokens. -/
theorem Reads.typeToken {kind : TokenKind} (h : isTypeToken kind) :
    (one kind).Reads typeTokens typeTokens :=
  (Appends.one kind typeTokens).mono (by
    rw [typeTokens, mul_assoc]
    refine mul_le_mul_right (le_trans ?_ kstar_mul_le_kstar) _
    exact mul_le_mul_right (tok_le_tokOf h) _)

theorem typeParts_reads (start : P * tok .identifier ≤ typeTokens) :
    typeParts.Reads P typeTokens := by
  have name : (token (· == .identifier) "type").Appends (tok .identifier) := Appends.one .identifier
  refine ((((name P).mono start).seq (.repeated ?_)).seq ?_).seq (.repeated ?_)
  · exact (Reads.typeToken rfl).seq (.typeToken rfl)
  · exact .choose (.enter .typeArguments) .empty
  · exact (Reads.typeToken rfl).seq (.typeToken rfl)

theorem typeRef_appends : typeRef.Appends (nodeOf .typeRef) :=
  (typeParts_reads (by
    rw [one_mul]
    exact le_mul_of_one_le_right' one_le_kstar)).node

theorem typeArguments_reads : typeArguments.Reads typeTokens typeTokens := by
  have more : typeParts.Reads typeTokens typeTokens :=
    typeParts_reads (by
      rw [typeTokens, mul_assoc]
      refine mul_le_mul_right (le_trans ?_ kstar_mul_le_kstar) _
      exact mul_le_mul_right (tok_le_tokOf rfl) _)
  have argument : typeArgument.Reads typeTokens typeTokens := .choose (.typeToken rfl) more
  refine (Reads.typeToken rfl).seq (.choose (.typeToken rfl) (.seq ?_ (.typeToken rfl)))
  exact argument.seq (.repeated ((Reads.typeToken rfl).seq argument))

/-! ## Expressions -/

theorem nodeOf_le_expr {rule : Rule} (h : rule.isExpression) : nodeOf rule ≤ expr := by
  rintro _ ⟨t, rfl, label⟩
  exact ⟨t, rfl, (congrArg Label.isExpression label).trans h⟩

/-- What is closed under a rule of expressions is an expression. -/
theorem Reads.closeExpr {rule : Rule} (le : P ≤ production rule) (h : rule.isExpression) :
    (Form.close rule).Reads P expr :=
  (Reads.close le).mono (nodeOf_le_expr h)

theorem expression_appends : expression.Appends expr := .frame (.enter .assignment)

theorem expressions_appends : expressions.Appends (separated expr) :=
  .commaSeparated expression_appends.afterTrivia

theorem arguments_appends : arguments.Appends (nodeOf .arguments) :=
  .node (((Appends.one .lParen).seq expressions_appends.unlessNext).seq (.one .rParen))

theorem arrayElements_appends : arrayElements.Appends elements :=
  ((Appends.one .lBrace).seq expressions_appends.unlessNext).seq (.one .rBrace)

theorem creator_appends : creator.Appends (tok .kwNew * nodeOf .typeRef * created) := by
  refine ((Appends.one .kwNew).thenTrivia.seq typeRef_appends).seq (.choose ?_ (.choose ?_ ?_))
  · exact arguments_appends.afterTrivia.mono le_self_add
  · refine (Appends.seq (.repeated ?_) arrayElements_appends.whenNext).mono
      (le_self_add.trans le_add_self)
    exact ((Appends.one .lBracket).seq expression_appends.afterTrivia.unlessNext).seq
      (.one .rBracket)
  · exact .choose (arrayElements_appends.mono (le_add_self.trans le_add_self)) (.refuse _)

theorem primary_reads : primary.Reads 1 expr := by
  have close {L : Language Tree} (le : L ≤ production .primary) :
      (Form.close .primary).Reads L expr := .closeExpr le rfl
  refine .choose ?_ (.choose ?_ (.choose ?_ (.choose ?_ (.choose ?_ ?_))))
  · refine (Appends.token _ _).reads.seq (close fun _ h => ?_)
    exact .inl (.inl (.inl (.inl (.inl h))))
  · refine (Appends.string _).reads.seq (close fun _ h => ?_)
    exact .inl (.inl (.inl (.inl (.inr h))))
  · refine (Appends.one .identifier).reads.seq (.choose ?_ (close fun _ h => ?_))
    · exact (arguments_appends.afterTrivia _).seq (.closeExpr le_rfl rfl)
    · exact .inl (.inl (.inl (.inr h)))
  · exact (((Appends.one .lParen).thenTrivia.seq expression_appends).seq
      (.one .rParen)).reads.seq (close fun _ h => .inl (.inl (.inr h)))
  · exact creator_appends.reads.seq (close fun _ h => .inl (.inr h))
  · exact (Appends.refuse _).reads

/-- The node in the frame is an expression, and so is what stands there behind the form. -/
theorem suffixes_reads : suffixes.Reads expr expr := .choose (.enter .suffix) .empty

theorem suffix_reads : suffix.Reads expr expr := by
  refine Reads.seq (.choose ?_ (.choose ?_ ?_)) suffixes_reads
  · have member : (one .dot >> token (· == .identifier) "member name").Appends
        (tok .dot * tok .identifier) := (Appends.one .dot).seq (.one .identifier)
    refine (member expr).seq (.choose ?_ (.closeExpr (fun _ h => .inr ?_) rfl))
    · refine (arguments_appends.afterTrivia _).seq (.closeExpr ?_ rfl)
      rw [← mul_assoc]
      exact le_rfl
    · rwa [← mul_assoc] at h
  · have index := ((Appends.one .lBracket).thenTrivia.seq expression_appends).seq (.one .rBracket)
    refine (index expr).seq (.closeExpr ?_ rfl)
    rw [← mul_assoc, ← mul_assoc]
    exact le_rfl
  · exact (Appends.token isIncrement _ expr).seq (.closeExpr le_rfl rfl)

theorem operand_reads : operand.Reads 1 expr :=
  .choose (.enter .unary) (.choose (.enter .cast) (primary_reads.seq suffixes_reads))

theorem unary_reads : unary.Reads 1 expr := by
  have parts := (Appends.token isUnary "token").thenTrivia.seq (.frame operand_reads)
  exact parts.reads.seq (.closeExpr le_rfl rfl)

theorem cast_reads : cast.Reads 1 expr := by
  have parts := ((((Appends.one .lParen).thenTrivia.seq typeRef_appends).seq
    (.one .rParen)).thenTrivia).seq (.frame operand_reads)
  exact parts.reads.seq (.closeExpr le_rfl rfl)

theorem links_reads (least : Precedence) : (links least).Reads expr expr := by
  have any (ps : List Precedence) :
      (ps.foldr (fun p other => ifNext p.admits (enter (.link least p)) other) empty).Reads
        expr expr := by
    induction ps with
    | nil => exact .empty
    | cons p ps ih => exact .choose (.enter (.link least p)) ih
  exact any least.upward

theorem rightOperand_reads (p : Precedence) : (rightOperand p).Reads 1 expr := by
  unfold rightOperand
  split
  · exact operand_reads.seq (links_reads _)
  · exact operand_reads

theorem link_reads (least own : Precedence) : (link least own).Reads expr expr := by
  have operator : (node .binaryOp (take own.admits)).Appends (nodeOf .binaryOp) :=
    .node ((Appends.token _ _).mono (tokOf_mono fun k admitted => by
      simp only [Precedence.admits, decide_eq_true_eq] at admitted
      simp [admitted]))
  have parts := operator.afterTrivia.thenTrivia.seq (.frame (rightOperand_reads own))
  refine ((parts expr).seq (.closeExpr ?_ rfl)).seq (links_reads least)
  rw [← mul_assoc]
  exact le_rfl

theorem ternary_reads : ternary.Reads 1 expr := by
  have branch : (Form.frame (enter .ternary)).Appends expr := .frame (.enter .ternary)
  have parts := (((Appends.one .question).thenTrivia.seq branch).seq (.one .colon)).thenTrivia.seq
    branch
  refine (operand_reads.seq (links_reads _)).seq (.choose ?_ .empty)
  refine (parts expr).seq (.closeExpr ?_ rfl)
  rw [← mul_assoc, ← mul_assoc, ← mul_assoc]
  exact le_rfl

theorem assignment_reads : assignment.Reads 1 expr := by
  have operator : (node .assignmentOperator (take TokenKind.isAssignment)).Appends
      (nodeOf .assignmentOperator) := .node (.token _ _)
  have parts := operator.afterTrivia.thenTrivia.seq expression_appends
  refine ternary_reads.seq (.choose ((parts expr).seq (.closeExpr ?_ rfl)) .empty)
  rw [← mul_assoc]
  exact le_rfl

/-! ## Statements -/

theorem nodeOf_le_stmt {rule : Rule} (h : rule.isStatement) : nodeOf rule ≤ stmt := by
  rintro _ ⟨t, rfl, label⟩
  exact ⟨t, rfl, (congrArg Label.isStatement label).trans h⟩

theorem statement_appends : statement.Appends stmt := .frame (.enter .statement)

theorem block_appends : block.Appends (nodeOf .block) := by
  have round : (recover statement skippedStatement >> Form.trivia).Appends stmt :=
    @Appends.thenTrivia _ (recover statement skippedStatement) statement_appends
  exact .node (((Appends.one .lBrace).thenTrivia.seq (.repeated round)).seq (.one .rBrace))

theorem declarators_appends : declarators.Appends someVariables := by
  have declarator : declarator.Appends oneVariable :=
    (Appends.one .identifier).seq
      ((Appends.one .assign).thenTrivia.seq expression_appends).whenNext
  exact typeRef_appends.seq (.commaSeparated declarator)

theorem condition_appends : condition.Appends (tok .lParen * expr * tok .rParen) :=
  ((Appends.one .lParen).thenTrivia.seq expression_appends).seq (.one .rParen)

theorem ifStatement_appends : ifStatement.Appends (nodeOf .ifStatement) := by
  have yes := ((Appends.one .kwIf).seq condition_appends).thenTrivia.seq statement_appends
  have no := (Appends.one .kwElse).thenTrivia.seq statement_appends
  exact .node (yes.seq no.whenNext)

theorem whileStatement_appends : whileStatement.Appends (nodeOf .whileStatement) :=
  .node (((Appends.one .kwWhile).seq condition_appends).thenTrivia.seq statement_appends)

theorem returnStatement_appends : returnStatement.Appends (nodeOf .returnStatement) :=
  .node (((Appends.one .kwReturn).seq expression_appends.afterTrivia.unlessNext).seq (.one .semi))

theorem clauses_append :
    (choose (typeParts >> one .identifier) (· == .colon) eachHeader classicHeader).Appends
      clauses := by
  have binding : (node .forEachBinding (typeRef >> one .identifier)).Appends
      (nodeOf .forEachBinding) := .node (typeRef_appends.seq (.one .identifier))
  have iterable : (node .forIterable expression).Appends (nodeOf .forIterable) :=
    .node expression_appends
  have init : forInit.Appends (nodeOf .forInit) :=
    .node (.choose (declarators_appends.mono le_self_add) (expressions_appends.mono le_add_self))
  have condition : (node .forCondition expression).Appends (nodeOf .forCondition) :=
    .node expression_appends
  have update : (node .forUpdate expressions).Appends (nodeOf .forUpdate) :=
    .node expressions_appends
  refine .choose (Appends.mono ?_ le_self_add) (Appends.mono ?_ le_add_self)
  · exact ((binding.afterTrivia.seq (.one .colon)).thenTrivia).seq iterable
  · exact (((init.afterTrivia.unlessNext.seq (.one .semi)).seq
      condition.afterTrivia.unlessNext).seq (.one .semi)).seq update.afterTrivia.unlessNext

theorem forStatement_appends : forStatement.Appends (nodeOf .forStatement) :=
  .node (((((Appends.one .kwFor).seq (.one .lParen)).seq clauses_append).seq
    (.one .rParen)).thenTrivia.seq statement_appends)

theorem variableStatement_appends : variableStatement.Appends (nodeOf .variableStatement) :=
  .node (declarators_appends.seq (.one .semi))

theorem expressionStatement_appends :
    expressionStatement.Appends (nodeOf .expressionStatement) :=
  .node (expression_appends.unlessNext.seq (.one .semi))

theorem anyStatement_reads : anyStatement.Reads 1 stmt := by
  have stand {f : Form} {rule : Rule} (h : f.Appends (nodeOf rule)) (le : rule.isStatement) :
      f.Reads 1 stmt := h.reads.mono (nodeOf_le_stmt le)
  exact .choose (stand block_appends rfl) (.choose (stand ifStatement_appends rfl)
    (.choose (stand forStatement_appends rfl) (.choose (stand whileStatement_appends rfl)
      (.choose (stand returnStatement_appends rfl)
        (.choose (stand variableStatement_appends rfl)
          (stand expressionStatement_appends rfl))))))

end Form

theorem shape_kept : shape.Kept := by
  intro entry nodes next opened
  cases entry with
  | statement => exact Form.anyStatement_reads nodes next opened
  | assignment => exact Form.assignment_reads nodes next opened
  | ternary => exact Form.ternary_reads nodes next opened
  | unary => exact Form.unary_reads nodes next opened
  | cast => exact Form.cast_reads nodes next opened
  | link least own => exact Form.link_reads least own nodes next opened
  | suffix => exact Form.suffix_reads nodes next opened
  | typeArguments => exact Form.typeArguments_reads nodes next opened

/-! ## Items -/

namespace Form

theorem process_appends : process.Appends (nodeOf .processDecl) :=
  .node (((Appends.one .kwProcess).seq (.one .identifier)).thenTrivia.seq block_appends)

theorem parameters_appends : parameters.Appends (nodeOf .parameters) :=
  .node (.commaSeparated (typeRef_appends.afterTrivia.seq (.one .identifier)))

theorem function_appends : function.Appends (nodeOf .functionDecl) := by
  have name := (Appends.one .kwFunction).seq (.one .identifier)
  exact .node ((((name.seq (.one .lParen)).seq parameters_appends.afterTrivia.unlessNext).seq
    (.one .rParen)).thenTrivia.seq block_appends)

theorem requirement_appends : requirement.Appends (nodeOf .requirementDecl) := by
  have name := (Appends.one .kwRequirement).seq (.one .identifier)
  have text := (Appends.string "requirement item string").seq (.one .semi)
  exact .node (((name.seq (.one .lBrace)).seq (.repeated text)).seq (.one .rBrace))

theorem kindDeclaration_appends : kindDeclaration.Appends (nodeOf .kindDecl) :=
  .node (((Appends.one .kindMark).seq (.token namesKind "document kind")).seq (.one .semi))

/-- A business name is not empty, which is known from what was looked for ahead. -/
theorem nameTokens_append :
    (whenNext (· == .backquote) (refuse "business name") >>
      whileNext (· != .backquote) (token (· != .semi) TokenKind.backquote.display)).Appends
      (tokOf isNameToken * (tokOf isNameToken)∗) := by
  intro P start next inP
  refine ⟨fun _ => trivial, fun noQuote => ?_⟩
  have noQuote : next ≠ .backquote := by simpa using noQuote rfl
  refine ⟨fun nodes next => nodes = start ∧ next ≠ .backquote ∨
    nodes ∈ P * (tokOf isNameToken * (tokOf isNameToken)∗), .inl ⟨rfl, noQuote⟩, ?_, ?_⟩
  · intro nodes next keeps noQuote notSemi t kind _
    have name : [Tree.leaf t] ∈ tokOf isNameToken :=
      ⟨_, rfl, t.kind, rfl, by simp [isNameToken, kind, noQuote rfl, notSemi]⟩
    right
    rcases keeps with ⟨rfl, -⟩ | inName
    · exact Language.append_mem_mul inP
        ((le_mul_of_one_le_right' one_le_kstar : tokOf isNameToken ≤ _) name)
    · have whole := Language.append_mem_mul inName name
      rw [mul_assoc, mul_assoc] at whole
      have more : P * (tokOf isNameToken * ((tokOf isNameToken)∗ * tokOf isNameToken)) ≤
          P * (tokOf isNameToken * (tokOf isNameToken)∗) :=
        mul_le_mul_right (mul_le_mul_right kstar_mul_le_kstar _) _
      exact more whole
  · intro nodes next keeps quote
    rcases keeps with ⟨-, noQuote⟩ | inName
    · exact absurd (quote rfl) (by simpa using noQuote)
    · exact inName

theorem businessName_appends : businessName.Appends (nodeOf .businessName) :=
  .node (((Appends.one .backquote).seq nameTokens_append).seq (.one .backquote))

theorem businessHeader_appends : businessHeader.Appends (nodeOf .businessHeader) :=
  .node (((Appends.one .businessMark).thenTrivia.seq businessName_appends).seq (.one .semi))

/-- The node of any item. -/
theorem item_appends : item.Appends (single fun t => ∃ rule, t.label = .rule rule ∧ isItem rule) := by
  have stand {f : Form} {rule : Rule} (h : f.Appends (nodeOf rule)) (le : isItem rule) :
      f.Appends (single fun t => ∃ rule, t.label = .rule rule ∧ isItem rule) :=
    h.mono (by rintro _ ⟨t, rfl, label⟩; exact ⟨t, rfl, rule, label, le⟩)
  exact .choose (stand kindDeclaration_appends rfl) (.choose (stand businessHeader_appends rfl)
    (.choose (stand process_appends rfl) (.choose (stand function_appends rfl)
      (.choose (stand requirement_appends rfl) (.refuse _)))))

theorem script_appends : script.Appends (production .script) := by
  have round : (recover item skippedItem >> Form.trivia).Appends _ :=
    @Appends.thenTrivia _ (recover item skippedItem) item_appends
  exact Appends.afterTrivia (.repeated round)

/-- A script that is read without a report is a list of items, and all its nodes are instances
of the productions. -/
theorem script_shaped {n : Nat} {ts rest : List Token} {parts : List Tree}
    (done : script.readAt n [] ts = .done parts rest []) :
    withoutTrivia parts ∈ production .script ∧ ∀ part ∈ parts, shape.Met part :=
  readAt_meets shape_kept script_productive (script_appends.reads [] _ rfl) (by simp) done

end Form

end QuestScript.Grammar
