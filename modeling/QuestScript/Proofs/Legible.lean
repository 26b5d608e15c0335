/-
# QuestScript.Proofs.Legible -- what is known of a part of a body

A node in the body of a process or a function that was read without a report is readable:
it is put together as reading puts nodes together, and every rule has its production under
it.  It is legible if besides no line comment stands at the end of the arguments of a call
in it.  What holds of it holds of all nodes below it (`Readable.below`, `Legible.below`);
its strings are closed (`Readable.strings`), and it begins and ends with a token
(`Readable.flanks`).

A row of lexemes that begins and ends with tokens is known from its tokens and from what
it begins (`Lexeme.Flanked.eq_of_append`); for the leaves of a tree the tokens are known
from the tree without trivia (`Tree.words_lexemes`).
-/
import QuestScript.Proofs.Leaves
import QuestScript.Proofs.Lowerable

namespace QuestScript

open Grammar (shape production Only Ends)

set_option autoImplicit false

namespace Rule

/-- The node of the rule is kept as the text it is. -/
def keepsText : Rule → Bool
  | .typeRef | .primary => true
  | _ => false

/-- The node of the rule is a call. -/
def isCall : Rule → Bool
  | .functionInvoke | .methodInvoke => true
  | _ => false

/-- The node of the rule gives way to the only one it holds. -/
def givesWay : Rule → Bool
  | .binaryOp | .assignmentOperator | .forCondition | .forIterable => true
  | _ => false

/-- The node of the rule is the list of what it holds. -/
def isList (rule : Rule) : Bool :=
  (Label.rule rule).isPart && !rule.keepsText && !rule.isCall && !rule.givesWay

end Rule

namespace Tree

open Lexeme (Flanked Sealed words)

variable {t : Tree} {rule : Rule} {parts : List Tree}

/-! ## What is known of them -/

/-- The node is a call. -/
def isCall (t : Tree) : Bool :=
  match t.label with
  | .rule rule => rule.isCall
  | .token _ => false

/-- The characters of the trivia before the last child, if there is any. -/
def closingTrivia (t : Tree) : List Char :=
  match t.children.dropLast.getLast? with
  | some child => if child.isTrivia then child.fullText.toList else []
  | none => []

/-- No line comment may be at the end of the arguments of a call in the tree. -/
def Clear (t : Tree) : Prop :=
  ∀ call ∈ t.nodes, call.isCall → ∀ child ∈ call.children, child.label = .rule .arguments →
    ¬ ['/', '/'] <:+: child.closingTrivia

instance : DecidablePred Clear := fun t =>
  inferInstanceAs (Decidable (∀ call ∈ t.nodes, call.isCall → ∀ child ∈ call.children,
    child.label = .rule .arguments → ¬ ['/', '/'] <:+: child.closingTrivia))

/-- A part of a body, as it is read where nothing is reported. -/
structure Readable (t : Tree) : Prop where
  tidy : t.Tidy
  faultless : t.Faultless
  met : shape.Met t
  body : isBody t.label
  closed : t.label = .token .string → Grammar.closesQuote t.ownText

/-- A part of a body without a line comment at the end of the arguments of a call. -/
structure Legible (t : Tree) : Prop extends t.Readable where
  clear : t.Clear

theorem Clear.below (h : (ofRule rule parts).Clear) : ∀ part ∈ parts, part.Clear :=
  fun part member call inside => h call (by
    rw [nodes_ofRule]
    exact List.mem_cons_of_mem _ (mem_nodesAll.mpr ⟨part, member, inside⟩))

theorem significant_of_isExpression {t : Tree} (h : t.label.isExpression) : t.isTrivia = false := by
  cases label : t.label <;>
    simp_all [Label.isExpression, isTrivia, tokenKind?, Label.tokenKind?]

/-- The nodes under a rule of a body that are strings are closed. -/
theorem closesQuote_of_fits {nodes : List Tree} (body : isBody (.rule rule))
    (fits : nodes ∈ production rule) :
    ∀ t ∈ nodes, t.label = .token .string → Grammar.closesQuote t.ownText := by
  intro t member label
  have stands := only_body body nodes fits t member
  obtain rfl : rule = .primary := by simpa [label, mayStand, isBody, Label.isPart] using stands
  by_cases string : nodes ∈ Grammar.closedString
  · obtain ⟨t, rfl, -, closed⟩ := string
    obtain rfl := List.mem_singleton.mp member
    exact closed
  -- The other operands are made of what may stand elsewhere too.
  have only : Only (fun label => label ≠ .token .string) (Grammar.tokOf Grammar.Form.isAtom +
      Grammar.tok .identifier + Grammar.tok .lParen * Grammar.expr * Grammar.tok .rParen +
      Grammar.tok .kwNew * Grammar.nodeOf .typeRef * Grammar.created +
      Grammar.expr * Grammar.tok .dot * Grammar.tok .identifier) := by
    have expr : ∀ label : Label, label.isExpression → label ≠ .token .string := by
      rintro label isExpression rfl
      simp [Label.isExpression] at isExpression
    unfold Grammar.created Grammar.elements
    repeat' first
      | exact Grammar.only_one
      | apply Grammar.only_mul
      | apply Grammar.only_add
      | apply Grammar.only_opt
      | apply Grammar.only_kstar
      | exact Grammar.only_expr expr
      | exact Grammar.only_tok (by simp)
      | exact Grammar.only_nodeOf (by simp)
      | apply Grammar.only_tokOf
    intro kind admitted
    cases kind <;> first | (exact absurd admitted (by decide)) | simp
  refine absurd label (only nodes ?_ t member)
  rcases fits with ((((fits | fits) | fits) | fits) | fits) | fits
  · exact .inl (.inl (.inl (.inl fits)))
  · exact absurd fits string
  · exact .inl (.inl (.inl (.inr fits)))
  · exact .inl (.inl (.inr fits))
  · exact .inl (.inr fits)
  · exact .inr fits

/-- Whatever stands under a readable node is readable. -/
theorem Readable.below (h : (ofRule rule parts).Readable) : ∀ part ∈ parts, part.Readable := by
  intro part member
  obtain ⟨fits, met⟩ := Grammar.Contract.met_ofRule.mp h.met
  have tidy := (tidy_ofRule.mp h.tidy).1 part member
  have faultless := (faultless_ofRule.mp h.faultless).2 part member
  by_cases trivia : part.isTrivia
  · obtain ⟨t, rfl⟩ := tidy.eq_leaf (isToken_of_isTrivia trivia)
    obtain ⟨kind, span, text⟩ := t
    cases kind <;> simp [Token.isTrivia, TokenKind.isTrivia] at trivia
    exact ⟨tidy, faultless, met _ member, rfl, by simp [Tree.leaf]⟩
  · have significant : part ∈ withoutTrivia parts :=
      List.mem_filter.mpr ⟨member, by simpa using trivia⟩
    exact ⟨tidy, faultless, met part member,
      isBody_of_mayStand (only_body h.body _ fits part significant),
      closesQuote_of_fits h.body fits part significant⟩

/-- Whatever stands under a legible node is legible. -/
theorem Legible.below (h : (ofRule rule parts).Legible) : ∀ part ∈ parts, part.Legible :=
  fun part member => ⟨h.toReadable.below part member, h.clear.below part member⟩

theorem Readable.fits (h : (ofRule rule parts).Readable) : withoutTrivia parts ∈ production rule :=
  (Grammar.Contract.met_ofRule.mp h.met).1

theorem Readable.flanks (h : (ofRule rule parts).Readable) : Opened parts ∧ Closed parts :=
  (tidy_ofRule.mp h.tidy).2 (faultless_ofRule.mp h.faultless).1

/-- All strings in a readable node are closed. -/
theorem Readable.strings {t : Tree} (h : t.Readable) : Sealed t.lexemes := by
  have tidy := h.tidy
  induction tidy with
  | leaf t =>
      rw [lexemes_leaf]
      intro l member kind
      obtain rfl : l = t.lexeme := by simpa using member
      exact h.closed (congrArg Label.token kind)
  | node rule parts _ _ ih =>
      rw [lexemes_ofRule]
      intro l member
      obtain ⟨part, inParts, inPart⟩ := mem_lexemesAll.mp member
      exact ih part inParts (h.below part inParts) l inPart

/-! ## Taking nodes apart -/

/-- The first of the nodes that are not trivia, what stands before and what behind it. -/
theorem split_significant {ps rest : List Tree} {a : Tree} (h : withoutTrivia ps = a :: rest) :
    ∃ gap qs, ps = gap ++ a :: qs ∧ (∀ g ∈ gap, g.isTrivia) ∧ withoutTrivia qs = rest := by
  obtain ⟨gap, qs, rfl, trivia, -, behind⟩ := List.filter_eq_cons_iff.mp h
  exact ⟨gap, qs, rfl, by simpa using trivia, behind⟩

theorem Opened.eq_cons {ps rest : List Tree} {a : Tree} (opened : Opened ps)
    (h : withoutTrivia ps = a :: rest) : ∃ qs, ps = a :: qs ∧ withoutTrivia qs = rest := by
  obtain ⟨first, qs, rfl, significant⟩ := opened
  obtain ⟨rfl, behind⟩ : first = a ∧ withoutTrivia qs = rest := by
    simpa [withoutTrivia, significant] using h
  exact ⟨qs, rfl, behind⟩

theorem Closed.eq_concat {ps rest : List Tree} {a : Tree} (closed : Closed ps)
    (h : withoutTrivia ps = rest ++ [a]) : ∃ qs, ps = qs ++ [a] ∧ withoutTrivia qs = rest := by
  obtain ⟨qs, last, rfl, significant⟩ := closed
  have ends : withoutTrivia qs ++ [last] = rest ++ [a] := by
    rw [← h]
    simp [withoutTrivia, significant]
  obtain ⟨before, same⟩ := List.append_inj' ends rfl
  obtain rfl : last = a := by simpa using same
  exact ⟨qs, rfl, before⟩

theorem Closed.tail {ps : List Tree} {a : Tree} (closed : Closed (a :: ps)) (goesOn : ps ≠ []) :
    Closed ps := by
  obtain ⟨init, last, whole, significant⟩ := closed
  rcases List.eq_nil_or_concat' ps with rfl | ⟨front, p, rfl⟩
  · exact absurd rfl goesOn
  · rw [← List.cons_append] at whole
    obtain rfl : p = last := by simpa using (List.append_inj' whole rfl).2
    exact ⟨front, p, rfl, significant⟩

theorem Closed.eq_nil (ps : List Tree) {qs : List Tree} (closed : Closed (ps ++ qs))
    (h : withoutTrivia qs = []) : qs = [] := by
  obtain ⟨init, last, whole, significant⟩ := closed
  rcases List.eq_nil_or_concat' qs with rfl | ⟨front, q, rfl⟩
  · rfl
  · rw [← List.append_assoc] at whole
    obtain rfl : q = last := by simpa using (List.append_inj' whole rfl).2
    simp [withoutTrivia, significant] at h

end Tree

end QuestScript
