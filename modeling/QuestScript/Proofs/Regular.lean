/-
# QuestScript.Proofs.Regular -- expressions that have no other reading

A tree of nodes that fit the strict phrases, with no trivia at the edges of its nodes, is
`Regular`.  There is only one such tree for its tokens.

What stands under a node is taken apart along the language that it is a word of
(`split_mul`), the trivia before a node going with that node.
-/
import QuestScript.Proofs.Grammatical
import QuestScript.Proofs.Legible

namespace QuestScript.Grammar

open QuestScript.Tree (Closed Opened leaf ofRule tokensAll tokensAll_append withoutTrivia
  withoutTrivia_append withoutTrivia_nil)
open scoped Computability

set_option autoImplicit false

/-! ## Regular trees -/

theorem isToken_of_token {t : Tree} {k : TokenKind} (label : t.label = .token k) : t.isToken := by
  simp [Tree.isToken, Tree.tokenKind?, label, Label.tokenKind?]

theorem isToken_of_rule {t : Tree} {rule : Rule} (label : t.label = .rule rule) :
    t.isToken = false := by
  simp [Tree.isToken, Tree.tokenKind?, label, Label.tokenKind?]

theorem isToken_of_isExpression {t : Tree} (isExpr : t.label.isExpression) : t.isToken = false := by
  cases label : t.label with
  | token k => simp [label, Label.isExpression] at isExpr
  | rule r => exact isToken_of_rule label

/-- A tree of leaves and strict phrases, in which no node begins or ends with trivia. -/
structure Regular (t : Tree) : Prop where
  tidy : t.Tidy
  fits : ∀ node ∈ t.nodes, ∀ rule, node.label = .rule rule → node.significant ∈ strict rule

theorem regular_leaf (t : Token) : Regular (leaf t) where
  tidy := .leaf t
  fits node member rule label := by
    obtain rfl : node = leaf t := by simpa using member
    simp [leaf] at label

theorem regular_ofRule {rule : Rule} {parts : List Tree} (fits : withoutTrivia parts ∈ strict rule)
    (opened : Opened parts) (closed : Closed parts) (regular : ∀ part ∈ parts, Regular part) :
    Regular (ofRule rule parts) where
  tidy := .node rule parts (fun part member => (regular part member).tidy) fun _ => ⟨opened, closed⟩
  fits node member rule' label := by
    rw [Tree.nodes_ofRule, List.mem_cons] at member
    rcases member with rfl | below
    · obtain rfl : rule = rule' := by simpa [ofRule] using label
      exact fits
    · obtain ⟨part, inParts, inside⟩ := Tree.mem_nodesAll.mp below
      exact (regular part inParts).fits node inside rule' label

theorem regular_single {rule : Rule} {t : Token} (significant : t.isTrivia = false)
    (fits : [leaf t] ∈ strict rule) : Regular (ofRule rule [leaf t]) :=
  regular_ofRule (by rwa [Tree.withoutTrivia_leaf significant]) ⟨leaf t, [], rfl, significant⟩
    ⟨[], leaf t, rfl, significant⟩ (by simpa using regular_leaf t)

namespace Regular

variable {t : Tree}

theorem met (h : Regular t) : shape.Met t := fun node member rule label =>
  phrase_le_production rule (strict_le_phrase rule (h.fits node member rule label))

theorem worded (h : Regular t) : Worded t := worded_of_met t h.met

theorem faultless (h : Regular t) : t.Faultless :=
  fun node member label => h.met node member _ label

/-- A regular node of a rule is made of regular parts, the first and last of them significant. -/
theorem eq_ofRule (h : Regular t) {rule : Rule} (label : t.label = .rule rule) :
    ∃ parts, t = ofRule rule parts ∧ (∀ part ∈ parts, Regular part) ∧
      withoutTrivia parts ∈ strict rule ∧ Opened parts ∧ Closed parts := by
  obtain ⟨tidy, fits⟩ := h
  have fitsTop := fits t t.mem_nodes_self rule label
  cases tidy with
  | leaf t => simp [leaf] at label
  | node rule' parts tidy flanked =>
      obtain rfl : rule' = rule := by simpa [ofRule] using label
      have notError : rule' ≠ .error := by
        rintro rfl
        exact fitsTop
      refine ⟨parts, rfl, fun part member => ⟨tidy part member, ?_⟩, fitsTop, flanked notError⟩
      intro node inside
      exact fits node (List.mem_cons_of_mem _ (Tree.mem_nodesAll.mpr ⟨part, member, inside⟩))

/-- No trivia stands before a regular node that is not trivia itself. -/
theorem afterTrivia_tokens (h : Regular t) (significant : t.isTrivia = false) (us : List Token) :
    afterTrivia (t.tokens ++ us) = t.tokens ++ us := by
  obtain ⟨⟨l, ls, row, isSignificant⟩, -⟩ := h.tidy.flanked h.faultless significant
  rw [Tree.lexemes] at row
  cases tokens : t.tokens with
  | nil => simp [tokens] at row
  | cons first rest =>
      rw [tokens, List.map_cons, List.cons.injEq] at row
      obtain ⟨rfl, -⟩ := row
      exact List.dropWhile_cons_of_neg (by simpa using isSignificant)

end Regular

/-! ## Parts of a node -/

/-- The nodes do not end with trivia. -/
def Capped (parts : List Tree) : Prop := ∀ t ∈ parts.getLast?, t.isTrivia = false

section Parts

variable {parts p q gap nodes : List Tree} {s : Tree} {K L : Language Tree}

theorem capped_of_closed (h : Closed parts) : Capped parts := by
  obtain ⟨init, last, rfl, significant⟩ := h
  intro t isLast
  obtain rfl : last = t := by simpa using isLast
  exact significant

theorem capped_concat (significant : s.isTrivia = false) : Capped (parts ++ [s]) :=
  capped_of_closed ⟨parts, s, rfl, significant⟩

theorem Capped.of_append (h : Capped (p ++ q)) : Capped q := by
  intro t isLast
  refine h t ?_
  rw [List.getLast?_append]
  simp [Option.mem_def.mp isLast]

theorem Capped.eq_nil (h : Capped parts) (none : withoutTrivia parts = []) : parts = [] := by
  rcases List.eq_nil_or_concat' parts with rfl | ⟨init, last, rfl⟩
  · rfl
  · have significant := h last (by simp)
    simp [withoutTrivia, significant] at none

/-- Nodes over a product come apart into nodes over its factors. -/
theorem split_mul (h : withoutTrivia parts ∈ K * L) (capped : Capped parts) :
    ∃ p q, parts = p ++ q ∧ withoutTrivia p ∈ K ∧ Capped p ∧ withoutTrivia q ∈ L ∧ Capped q := by
  obtain ⟨k, inK, l, inL, split⟩ := Language.mem_mul.mp h
  rcases List.eq_nil_or_concat' k with rfl | ⟨init, s, rfl⟩
  · obtain rfl : l = withoutTrivia parts := split
    exact ⟨[], parts, rfl, inK, by simp [Capped], inL, capped⟩
  · have whole : withoutTrivia parts = init ++ s :: l := by simp [← split]
    obtain ⟨front, back, rfl, rfl, ends⟩ := List.filter_eq_append_iff.mp whole
    obtain ⟨gap, q, rfl, trivia, rfl⟩ := Tree.split_significant ends
    have significant : s.isTrivia = false := by
      have inside : s ∈ withoutTrivia (gap ++ s :: q) := by
        rw [show withoutTrivia (gap ++ s :: q) = s :: withoutTrivia q from ends]
        exact List.mem_cons_self
      simpa using (List.mem_filter.mp inside).2
    have silent : withoutTrivia gap = [] := List.filter_eq_nil_iff.mpr (by simpa using trivia)
    refine ⟨front ++ gap ++ [s], q, by simp, ?_, capped_concat significant, inL, ?_⟩
    · rw [withoutTrivia_append, withoutTrivia_append, silent, List.append_nil]
      simpa [withoutTrivia, significant] using inK
    · exact Capped.of_append (p := front ++ gap ++ [s]) (by simpa using capped)

/-- One significant node stands behind trivia alone. -/
theorem split_single (h : withoutTrivia parts = [s]) (capped : Capped parts) :
    ∃ gap, parts = gap ++ [s] ∧ ∀ g ∈ gap, g.isTrivia := by
  obtain ⟨gap, behind, rfl, trivia, none⟩ := Tree.split_significant h
  have ends : Capped behind := Capped.of_append (p := gap ++ [s]) (by simpa using capped)
  obtain rfl := ends.eq_nil none
  exact ⟨gap, rfl, trivia⟩

/-- What a node begins with, and what is behind that. -/
theorem split_base {p : Tree → Prop} (member : withoutTrivia parts ∈ single p * L)
    (opened : Opened parts) (closed : Closed parts) :
    ∃ base rest, parts = base :: rest ∧ p base ∧ withoutTrivia rest ∈ L ∧ Capped rest := by
  obtain ⟨base, others, split, holds, inL⟩ := mem_single_mul.mp member
  obtain ⟨rest, rfl, rfl⟩ := opened.eq_cons split
  exact ⟨base, rest, rfl, holds, inL, Capped.of_append (p := [base]) (capped_of_closed closed)⟩

theorem exists_leaves (tokens : ∀ t ∈ parts, t.isToken) (regular : ∀ t ∈ parts, Regular t) :
    ∃ ts : List Token, parts = ts.map leaf := by
  induction parts with
  | nil => exact ⟨[], rfl⟩
  | cons t parts ih =>
      obtain ⟨token, others⟩ := List.forall_mem_cons.mp tokens
      obtain ⟨regularT, regularOthers⟩ := List.forall_mem_cons.mp regular
      obtain ⟨u, rfl⟩ := regularT.tidy.eq_leaf token
      obtain ⟨ts, rfl⟩ := ih others regularOthers
      exact ⟨u :: ts, rfl⟩

/-- Nodes that are significant tokens have their kinds as their word. -/
theorem wordOf_of_labels {w : List TokenKind} (labels : nodes.map Tree.label = w.map Label.token)
    (plain : ∀ k ∈ w, k.isTrivia = false) : wordOf nodes = w := by
  induction w generalizing nodes with
  | nil => rw [List.map_eq_nil_iff.mp labels, wordOf_nil]
  | cons k w ih =>
      obtain ⟨t, rest, rfl, label, labels⟩ := List.map_eq_cons_iff.mp labels
      obtain ⟨first, others⟩ := List.forall_mem_cons.mp plain
      rw [wordOf_cons, wordOf_token label, if_neg (by simp [first]), ih labels others]
      rfl

end Parts

/-! ## Sizes -/

/-- How many significant tokens stand below some nodes. -/
def size (nodes : List Tree) : Nat := (wordOf nodes).length

section Size

variable {t first : Tree} {parts others nodes : List Tree}

@[simp] theorem size_append (nodes nodes' : List Tree) :
    size (nodes ++ nodes') = size nodes + size nodes' := by simp [size]

theorem size_cons (t : Tree) (nodes : List Tree) : size (t :: nodes) = size [t] + size nodes :=
  size_append [t] nodes

@[simp] theorem size_ofRule (rule : Rule) (parts : List Tree) :
    size [ofRule rule parts] = size parts := by
  simp [size, wordOf, Tree.tokensAll]

@[simp] theorem size_withoutTrivia (nodes : List Tree) :
    size (withoutTrivia nodes) = size nodes := by
  simp [size]

theorem size_token {k : TokenKind} (label : t.label = .token k) (plain : k.isTrivia = false) :
    size [t] = 1 := by
  rw [size, wordOf_token label, plain]
  rfl

theorem size_le_of_mem (h : t ∈ nodes) : size [t] ≤ size nodes := by
  obtain ⟨front, back, rfl⟩ := List.append_of_mem h
  rw [size_append, size_cons t back]
  omega

theorem Regular.size_pos (h : Regular t) (isExpr : t.label.isExpression) : 0 < size [t] := by
  obtain ⟨⟨k, v, word, -⟩, -⟩ := h.worded.expression isExpr
  simp [size, word]

theorem tokens_base (rule : Rule) (base : Tree) (rest : List Tree) (us : List Token) :
    (ofRule rule (base :: rest)).tokens ++ us = base.tokens ++ (tokensAll rest ++ us) := by
  rw [Tree.tokens_ofRule, ← List.append_assoc]
  rfl

/-- What begins with a token has its kind before the rest of the word. -/
theorem wordOf_split {k : TokenKind} (split : withoutTrivia parts = first :: others)
    (label : first.label = .token k) (plain : k.isTrivia = false) :
    wordOf (withoutTrivia parts) = k :: wordOf others := by
  rw [split, wordOf_cons, wordOf_token label, plain]
  rfl

theorem size_of_word {k : TokenKind} {w : List TokenKind}
    (word : wordOf (withoutTrivia parts) = k :: w) : size parts = w.length + 1 := by
  rw [← size_withoutTrivia, size, word, List.length_cons]

/-- A node that is no token is among the significant ones. -/
theorem mem_withoutTrivia {part : Tree} (member : part ∈ parts) (node : part.isToken = false) :
    part ∈ withoutTrivia parts :=
  List.mem_filter.mpr ⟨member, by
    simpa using fun trivia => Bool.false_ne_true (node ▸ Tree.isToken_of_isTrivia trivia)⟩

/-- The word of a type is one of a type that is nested no deeper than it is long. -/
theorem Regular.typeWord (h : Regular t) (label : t.label = .rule .typeRef) :
    wordOf [t] ∈ typeWords (size [t]) := by
  obtain ⟨d, w, word, labels⟩ := h.fits t t.mem_nodes_self .typeRef label
  have spelled : wordOf [t] = w := by
    rw [wordOf_rule label]
    refine wordOf_of_labels labels fun k member => ?_
    have isType := isTypeToken_of_mem word member
    cases k <;> first | rfl | simp [isTypeToken] at isType
  rw [size, spelled]
  exact mem_typeWords_length word

end Size

end QuestScript.Grammar
