/-
# QuestScript.Proofs.ScriptNodes -- the nodes of a script

Every node below the root of a script is put together as reading puts nodes together, whatever is
wrong with the script.  So trivia stands between the children of a rule and never at their edges
(`Parsed.ofTokens_flanked`), right behind a recovery too; only the root and the nodes over skipped
tokens may begin or end with it.

In a script in order the leaves of a node are some of the script's tokens in a row besides
(`Parsed.node_of_isOk`).  So they are a row for the lexer too, before what is behind them
(`Parsed.row_of_mem`), and a node that may stand in a body is readable (`Parsed.readable_of_mem`).
-/
import QuestScript.Proofs.Legible

namespace QuestScript

set_option autoImplicit false

namespace Tree

theorem mem_nodes_trans {t u node : Tree} (inside : u ∈ t.nodes) (member : node ∈ u.nodes)
    (tidy : t.Tidy) : node ∈ t.nodes := by
  induction tidy with
  | leaf tok =>
      obtain rfl : u = leaf tok := by simpa using inside
      exact member
  | node rule parts _ _ ih =>
      rw [nodes_ofRule, List.mem_cons] at inside
      rcases inside with rfl | below
      · exact member
      · obtain ⟨part, isPart, within⟩ := mem_nodesAll.mp below
        rw [nodes_ofRule]
        exact List.mem_cons_of_mem _ (mem_nodesAll.mpr ⟨part, isPart, ih part isPart within⟩)

end Tree

namespace Parsed

open Grammar (shape Form)
open Lexeme (Row)
open QuestScript.Tree (Closed Opened ofRule lexemesAll nodesAll)

variable {limit : Nat} {ts : List Token} {node : Tree}

/-! ## Any script -/

theorem tidy_of_mem (member : node ∈ nodesAll (ofTokens limit ts).root.children) : node.Tidy := by
  obtain ⟨parts, reported, done, whole⟩ := ofTokens_eq limit ts
  rw [whole, children_rootOf] at member
  obtain ⟨part, isPart, inside⟩ := Tree.mem_nodesAll.mp member
  exact ((Form.script_tidy done part isPart).of_mem_nodes inside).1

/-- **Trivia stands between nodes, never at their edges.**  Below the root of any script every rule
but the one over skipped tokens has children, and the first and the last of them are not trivia. -/
theorem ofTokens_flanked (limit : Nat) (ts : List Token) :
    ∀ node ∈ nodesAll (ofTokens limit ts).root.children, ∀ rule, node.label = .rule rule →
      rule ≠ .error → Opened node.children ∧ Closed node.children := by
  intro node member rule label notError
  have tidy := tidy_of_mem member
  obtain ⟨parts, rfl⟩ := tidy.eq_ofRule label
  exact (Tree.tidy_ofRule.mp tidy).2 notError

/-- A statement is given up, and what is skipped begins with a blank; the statement behind it does
not, and neither does the process around both. -/
theorem ofTokens_flanked_recovery :
    let ts := Token.ofText "process p \x7b a = 1 b ; if ( c ) d ; \x7d // end".toList
    (ofTokens 8 ts).isOk = false ∧
      (∃ node ∈ nodesAll (ofTokens 8 ts).root.children, node.label = .rule .ifStatement ∧
        Opened node.children ∧ Closed node.children) ∧
      ∃ node ∈ nodesAll (ofTokens 8 ts).root.children, node.label = .rule .processDecl ∧
        Opened node.children ∧ Closed node.children := by
  intro ts
  have notOk : (ofTokens 8 ts).isOk = false := by decide +kernel
  have branch : ∃ node ∈ nodesAll (ofTokens 8 ts).root.children,
      node.label = .rule .ifStatement := by decide +kernel
  have process : ∃ node ∈ nodesAll (ofTokens 8 ts).root.children,
      node.label = .rule .processDecl := by decide +kernel
  have flanked := ofTokens_flanked 8 ts
  obtain ⟨inner, inside, isBranch⟩ := branch
  obtain ⟨outer, around, isProcess⟩ := process
  exact ⟨notOk, ⟨inner, inside, isBranch, flanked inner inside _ isBranch (by decide)⟩,
    outer, around, isProcess, flanked outer around _ isProcess (by decide)⟩

/-! ## A script in order -/

/-- A node below the root stands in one of the trees that were read without a report. -/
theorem part_of_mem (ok : (ofTokens limit ts).isOk) (member : node ∈ (ofTokens limit ts).root.nodes)
    (notRoot : node.label ≠ .rule .script) :
    ∃ parts, Form.script.readAt limit [] (body ts) = .done parts [] [] ∧
      Tree.tokensAll parts = body ts ∧ ∃ part ∈ parts, node ∈ part.nodes := by
  obtain ⟨parts, done, whole⟩ := script_of_isOk ok
  have leaves := (tokens_root limit ts).2 ok
  rw [whole] at member leaves
  rw [tokens_rootOf] at leaves
  refine ⟨parts, done, leaves, ?_⟩
  cases parts with
  | nil =>
      obtain rfl : node = rootOf (endSpan ts) [] := by
        simpa [rootOf, Tree.nodes, Tree.nodesAll] using member
      exact absurd rfl notRoot
  | cons part parts =>
      rw [rootOf_cons, Tree.nodes_ofRule, List.mem_cons] at member
      rcases member with rfl | below
      · exact absurd rfl notRoot
      · exact Tree.mem_nodesAll.mp below

/-- A node below the root was read without a report, from tokens in a row. -/
theorem node_of_isOk (ok : (ofTokens limit ts).isOk) (member : node ∈ (ofTokens limit ts).root.nodes)
    (notRoot : node.label ≠ .rule .script) : node.Tidy ∧ node.Faultless ∧ shape.Met node ∧
      ∃ before behind, body ts = before ++ (node.tokens ++ behind) := by
  obtain ⟨parts, done, leaves, part, isPart, inside⟩ := part_of_mem ok member notRoot
  have tidy := Form.script_tidy done part isPart
  obtain ⟨tidyNode, faultless, before, behind, row⟩ := tidy.of_mem_nodes inside
  obtain ⟨left, right, rfl⟩ := List.append_of_mem isPart
  refine ⟨tidyNode, faultless (Form.script_faultless done part isPart), ?_,
    Tree.tokensAll left ++ before, behind ++ Tree.tokensAll right, ?_⟩
  · exact fun u within => (Form.script_shaped done).2 part isPart u
      (Tree.mem_nodes_trans inside within tidy)
  · rw [← leaves]
    simp [Tree.tokensAll_append, Tree.tokensAll, row]

/-- The leaves of a node stand before what is behind them. -/
theorem row_of_mem {text : String} (ok : (ofText limit text).isOk)
    (member : node ∈ (ofText limit text).root.nodes) (notRoot : node.label ≠ .rule .script) :
    ∃ rest, Row node.lexemes rest := by
  obtain ⟨-, -, -, before, behind, split⟩ := node_of_isOk ok member notRoot
  have row := Lexeme.row_ofText text.toList
  rw [← lexemes_body, split, List.map_append, List.map_append, Lexeme.row_append,
    Lexeme.row_append] at row
  exact ⟨_, row.2.1⟩

/-- A rule that stands in a body is readable, and so is the text of its leaves. -/
theorem readable_of_mem {text : String} {rule : Rule} (ok : (ofText limit text).isOk)
    (member : node ∈ (ofText limit text).root.nodes) (label : node.label = .rule rule)
    (isPart : (Label.rule rule).isPart) :
    ∃ parts rest, node = ofRule rule parts ∧ (ofRule rule parts).Readable ∧
      Row (lexemesAll parts) rest := by
  have notRoot : node.label ≠ .rule .script := by
    rw [label]
    rintro ⟨⟩
    simp [Label.isPart, Rule.isExpression, Rule.isStatement] at isPart
  obtain ⟨tidy, faultless, met, -⟩ := node_of_isOk ok member notRoot
  obtain ⟨rest, row⟩ := row_of_mem ok member notRoot
  obtain ⟨parts, rfl⟩ := tidy.eq_ofRule label
  rw [Tree.lexemes_ofRule] at row
  exact ⟨parts, rest, rfl, ⟨tidy, faultless, met, by simp [Tree.isBody, label, isPart],
    by simp [label]⟩, row⟩

end Parsed

end QuestScript
