/-
# QuestScript.Proofs.Rereading -- expressions of a script, read on their own

Every node of a script in order is regular (`Parsed.regular_of_mem`): what the phrases leave
open was decided early wherever it was read.  So an expression stands in no need of what was
around it.  A text that has its words, with any trivia between them, is one expression from its
first character to its last, and the same tree but for trivia and places
(`Parsed.readsAs_of_words`).
-/
import QuestScript.Proofs.Completeness
import QuestScript.Proofs.ScriptNodes

namespace QuestScript

set_option autoImplicit false

namespace Grammar.Form

variable {n : Nat} {ts rest : List Token} {parts : List Tree} {reported : List Fault}

/-- What is read as an expression is tidy, if no trivia stands before it. -/
theorem expression_tidy (flushed : afterTrivia ts = ts)
    (done : expression.readAt n [] ts = .done parts rest reported) : ∀ part ∈ parts, part.Tidy := by
  have placed : expression.place (.known .absent false true) = some _ := rfl
  have start : Footing.Holds [] ts (.known .absent false true) := ⟨rfl, by simp, fun _ => flushed⟩
  exact (readAt_induct place_sound n (by decide) [] ts _ start (by simp) _ placed _ _ _ done).2

theorem expression_faultless (done : expression.readAt n [] ts = .done parts rest []) :
    ∀ part ∈ parts, part.Faultless :=
  readAt_induct faultless_inductive n (by decide) [] ts (by decide) (by simp) _ _ done

end Grammar.Form

namespace Parsed

open Grammar (Form Outcome Regular Before kinds wording significant afterTrivia)
open Lexeme (Flanked words)
open QuestScript.Tree (lexemesAll)

variable {limit : Nat} {ts : List Token} {node e u : Tree} {text : String}

/-- **Nodes of a script in order are regular.** -/
theorem regular_of_mem (ok : (ofTokens limit ts).isOk)
    (member : node ∈ (ofTokens limit ts).root.nodes) (notRoot : node.label ≠ .rule .script) :
    Regular node := by
  obtain ⟨parts, done, -, part, isPart, inside⟩ := part_of_mem ok member notRoot
  have tidy := Form.script_tidy done part isPart
  have sound := (Form.script_sound done).2 part isPart
  exact ⟨(tidy.of_mem_nodes inside).1, fun u within =>
    sound.fits u (Tree.mem_nodes_trans inside within tidy)⟩

/-! ## Texts that are one expression -/

/-- The text is the expression and nothing else, if so many levels of nesting are allowed. -/
def ReadsAs (limit : Nat) (text : String) (e : Tree) : Prop :=
  Form.expression.readAt limit [] (body (Token.ofText text.toList)) = .done [e] [] []

/-- An expression is made of the lexemes of the text, if that does not begin with trivia. -/
theorem ReadsAs.sound (h : ReadsAs limit text e)
    (begins : ∃ first more, Lexeme.ofText text.toList = first :: more ∧ first.isTrivia = false) :
    e.Tidy ∧ e.Faultless ∧ e.lexemes = Lexeme.ofText text.toList := by
  have flushed : afterTrivia (body (Token.ofText text.toList)) = body (Token.ofText text.toList) :=
    afterTrivia_of_begins (by rwa [lexemes_body])
  have row := lexemes_read (by decide) (show _ = Outcome.done ([] ++ [e]) [] [] from h)
  refine ⟨Form.expression_tidy flushed h e (by simp), Form.expression_faultless h e (by simp), ?_⟩
  simpa [lexemes_body] using row.symm

/-- A text that reads as an expression ends with a token, if it does not begin with trivia. -/
theorem ReadsAs.flanked (h : ReadsAs limit text e)
    (begins : ∃ first more, Lexeme.ofText text.toList = first :: more ∧ first.isTrivia = false) :
    Flanked (Lexeme.ofText text.toList) := by
  obtain ⟨tidy, faultless, lexemes⟩ := h.sound begins
  rw [← lexemes] at begins ⊢
  refine tidy.flanked faultless (Bool.eq_false_iff.mpr fun trivia => ?_)
  obtain ⟨tok, rfl⟩ := tidy.eq_leaf (Tree.isToken_of_isTrivia trivia)
  obtain ⟨first, more, row, significant⟩ := begins
  rw [Tree.lexemes_leaf] at row
  obtain ⟨rfl, -⟩ := List.cons.inj row
  exact Bool.false_ne_true (significant.symm.trans trivia)

/-- **An expression is read on its own.**  A text with the words of an expression that is regular
reads as the expression, if there are more levels than words. -/
theorem readsAs_of_words (regular : Regular e) (isExpr : e.label.isExpression)
    (flanked : Flanked (Lexeme.ofText text.toList))
    (same : words (Lexeme.ofText text.toList) = words e.lexemes)
    (levels : (significant e.tokens).length + 1 ≤ limit) :
    ∃ u, ReadsAs limit text u ∧ u.bare = e.bare := by
  let again := body (Token.ofText text.toList)
  have lexed : again.map Token.lexeme = Lexeme.ofText text.toList := lexemes_body text.toList
  have atEnd : Before .assignment (kinds []) := rfl
  have read := Form.expression_back regular isExpr levels atEnd
  rw [List.append_nil] at read
  have said : wording again = wording e.tokens := by
    rw [wording_eq_words, lexed, same, wording_eq_words]
    rfl
  have agrees : (Form.expression.readAt limit [] e.tokens).Agrees [] []
      (Form.expression.readAt limit [] again) :=
    Form.readAt_agrees (by decide) (by decide) (.inl ⟨rfl, rfl⟩) limit rfl
      ⟨wording e.tokens, by simp, by simpa using said⟩ List.nil_suffix
  rw [read] at agrees
  cases outcome : Form.expression.readAt limit [] again with
  | failed fault reported =>
      rw [outcome] at agrees
      exact agrees.elim
  | done frame rest reported =>
      rw [outcome] at agrees
      obtain ⟨bare, ⟨common, none, behind⟩, silent⟩ := agrees
      obtain rfl : reported = [] := by simpa using silent.symm
      have row : Lexeme.ofText text.toList = lexemesAll frame ++ rest.map Token.lexeme := by
        simpa [lexed] using
          lexemes_read (by decide) (show _ = Outcome.done ([] ++ frame) _ _ from outcome)
      -- Nothing is left over, for what is left would end with a token.
      have silentRest : words (rest.map Token.lexeme) = [] := by
        rw [← wording_eq_words, behind, ← none]
        rfl
      obtain ⟨init, last, ends, isWord⟩ := flanked.2
      obtain rfl : rest = [] := List.map_eq_nil_iff.mp (Lexeme.eq_nil_of_words ends isWord row (by
        rw [row, Lexeme.words_append, silentRest, List.append_nil]))
      have whole : lexemesAll frame = Lexeme.ofText text.toList ++ [] := by simpa using row.symm
      have flushed : afterTrivia again = again := afterTrivia_of_begins (lexed ▸ flanked.1)
      have sound : Tree.Sound frame := fun d inFrame =>
        ⟨Form.expression_tidy flushed outcome d inFrame,
          Form.expression_faultless outcome d inFrame⟩
      rw [Tree.bareAll_cons (Tree.significant_of_isExpression isExpr), Tree.bareAll_nil] at bare
      obtain ⟨d, ds, rfl, -, bareD, -, -, soundRest, -, nothing⟩ :=
        Tree.split_part sound flanked same bare.symm whole
      obtain rfl := soundRest.eq_nil nothing
      exact ⟨d, outcome, bareD⟩

end Parsed

end QuestScript
