/-
# QuestScript.Proofs.Lossless -- a tree keeps the tokens of its script

Reading a form takes some tokens from the front and adds leaves to the frame.  The
leaves it adds are among the tokens it takes, in their order, and they are all of them
unless a fault was reported (`Form.readAt_conserves`): only what was read before a form
gave up is lost.  Since a script is read to its end, the leaves of its tree are tokens of
the script, and all of them if there are no diagnostics (`Parsed.tokens_root`).

A tree made of leaves and rules says the text of its leaves, and without nodes over
skipped tokens it covers just them.  So every node of the tree of a script in order spans
its own text (`Parsed.ofTokens_lossless`).
-/
import QuestScript.Proofs.Completion
import QuestScript.Proofs.Faultless
import QuestScript.Proofs.Partition
import QuestScript.Proofs.Placement

namespace QuestScript

open Text (Position Span)

set_option autoImplicit false

/-! ## The leaves that reading adds -/

namespace Tree

theorem tokensAll_leaves (ts : List Token) : tokensAll (ts.map leaf) = ts := by
  induction ts with
  | nil => rfl
  | cons t ts ih => simp [tokensAll, ih]

theorem tokensAll_ofRule (rule : Rule) (parts : List Tree) :
    tokensAll [ofRule rule parts] = tokensAll parts := by
  simp [tokensAll]

end Tree

namespace Grammar

open QuestScript.Tree (tokensAll tokensAll_append tokensAll_leaves tokensAll_ofRule Tidy)

/-- The outcome stands behind tokens taken from the front, and the leaves it added to the frame
are among them; nothing is missing if nothing was reported. -/
def Outcome.Conserves (frame : List Tree) (ts : List Token) : Outcome → Prop
  | .done frame' rest reported => ∃ taken added, ts = taken ++ rest ∧
      tokensAll frame' = tokensAll frame ++ added ∧ added.Sublist taken ∧
      (reported = [] → added = taken)
  | .failed fault _ => fault.rest <:+ ts

namespace Outcome

variable {o : Outcome} {frame : List Tree} {ts : List Token}

theorem conserves_idle (frame : List Tree) (ts : List Token) :
    (Outcome.done frame ts []).Conserves frame ts :=
  ⟨[], [], by simp⟩

theorem Conserves.andThen {next : Reader} (h : o.Conserves frame ts)
    (hnext : ∀ frame' rest reported, o = .done frame' rest reported →
      (next frame' rest).Conserves frame' rest) : (o.andThen next).Conserves frame ts := by
  cases o with
  | failed fault reported => exact h
  | done middle between one =>
      obtain ⟨taken₁, added₁, rfl, same₁, sub₁, all₁⟩ := h
      have second := hnext middle between one rfl
      simp only [Outcome.andThen]
      cases hn : next middle between with
      | failed fault two =>
          rw [hn] at second
          exact second.trans (List.suffix_append taken₁ between)
      | done last rest two =>
          rw [hn] at second
          obtain ⟨taken₂, added₂, rfl, same₂, sub₂, all₂⟩ := second
          refine ⟨taken₁ ++ taken₂, added₁ ++ added₂, by simp, by simp [same₁, same₂],
            sub₁.append sub₂, fun clean => ?_⟩
          obtain ⟨hone, htwo⟩ := List.append_eq_nil_iff.mp clean
          rw [all₁ hone, all₂ htwo]

theorem Conserves.orElse {skip : List Token → Outcome} (h : o.Conserves frame ts)
    (hskip : ∀ fault reported, o = .failed fault reported →
      (skip fault.rest).Conserves frame fault.rest) : (o.orElse skip).Conserves frame ts := by
  cases o with
  | done frame' rest reported => exact h
  | failed fault one =>
      obtain ⟨lost, whole⟩ := h
      have second := hskip fault one rfl
      simp only [Outcome.orElse]
      cases hs : skip fault.rest with
      | failed fault' two =>
          rw [hs] at second
          exact second.trans ⟨lost, whole⟩
      | done last rest two =>
          rw [hs] at second
          obtain ⟨taken, added, skipped, same, sub, -⟩ := second
          refine ⟨lost ++ taken, added, ?_, same, ?_, by simp⟩
          · rw [← whole, skipped, List.append_assoc]
          · exact sub.trans (List.sublist_append_right lost taken)

end Outcome

theorem Reader.ofToken_conserves (test : Token → Option Cause) (atEnd : Cause)
    (frame : List Tree) (ts : List Token) :
    (ofToken test atEnd frame ts).Conserves frame ts := by
  rcases ofToken_cases test atEnd frame ts with ⟨cause, failed⟩ | ⟨t, rest, next, -, done⟩
  · rw [failed]
    exact List.suffix_rfl
  · rw [done]
    refine ⟨leadingTrivia ts ++ [t], leadingTrivia ts ++ [t], ?_, ?_, List.Sublist.refl _,
      fun _ => rfl⟩
    · rw [List.append_assoc, List.singleton_append, ← next, leadingTrivia_append_afterTrivia]
    · simp only [tokensAll_append, tokensAll_leaves, List.append_assoc]
      rfl

namespace Form

theorem conserves_inductive :
    Inductive fun n f frame ts => (f.readAt n frame ts).Conserves frame ts where
  empty n frame ts := Outcome.conserves_idle frame ts
  trivia n frame ts := by
    refine ⟨leadingTrivia ts, leadingTrivia ts, ?_, ?_, List.Sublist.refl _, fun _ => rfl⟩
    · exact (leadingTrivia_append_afterTrivia ts).symm
    · rw [tokensAll_append, tokensAll_leaves]
  token n admits expected frame ts := Reader.ofToken_conserves _ _ frame ts
  string n expected frame ts := Reader.ofToken_conserves _ _ frame ts
  refuse n expected frame ts := List.suffix_rfl
  close n rule frame ts := ⟨[], [], by simp [tokensAll_ofRule]⟩
  seq n first second frame ts ihFirst ihSecond := ihFirst.andThen ihSecond
  frame n body outer ts ih := by
    rw [readAt_frame]
    cases h : body.readAt n [] ts with
    | failed fault reported => rw [h] at ih; exact ih
    | done inner rest reported =>
        rw [h] at ih
        obtain ⟨taken, added, split, same, sub, all⟩ := ih
        refine ⟨taken, added, split, ?_, sub, all⟩
        rw [tokensAll_append, same]
        rfl
  choose n look admits yes no frame ts _ ihYes ihNo := by
    rw [readAt_choose]
    split
    · rename_i looked
      exact ihYes looked
    · rename_i failed
      exact ihNo (by simpa using failed)
  stop n look admits body frame ts productive _ stopped := by
    rw [readAt_repeated productive, stopped]
    exact Outcome.conserves_idle frame ts
  round n look admits body frame ts productive _ looked ihBody ihRest := by
    rw [readAt_repeated productive, if_pos looked]
    exact ihBody.andThen ihRest
  tooDeep entry frame ts := List.suffix_rfl
  enter n entry frame ts ih := ih
  recover n body skip frame ts ihBody ihSkip := ihBody.orElse ihSkip

/-- The leaves that reading adds are among the tokens that it takes, and all of them if nothing
is reported. -/
theorem readAt_conserves {f : Form} (productive : f.productive) (n : Nat) (frame : List Tree)
    (ts : List Token) : (f.readAt n frame ts).Conserves frame ts :=
  readAt_induct conserves_inductive n productive frame ts

end Form

end Grammar

/-! ## Trees and their leaves -/

namespace Tree

theorem toList_fullTexts {parts : List Tree}
    (h : ∀ part ∈ parts, part.fullText.toList = Token.textOf part.tokens) :
    (fullTexts parts).toList = Token.textOf (tokensAll parts) := by
  induction parts with
  | nil => rfl
  | cons part parts ih =>
      simp only [List.forall_mem_cons] at h
      simp [fullTexts, tokensAll, h.1, ih h.2]

/-- A tree says the text of its leaves. -/
theorem Tidy.toList_fullText {t : Tree} (h : t.Tidy) :
    t.fullText.toList = Token.textOf t.tokens := by
  induction h with
  | leaf t => simp [Tree.leaf, fullText, tokens]
  | node rule parts _ _ ih => simpa [ofRule, fullText, tokens] using toList_fullTexts ih

/-- The node spans its leaves, of which there is one. -/
def Covers (t : Tree) : Prop :=
  ∃ first rest, t.tokens = first :: rest ∧ t.span = Token.cover first rest

theorem covers_leaf (t : Token) : (leaf t).Covers :=
  ⟨t, [], tokens_leaf t, rfl⟩

theorem covers_ofRule (rule : Rule) {part : Tree} {parts : List Tree}
    (h : ∀ p ∈ part :: parts, p.Covers) : (ofRule rule (part :: parts)).Covers := by
  obtain ⟨init, last, split⟩ : ∃ init last, part :: parts = init ++ [last] :=
    ⟨_, _, (List.dropLast_append_getLast (by simp)).symm⟩
  obtain ⟨first, rest, leaves, start⟩ := h part (by simp)
  obtain ⟨final, behind, leaves', stop⟩ := h last (by simp [split])
  have ends : parts.getLast?.getD part = last := by
    simpa [List.getLast?_cons] using congrArg List.getLast? split
  have whole : tokensAll (part :: parts) = first :: (rest ++ tokensAll parts) := by
    rw [tokensAll, leaves, List.cons_append]
  refine ⟨first, rest ++ tokensAll parts, by rw [tokens_ofRule, whole], ?_⟩
  have tail := congrArg List.getLast? (whole.symm.trans (congrArg tokensAll split))
  rw [tokensAll_append, tokensAll, leaves'] at tail
  simp only [List.getLast?_cons, List.getLast?_append, tokensAll, List.append_nil,
    Option.some_or, Option.some.injEq] at tail
  simp only [ofRule, cover, ends, start, stop, Token.cover, List.getLast?_append]
  rw [tail]

/-- Where no tokens were skipped, every rule has a part, and spans fit the leaves. -/
theorem Tidy.covers {t : Tree} (h : t.Tidy) (faultless : t.Faultless) : t.Covers := by
  induction h with
  | leaf t => exact covers_leaf t
  | node rule parts _ flanked ih =>
      obtain ⟨notError, below⟩ := faultless_ofRule.mp faultless
      obtain ⟨⟨first, rest, rfl, -⟩, -⟩ := flanked notError
      exact covers_ofRule rule fun part member => ih part member (below part member)

/-- A node in a row of leaves that stand end to end spans its own text. -/
theorem Covers.slice_span {node : Tree} (h : node.Covers)
    (text : node.fullText.toList = Token.textOf node.tokens) (before behind : List Token)
    (placed : Token.EndToEnd .zero (before ++ (node.tokens ++ behind))) :
    node.span.slice (Token.textOf (before ++ (node.tokens ++ behind))) = node.fullText.toList := by
  obtain ⟨first, rest, leaves, span⟩ := h
  rw [leaves] at placed
  rw [text, span, leaves]
  exact Token.slice_cover placed

/-- The leaves of a node stand in a row among those of the tree. -/
theorem Tidy.of_mem_nodes {t node : Tree} (h : t.Tidy) (member : node ∈ t.nodes) :
    node.Tidy ∧ (t.Faultless → node.Faultless) ∧
      ∃ before behind, t.tokens = before ++ (node.tokens ++ behind) := by
  induction h with
  | leaf t =>
      obtain rfl : node = Tree.leaf t := by simpa using member
      exact ⟨.leaf t, id, [], [], by simp⟩
  | node rule parts tidy flanked ih =>
      rw [nodes_ofRule, List.mem_cons] at member
      rcases member with rfl | below
      · exact ⟨.node rule parts tidy flanked, id, [], [], by simp⟩
      · obtain ⟨part, isPart, inside⟩ := mem_nodesAll.mp below
        obtain ⟨tidyNode, faultless, before, behind, row⟩ := ih part isPart inside
        obtain ⟨left, right, rfl⟩ := List.append_of_mem isPart
        refine ⟨tidyNode, fun clean => faultless ((faultless_ofRule.mp clean).2 part isPart),
          tokensAll left ++ before, behind ++ tokensAll right, ?_⟩
        simp [tokensAll_append, tokensAll, row]

end Tree

/-! ## Scripts -/

namespace Parsed

open Grammar (Form)
open QuestScript.Tree (Tidy Faultless Covers tokensAll)

theorem isOk_iff {p : Parsed} : p.isOk ↔ p.diagnostics = [] := List.isEmpty_iff

/-- A script in order is read without a report. -/
theorem script_of_isOk {limit : Nat} {ts : List Token} (ok : (ofTokens limit ts).isOk) :
    ∃ parts, Form.script.readAt limit [] (body ts) = .done parts [] [] ∧
      ofTokens limit ts = ⟨rootOf (endSpan ts) parts, []⟩ := by
  obtain ⟨parts, reported, done, whole⟩ := ofTokens_eq limit ts
  rw [isOk_iff, whole, List.map_eq_nil_iff] at ok
  subst ok
  exact ⟨parts, done, whole⟩

theorem tokens_rootOf (scriptEnd : Span) (parts : List Tree) :
    (rootOf scriptEnd parts).tokens = tokensAll parts := by
  cases parts <;> simp [rootOf, Tree.tokens]

/-- The leaves of the tree of a script are tokens of the script, all of them if it is in
order. -/
theorem tokens_root (limit : Nat) (ts : List Token) :
    (ofTokens limit ts).root.tokens.Sublist (body ts) ∧
      ((ofTokens limit ts).isOk → (ofTokens limit ts).root.tokens = body ts) := by
  obtain ⟨parts, reported, done, whole⟩ := ofTokens_eq limit ts
  have conserved := Form.readAt_conserves Form.script_productive limit [] (body ts)
  rw [done] at conserved
  obtain ⟨taken, added, split, leaves, sublist, all⟩ := conserved
  rw [isOk_iff, whole, tokens_rootOf, leaves, split]
  refine ⟨by simpa [tokensAll] using sublist, fun clean => ?_⟩
  simpa [tokensAll] using all (List.map_eq_nil_iff.mp clean)

/-- The tree of a script in order is made of parts without skipped tokens. -/
theorem root_of_isOk {limit : Nat} {ts : List Token} (ok : (ofTokens limit ts).isOk) :
    ∃ parts, (ofTokens limit ts).root = rootOf (endSpan ts) parts ∧
      ∀ part ∈ parts, part.Tidy ∧ part.Faultless := by
  obtain ⟨parts, done, whole⟩ := script_of_isOk ok
  exact ⟨parts, by rw [whole], fun part member =>
    ⟨Form.script_tidy done part member, Form.script_faultless done part member⟩⟩

/-- The tree of a script says the text of its leaves, whatever is wrong with the script. -/
theorem toList_fullText_root (limit : Nat) (ts : List Token) :
    (ofTokens limit ts).root.fullText.toList = Token.textOf (ofTokens limit ts).root.tokens := by
  obtain ⟨parts, reported, done, whole⟩ := ofTokens_eq limit ts
  rw [whole, tokens_rootOf]
  cases parts with
  | nil => simp [rootOf, Tree.fullText, Tree.fullTexts, tokensAll]
  | cons part parts =>
      rw [rootOf_cons, Tree.ofRule, Tree.fullText]
      exact Tree.toList_fullTexts fun p member => (Form.script_tidy done p member).toList_fullText

/-- Every node of the tree of a script in order cuts its own text out of the script. -/
theorem slice_span {limit : Nat} {ts : List Token} (ok : (ofTokens limit ts).isOk)
    (placed : Token.EndToEnd .zero (body ts)) :
    ∀ node ∈ (ofTokens limit ts).root.nodes,
      node.span.slice (Token.textOf (body ts)) = node.fullText.toList := by
  intro node member
  rw [← (tokens_root limit ts).2 ok] at placed ⊢
  have text := toList_fullText_root limit ts
  obtain ⟨parts, root, sound⟩ := root_of_isOk ok
  rw [root] at member placed text ⊢
  cases parts with
  | nil =>
      obtain rfl : node = _ := by simpa [rootOf, Tree.nodes, Tree.nodesAll] using member
      simp [Text.Span.slice_emptyAt, Tree.fullText, Tree.fullTexts]
  | cons part parts =>
      rw [rootOf_cons] at member placed text ⊢
      rw [Tree.nodes_ofRule, List.mem_cons] at member
      rcases member with rfl | below
      · -- The root may begin and end with trivia, so it is not `Tidy`; but it has parts.
        have covers : (Tree.ofRule .script (part :: parts)).Covers :=
          Tree.covers_ofRule .script fun p isPart => (sound p isPart).1.covers (sound p isPart).2
        simpa using covers.slice_span text [] [] (by simpa using placed)
      · obtain ⟨p, isPart, inside⟩ := Tree.mem_nodesAll.mp below
        obtain ⟨tidy, faultless⟩ := sound p isPart
        obtain ⟨tidyNode, clean, before, behind, row⟩ := tidy.of_mem_nodes inside
        obtain ⟨left, right, split⟩ := List.append_of_mem isPart
        have whole : (Tree.ofRule .script (part :: parts)).tokens =
            (Tree.tokensAll left ++ before) ++
              (node.tokens ++ (behind ++ Tree.tokensAll right)) := by
          simp [split, Tree.tokensAll_append, Tree.tokensAll, row]
        rw [whole] at placed ⊢
        exact (tidyNode.covers (clean faultless)).slice_span tidyNode.toList_fullText _ _ placed

/-- **A parse is lossless.**  The leaves of a tree are tokens of its script, each once and in
order, and all of them if there are no diagnostics; the tree of a script in order then says
the script, and each of its nodes spans its own text. -/
theorem ofTokens_lossless :
    (∀ limit ts, (ofTokens limit ts).root.tokens.Sublist (body ts) ∧
      ((ofTokens limit ts).isOk → (ofTokens limit ts).root.tokens = body ts)) ∧
    ∀ limit source, (ofText limit source).isOk →
      (ofText limit source).root.fullText = source ∧
        ∀ node ∈ (ofText limit source).root.nodes,
          String.ofList (node.span.slice source.toList) = node.fullText := by
  refine ⟨tokens_root, fun limit source ok => ⟨?_, fun node member => ?_⟩⟩
  · rw [ofText] at ok ⊢
    rw [← String.toList_inj, toList_fullText_root, (tokens_root limit _).2 ok, textOf_body]
  · rw [ofText] at ok member
    have cut := slice_span ok (endToEnd_body source.toList) node member
    rw [textOf_body] at cut
    rw [cut, String.ofList_toList]

/-- A script with blanks, a comment and a function keeps all of them. -/
theorem ofText_function_lossless :
    let source := " function f() \x7b return a; \x7d // done"
    (ofText 8 source).isOk = true ∧
      (ofText 8 source).root.tokens = body (Token.ofText source.toList) ∧
      (ofText 8 source).root.fullText = source ∧
      ∀ node ∈ (ofText 8 source).root.nodes,
        String.ofList (node.span.slice source.toList) = node.fullText := by
  intro source
  have ok : (ofText 8 source).isOk = true := by decide +kernel
  have ⟨text, spans⟩ := ofTokens_lossless.2 8 source ok
  exact ⟨ok, (ofTokens_lossless.1 8 _).2 ok, text, spans⟩

end Parsed

end QuestScript
