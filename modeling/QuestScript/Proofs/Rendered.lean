/-
# QuestScript.Proofs.Rendered -- the text of a lowered node

What a call is lowered to is read off its text, wherever its trivia stands
(`functionCall_eq`, `methodCall_eq`), and a list is lowered to a list
(`lower_list`).  So writing a lowered node as source gives the text of the lexemes that the
node is written as, and the blank behind it if it is a token that brings one
(`Legible.render_lower`).
-/
import QuestScript.Proofs.Written

namespace QuestScript

open Text (trim isBlank)

set_option autoImplicit false

/-! ## Blanks at the ends -/

theorem Text.trim_trim (cs : List Char) : trim (trim cs) = trim cs := by
  have front : (trim cs).dropWhile isBlank = trim cs := by
    rw [List.dropWhile_eq_self_iff]
    intro goesOn
    have whole : trim cs <+: cs.dropWhile isBlank := List.rdropWhile_prefix isBlank _
    have first := List.dropWhile_get_zero_not isBlank cs (goesOn.trans_le whole.length_le)
    rwa [List.get_eq_getElem, ← whole.getElem goesOn] at first
  have back : (trim cs).rdropWhile isBlank = trim cs := List.rdropWhile_idempotent isBlank _
  rw [trim, front]
  exact back

namespace Lexeme

variable {l : Lexeme} {ls ms : List Lexeme} {rest : List Char}

theorem Row.stands (row : Row ls rest) (member : l ∈ ls) : ∃ behind, l.Stands behind := by
  induction ls with
  | nil => simp at member
  | cons first ls ih =>
      rcases List.mem_cons.mp member with rfl | later
      · exact ⟨_, row.1⟩
      · exact ih row.2 later

/-- A delimiter in a row is its spelling. -/
theorem Row.delimiter (row : Row ls rest) (member : l ∈ ls) (delimiter : l.kind.isDelimiter) :
    l.text = l.kind.display := by
  obtain ⟨behind, stands⟩ := row.stands member
  exact (stands.delimiter delimiter).1

end Lexeme

namespace Tree

open Lexeme (Row textOf trimmed blank)

/-- A node says what its leaves say. -/
theorem Tidy.textOf_lexemes {t : Tree} (h : t.Tidy) : t.fullText.toList = textOf t.lexemes := by
  rw [h.toList_fullText, lexemes, Lexeme.textOf, List.flatMap_map]
  rfl

/-! ## Calls -/

section Calls

variable {name dot : Token} {gap before behind : List Tree} {receiver arguments : Tree}
  {cs : List Char}

theorem find?_gap {gap : List Tree} (h : ∀ g ∈ gap, g.isTrivia) (rest : List Tree) {label : Label}
    (notTrivia : label.tokenKind?.any TokenKind.isTrivia = false) :
    (gap ++ rest).find? (fun child => child.label = label) =
      rest.find? fun child => child.label = label := by
  rw [List.find?_append, List.find?_eq_none.mpr, Option.none_or]
  intro g member isLabel
  have trivia := h g member
  rw [isTrivia, tokenKind?, of_decide_eq_true isLabel, notTrivia] at trivia
  cases trivia

theorem argumentsText_eq {call : Tree} (found : call.findRule? .arguments = some arguments)
    (text : arguments.fullText.toList = '(' :: (cs ++ [')'])) :
    call.argumentsText = .ok (String.ofList (trim cs)) := by
  rw [argumentsText, found]
  simp only [Text.inside?_eq_some_iff.mpr text, Text.trimmed, String.toList_ofList]

theorem functionCall_eq (isName : name.kind = .identifier) (trivia : ∀ g ∈ gap, g.isTrivia)
    (label : arguments.label = .rule .arguments)
    (text : arguments.fullText.toList = '(' :: (cs ++ [')'])) :
    (ofRule .functionInvoke (leaf name :: (gap ++ [arguments]))).lower =
      .ok (some (.call ⟨none, name.text, String.ofList (trim cs)⟩)) := by
  have found : (ofRule .functionInvoke (leaf name :: (gap ++ [arguments]))).findRule? .arguments =
      some arguments := by
    rw [findRule?, find?, ofRule, List.find?_cons_of_neg (by simp [leaf]), find?_gap trivia _ rfl,
      List.find?_cons_of_pos (by simpa using label)]
  have isFirst : (ofRule .functionInvoke (leaf name :: (gap ++ [arguments]))).findToken?
      .identifier = some (leaf name) := by
    rw [findToken?, find?, ofRule, List.find?_cons_of_pos (by simp [leaf, isName])]
  rw [ofRule, lower, ← ofRule, functionCall, isFirst, argumentsText_eq found text]
  rfl

theorem methodCall_eq (isReceiver : receiver.label.isExpression) (isDot : dot.kind = .dot)
    (isName : name.kind = .identifier) (triviaBefore : ∀ g ∈ before, g.isTrivia)
    (triviaBehind : ∀ g ∈ behind, g.isTrivia) (trivia : ∀ g ∈ gap, g.isTrivia)
    (label : arguments.label = .rule .arguments)
    (text : arguments.fullText.toList = '(' :: (cs ++ [')'])) :
    (ofRule .methodInvoke (receiver :: (before ++ leaf dot ::
        (behind ++ leaf name :: (gap ++ [arguments]))))).lower =
      .ok (some (.call ⟨some receiver.fullText, name.text, String.ofList (trim cs)⟩)) := by
  have notArguments : receiver.label ≠ .rule .arguments := by
    intro isArguments
    simp [isArguments, Label.isExpression, Rule.isExpression] at isReceiver
  have found : (ofRule .methodInvoke (receiver :: (before ++ leaf dot ::
      (behind ++ leaf name :: (gap ++ [arguments]))))).findRule? .arguments = some arguments := by
    rw [findRule?, find?, ofRule, List.find?_cons_of_neg (by simpa using notArguments),
      find?_gap triviaBefore _ rfl, List.find?_cons_of_neg (by simp [leaf]),
      find?_gap triviaBehind _ rfl, List.find?_cons_of_neg (by simp [leaf]),
      find?_gap trivia _ rfl, List.find?_cons_of_pos (by simpa using label)]
  have isNext : (before ++ leaf dot :: (behind ++ leaf name :: (gap ++ [arguments]))).find?
      (fun child => child.label = .token .identifier) = some (leaf name) := by
    rw [find?_gap triviaBefore _ rfl, List.find?_cons_of_neg (by simp [leaf, isDot]),
      find?_gap triviaBehind _ rfl, List.find?_cons_of_pos (by simp [leaf, isName])]
  rw [ofRule, lower, ← ofRule, methodCall, argumentsText_eq found text]
  simp only [ofRule, isNext]
  rfl

end Calls

/-! ## Lists -/

theorem map_eq_ok {α β ε : Type} {f : α → β} {e : Except ε α} {b : β} :
    e.map f = .ok b ↔ ∃ a, e = .ok a ∧ f a = b := by
  cases e <;> simp [Except.map]

theorem composite?_of_isList {rule : Rule} (isList : rule.isList) (notLoop : rule ≠ .forStatement)
    (parts : List Tree) : ∃ kind, (ofRule rule parts).composite? = some kind := by
  cases rule <;> simp [Rule.isList, Rule.keepsText, Rule.isCall, Rule.givesWay, Label.isPart,
    Rule.isExpression, Rule.isStatement] at isList <;>
    first | exact absurd rfl notLoop | exact ⟨_, rfl⟩

/-- A list becomes a list of what its nodes become. -/
theorem lower_list {rule : Rule} {parts : List Tree} {s : Statement} (isList : rule.isList)
    (lowered : (ofRule rule parts).lower = .ok (some s)) :
    ∃ ps, lowerChildren none parts = .ok ps ∧ s.isComposite ∧ s.children = ps.map Prod.snd := by
  by_cases loop : rule = .forStatement
  · subst loop
    rw [lower_loop, map_eq_ok] at lowered
    obtain ⟨s', whole, same⟩ := lowered
    obtain rfl : s' = s := by simpa using same
    cases inner : lowerChildren none parts with
    | error e => simp [inner, Except.bind] at whole
    | ok ps =>
        rw [inner, Except.bind, loopOf_eq_ok] at whole
        obtain ⟨_, _, -, -, -, rfl⟩ := whole
        exact ⟨ps, rfl, rfl, rfl⟩
  · obtain ⟨kind, composite⟩ := composite?_of_isList isList loop parts
    rw [lower_of_composite composite, map_eq_ok] at lowered
    obtain ⟨ps, inner, same⟩ := lowered
    obtain rfl : _ = s := by simpa using same
    exact ⟨ps, inner, rfl, rfl⟩

/-! ## Rendering -/

/-- What is written behind a token of the kind, if anything. -/
def trailing (previous : Option TokenKind) : List Char := if spaced previous then [' '] else []

theorem toList_call (c : Call) : c.text.toList =
    (c.receiver.elim [] fun receiver => receiver.toList ++ ['.']) ++
      (c.name.toList ++ '(' :: (trim c.arguments.toList ++ [')'])) := by
  obtain ⟨_ | receiver, name, arguments⟩ := c <;> simp [Call.text, Text.trimmed]

namespace ArgumentList

variable (args : ArgumentList) {rest : List Char}

/-- The text of the arguments. -/
def text : List Char := textOf (lexemesAll args.inner)

/-- The text of arguments in a row, and what it says once it is written. -/
theorem texts (row : Row args.node.lexemes rest) :
    args.node.fullText.toList = '(' :: (args.text ++ [')']) ∧
      textOf args.written = '(' :: (trim args.text ++ [')']) := by
  rw [lexemes_node] at row
  have isOpening : args.opening.lexeme.kind = .lParen := args.opens
  have isClosing : args.closing.lexeme.kind = .rParen := args.closes
  have opens : args.opening.lexeme.text = "(" := by
    have spelling := row.delimiter (l := args.opening.lexeme) (by simp) (by rw [isOpening]; rfl)
    rwa [isOpening] at spelling
  have closes : args.closing.lexeme.text = ")" := by
    have spelling := row.delimiter (l := args.closing.lexeme) (by simp) (by rw [isClosing]; rfl)
    rwa [isClosing] at spelling
  refine ⟨?_, ?_⟩
  · rw [node, args.readable.tidy.textOf_lexemes, ← node, lexemes_node]
    simp [opens, closes, text]
  · have trims := Lexeme.textOf_trimmed (Lexeme.row_append.mp row.2).1 (by simp [closes])
      args.strings
    simp [written, opens, closes, trims, text]

end ArgumentList

namespace Invocation

variable {call : Invocation} {rest : List Char}

theorem row_arguments (row : Row (lexemesAll call.children) rest) :
    Row call.arguments.node.lexemes rest := by
  rw [lexemes_children] at row
  exact (Lexeme.row_append.mp row.2).2

theorem lower_node (row : Row (lexemesAll call.children) rest) : call.node.lower =
    .ok (some (.call ⟨none, call.name.text, String.ofList (trim call.arguments.text)⟩)) :=
  functionCall_eq call.isName call.trivia rfl (call.arguments.texts (row_arguments row)).1

theorem render_node (row : Row (lexemesAll call.children) rest) {s : Statement}
    (lowered : call.node.lower = .ok (some s)) :
    (s.render .source).toList = textOf call.written := by
  rw [lower_node row] at lowered
  obtain rfl : Statement.call _ = s := by simpa using lowered
  simp [Statement.render, Rendering.call, Rendering.source, toList_call, Text.trim_trim, written,
    (call.arguments.texts (row_arguments row)).2, Token.lexeme]

end Invocation

namespace MemberCall

variable {m : MemberCall} {rest : List Char}

theorem row_call (row : Row (lexemesAll m.children) rest) :
    Row (lexemesAll m.call.children) rest := by
  simp only [lexemes_children, Lexeme.row_append, Row] at row
  exact row.2.2.2.2

theorem lower_node (row : Row (lexemesAll m.children) rest) : m.node.lower =
    .ok (some (.call ⟨some m.receiver.fullText, m.call.name.text,
      String.ofList (trim m.call.arguments.text)⟩)) :=
  methodCall_eq m.isReceiver m.isDot m.call.isName m.triviaBefore m.triviaBehind m.call.trivia rfl
    (m.call.arguments.texts (Invocation.row_arguments (row_call row))).1

theorem render_node (row : Row (lexemesAll m.children) rest) {s : Statement}
    (lowered : m.node.lower = .ok (some s)) :
    (s.render .source).toList = textOf m.written := by
  have isDot : m.dot.lexeme.kind = .dot := m.isDot
  have point : m.dot.text = "." := by
    rw [lexemes_children] at row
    have spelling := row.delimiter (l := m.dot.lexeme) (by simp) (by rw [isDot]; rfl)
    rwa [isDot] at spelling
  rw [lower_node row] at lowered
  obtain rfl : Statement.call _ = s := by simpa using lowered
  simp [Statement.render, Rendering.call, Rendering.source, toList_call, Text.trim_trim, written,
    Invocation.written, (m.call.arguments.texts (Invocation.row_arguments (row_call row))).2,
    point, m.readable.tidy.textOf_lexemes, Token.lexeme]

end MemberCall

theorem toList_renderAll_cons (r : Rendering) (s : Statement) (ss : List Statement) :
    (Statement.renderAll r (s :: ss)).toList =
      (s.render r).toList ++ (Statement.renderAll r ss).toList := by
  simp [Statement.renderAll]

/-- Nodes that are lowered in order are written in order. -/
theorem renderAll_lowerChildren {parts : List Tree} {rest : List Char} (goesOn : rest ≠ [])
    (legible : ∀ part ∈ parts, part.Legible) (isPart : ∀ part ∈ parts, part.label.isPart)
    (h : ∀ part ∈ parts, ∀ rest, rest ≠ [] → Row part.lexemes rest → ∀ s,
      part.lower = .ok (some s) →
        (s.render .source).toList = textOf part.written ++ trailing part.tokenKind?)
    (previous : Option TokenKind) (ends : spaced (lastKind previous parts) = false)
    (row : Row (lexemesAll parts) rest) {ps : List Sourced}
    (lowered : lowerChildren previous parts = .ok ps) : textOf (writtenAll previous parts) =
      trailing previous ++ (Statement.renderAll .source (ps.map Prod.snd)).toList := by
  induction parts generalizing previous ps with
  | nil =>
      obtain rfl : [] = ps := by simpa [lowerChildren] using lowered
      rw [lastKind] at ends
      simp [writtenAll, trailing, ends, Statement.renderAll]
  | cons part parts ih =>
      simp only [List.forall_mem_cons] at legible isPart h
      rw [lexemesAll_cons, Lexeme.row_append] at row
      have later {ps : List Sourced} := @ih legible.2 isPart.2 h.2 part.tokenKind? ends row.2 ps
      rw [lowerChildren_cons] at lowered
      split at lowered
      · rename_i dropped
        simp only [isDropped, Bool.and_eq_true] at dropped
        obtain ⟨trivia, isSpaced⟩ := dropped
        have isSpaced : spaced previous = true := isSpaced
        have written : part.written = [blank] := legible.1.tidy.written_trivia trivia
        rw [writtenAll, written]
        simp [space, trivia, trailing, isSpaced, later lowered, blank,
          not_spaced_of_isTrivia trivia]
      · rename_i kept
        obtain ⟨first, others, hfirst, hothers, rfl⟩ := lowered
        obtain ⟨s, hs⟩ := legible.1.tidy.lower_ok legible.1.met isPart.1
        obtain rfl : first = some s := by simpa [hs] using hfirst.symm
        have text := h.1 _ (by simp [goesOn]) row.1 s hs
        have before : textOf (space previous part) = trailing previous := by
          simp only [isDropped, Bool.and_eq_true, not_and, Bool.not_eq_true] at kept
          cases trivia : part.isTrivia with
          | true =>
              have notSpaced : spaced previous = false := kept trivia
              simp [space, trailing, notSpaced]
          | false => cases isSpaced : spaced previous <;> simp [space, trailing, isSpaced, trivia, blank]
        rw [writtenAll, Lexeme.textOf_append, Lexeme.textOf_append, before, later hothers]
        simp [partOf, toList_renderAll_cons, text]

theorem toList_write (kind : TokenKind) (text : String) :
    (kind.write false text).toList = text.toList ++ trailing (some kind) := by
  have isSpaced : spaced (some kind) = decide (Spacing.ofKind kind = .trailingSpace) := rfl
  rw [TokenKind.write, trailing, isSpaced]
  cases Spacing.ofKind kind <;> simp [Spacing.apply]

theorem lower_leaf {tok : Token} (body : isBody (leaf tok).label) :
    (leaf tok).lower =
      .ok (some (.token tok.kind (if tok.isTrivia then " " else tok.text))) := by
  obtain ⟨kind, span, text⟩ := tok
  cases kind <;> first | rfl | simp [leaf, isBody, Label.isPart] at body

theorem lower_only {rule : Rule} {part : Tree} {s : Statement} (givesWay : rule.givesWay)
    (significant : part.isTrivia = false) :
    (ofRule rule [part]).lower = .ok (some s) ↔ part.lower = .ok (some s) := by
  have whole : withoutTrivia [part] = [part] := by
    rw [withoutTrivia_cons significant, withoutTrivia_nil]
  cases rule <;> simp [Rule.givesWay] at givesWay
  case binaryOp | assignmentOperator =>
    rw [ofRule, lower, ← ofRule, lowerOnly_eq _ whole]
  case forCondition | forIterable =>
    rw [ofRule, lower, ← ofRule, lowerOnly_eq _ whole]
    cases part.lower with
    | error e => simp [bind, Except.bind]
    | ok lowered => cases lowered <;> simp [bind, Except.bind]

/-- **Writing a lowered node gives the text of what it is written as.** -/
theorem Legible.render_lower {t : Tree} (h : t.Legible) (isPart : t.label.isPart) :
    ∀ rest, rest ≠ [] → Row t.lexemes rest → ∀ s, t.lower = .ok (some s) →
      (s.render .source).toList = textOf t.written ++ trailing t.tokenKind? := by
  refine Legible.induct ?token ?kept ?function ?method ?only ?list h isPart
  case token =>
    intro tok legible rest goesOn row s lowered
    rw [lower_leaf legible.body] at lowered
    obtain rfl : _ = s := by simpa using lowered
    rw [Statement.render, Rendering.source, toList_write, written_leaf]
    cases tok.isTrivia <;> simp [blank, Token.lexeme, tokenKind?, leaf,
      Label.tokenKind?]
  case kept =>
    intro rule parts keepsText legible rest goesOn row s lowered
    have text := legible.tidy.textOf_lexemes
    rw [written_kept keepsText, ← lexemes_ofRule rule]
    cases rule <;> simp [Rule.keepsText] at keepsText
    all_goals
      rw [ofRule, lower, ← ofRule] at lowered
      obtain rfl : _ = s := by simpa using lowered
      simpa [Statement.render, trailing, spaced, tokenKind?, ofRule, Label.tokenKind?] using text
  case function =>
    intro call _ rest goesOn row s lowered
    rw [Invocation.node, lexemes_ofRule] at row
    rw [call.written_node, Invocation.render_node row lowered]
    exact (List.append_nil _).symm
  case method =>
    intro m _ rest goesOn row s lowered
    rw [MemberCall.node, lexemes_ofRule] at row
    rw [m.written_node, MemberCall.render_node row lowered]
    exact (List.append_nil _).symm
  case only =>
    intro rule part givesWay _ _ significant notSpaced ih rest goesOn row s lowered
    rw [lower_only givesWay significant] at lowered
    have text := ih rest goesOn (by simpa using row) s lowered
    have none : trailing part.tokenKind? = [] := by simp [trailing, spaced, notSpaced]
    rw [text, written_only givesWay, none]
    rfl
  case list =>
    intro rule parts isList legible ih rest goesOn row s lowered
    obtain ⟨init, last, rfl, -, notSpaced⟩ := legible.last_not_spaced isList
    obtain ⟨ps, inner, isComposite, children⟩ := lower_list isList lowered
    have ends : spaced (lastKind none (init ++ [last])) = false := by
      rw [lastKind_concat]
      exact notSpaced
    rw [lexemes_ofRule] at row
    rw [Statement.render_of_isComposite isComposite, children, written_list isList,
      renderAll_lowerChildren goesOn legible.below (legible.isPart_of_mem isList) ih none ends row
        inner]
    exact (List.append_nil _).symm

end Tree

end QuestScript
