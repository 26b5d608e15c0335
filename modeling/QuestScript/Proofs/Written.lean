/-
# QuestScript.Proofs.Written -- the lexemes that a node is written as

Written as source, a node says the text of some lexemes: its own tokens, a blank for every
trivia that is kept, and a blank behind every token that is written with one.
`Tree.written` are these lexemes.  They have the tokens of the node (`words_written`), and
may be written wherever the node stands, so that no token is joined with another or split
(`Legible.rewrites`).  A statement ends with `;` or `}` and so, once written, stands before
anything (`Legible.row_written`).
-/
import QuestScript.Proofs.Shapes

namespace QuestScript

open Grammar (production Ends)

set_option autoImplicit false

namespace Lexeme

/-- The lexemes between the first and the last, without blanks at their ends. -/
def trimInside : List Lexeme → List Lexeme
  | [] => []
  | opening :: rest => opening :: (trimmed rest.dropLast ++ rest.getLast?.toList)

theorem trimInside_eq (opening : Lexeme) (inner : List Lexeme) (closing : Lexeme) :
    trimInside (opening :: (inner ++ [closing])) = opening :: (trimmed inner ++ [closing]) := by
  simp [trimInside]

end Lexeme

namespace Tree

open Lexeme (Row Rewrites Rereads Sealed Flanked words blank trimInside trimmed)

variable {rule : Rule} {parts : List Tree} {previous : Option TokenKind}

/-! ## Writing -/

/-- The token before, if there is one, is written with a blank behind it. -/
def spaced (previous : Option TokenKind) : Bool := previous.any TokenKind.endsInSpace

/-- The blank between such a token and a node that is not trivia. -/
def space (previous : Option TokenKind) (child : Tree) : List Lexeme :=
  if spaced previous && !child.isTrivia then [blank] else []

/-- A part of a call, as it is written. -/
def writtenPart (part : Tree) : List Lexeme :=
  if part.label = .rule .arguments then trimInside part.lexemes else part.lexemes

mutual

/-- The lexemes that a node is written as. -/
def written : Tree → List Lexeme
  | ⟨.token kind, _, _, text⟩ => if kind.isTrivia then [blank] else [⟨kind, text.getD ""⟩]
  | ⟨.rule rule, _, children, _⟩ =>
      if rule.keepsText then lexemesAll children
      else if rule.isCall then (withoutTrivia children).flatMap writtenPart
      else writtenAll none children

/-- The lexemes that nodes are written as, behind a token of the kind `previous`. -/
def writtenAll (previous : Option TokenKind) : List Tree → List Lexeme
  | [] => []
  | child :: rest => space previous child ++ (child.written ++ writtenAll child.tokenKind? rest)

end

/-- The kind of the last of some nodes, behind a token of the kind `previous`. -/
def lastKind (previous : Option TokenKind) : List Tree → Option TokenKind
  | [] => previous
  | child :: rest => lastKind child.tokenKind? rest

theorem lastKind_concat (previous : Option TokenKind) (init : List Tree) (last : Tree) :
    lastKind previous (init ++ [last]) = last.tokenKind? := by
  induction init generalizing previous with
  | nil => rfl
  | cons child init ih => exact ih _

theorem writtenAll_append (previous : Option TokenKind) (xs ys : List Tree) :
    writtenAll previous (xs ++ ys) = writtenAll previous xs ++ writtenAll (lastKind previous xs) ys := by
  induction xs generalizing previous with
  | nil => rfl
  | cons x xs ih => simp [writtenAll, lastKind, ih]

theorem written_leaf (t : Token) :
    (leaf t).written = if t.isTrivia then [blank] else [t.lexeme] := rfl

theorem Tidy.written_trivia {t : Tree} (h : t.Tidy) (trivia : t.isTrivia) :
    t.written = [blank] := by
  obtain ⟨tok, rfl⟩ := h.eq_leaf (isToken_of_isTrivia trivia)
  rw [written_leaf, if_pos (by simpa using trivia)]

theorem not_spaced_of_isTrivia {t : Tree} (trivia : t.isTrivia) : spaced t.tokenKind? = false := by
  unfold isTrivia at trivia
  cases isKind : t.tokenKind? with
  | none => rfl
  | some kind => cases kind <;> first | rfl | simp [isKind, TokenKind.isTrivia] at trivia

theorem written_kept (keepsText : rule.keepsText) :
    (ofRule rule parts).written = lexemesAll parts := by
  simp [ofRule, written, keepsText]

theorem written_call (isCall : rule.isCall) :
    (ofRule rule parts).written = (withoutTrivia parts).flatMap writtenPart := by
  have notKept : rule.keepsText = false := by cases rule <;> simp_all [Rule.isCall, Rule.keepsText]
  simp [ofRule, written, isCall, notKept]

theorem written_only {part : Tree} (givesWay : rule.givesWay) :
    (ofRule rule [part]).written = part.written := by
  cases rule <;> simp [Rule.givesWay] at givesWay <;>
    simp [ofRule, written, writtenAll, space, spaced, Rule.keepsText, Rule.isCall]

theorem written_list (isList : rule.isList) :
    (ofRule rule parts).written = writtenAll none parts := by
  simp only [Rule.isList, Bool.and_eq_true, Bool.not_eq_true'] at isList
  simp [ofRule, written, isList.1.1.2, isList.1.2]

/-! ### Calls -/

theorem words_lexemesAll_gap {gap : List Tree} (h : ∀ g ∈ gap, g.isTrivia) :
    words (lexemesAll gap) = [] := by
  induction gap with
  | nil => rfl
  | cons g gap ih =>
      obtain ⟨first, others⟩ := List.forall_mem_cons.mp h
      rw [lexemesAll_cons, Lexeme.words_append, words_lexemes, if_pos first, ih others,
        List.append_nil]

theorem withoutTrivia_gap {gap : List Tree} (h : ∀ g ∈ gap, g.isTrivia) (ts : List Tree) :
    withoutTrivia (gap ++ ts) = withoutTrivia ts := by
  rw [withoutTrivia_append, withoutTrivia, List.filter_eq_nil_iff.mpr (by simpa using h),
    List.nil_append]

theorem withoutTrivia_cons {t : Tree} (h : t.isTrivia = false) (ts : List Tree) :
    withoutTrivia (t :: ts) = t :: withoutTrivia ts := by
  simp [withoutTrivia, h]

theorem significant_of_kind {t : Token} {kind : TokenKind} (h : t.kind = kind)
    (significant : kind.isTrivia = false) : t.isTrivia = false := by
  rw [Token.isTrivia, h, significant]

theorem writtenPart_leaf (t : Token) : (leaf t).writtenPart = [t.lexeme] := by
  rw [writtenPart, if_neg (by simp [leaf]), lexemes_leaf]

theorem writtenPart_of_isExpression {t : Tree} (h : t.label.isExpression) :
    t.writtenPart = t.lexemes := by
  rw [writtenPart, if_neg]
  rintro label
  simp [label, Label.isExpression, Rule.isExpression] at h

namespace ArgumentList

variable (args : ArgumentList)

/-- The lexemes that the arguments are written as. -/
def written : List Lexeme :=
  args.opening.lexeme :: (trimmed (lexemesAll args.inner) ++ [args.closing.lexeme])

theorem lexemes_node : args.node.lexemes =
    args.opening.lexeme :: (lexemesAll args.inner ++ [args.closing.lexeme]) := by
  simp [node]

theorem strings : Sealed (lexemesAll args.inner) := by
  have whole := args.readable.strings
  simp only [lexemes_ofRule, lexemesAll_cons, lexemesAll_append] at whole
  exact (Lexeme.sealed_append.mp (Lexeme.sealed_append.mp whole).2).1

theorem significant : args.node.isTrivia = false := rfl

theorem label_node : args.node.label = .rule .arguments := rfl

theorem writtenPart_node : args.node.writtenPart = args.written := by
  rw [writtenPart, if_pos args.label_node, lexemes_node, Lexeme.trimInside_eq, written]

theorem words_written : words args.written = words args.node.lexemes := by
  simp [written, lexemes_node]

theorem flanked_written : Flanked args.written := by
  have first : Flanked [args.opening.lexeme] :=
    Lexeme.flanked_singleton (significant_of_kind args.opens rfl)
  have last : Flanked [args.closing.lexeme] :=
    Lexeme.flanked_singleton (significant_of_kind args.closes rfl)
  exact first.append last _

/-- The blanks inside the parentheses, and what is before them, may be left out. -/
theorem rewrites (trims : args.Trims) (gap : List Lexeme) :
    Rewrites (gap ++ args.node.lexemes) args.written := by
  rw [lexemes_node, written]
  have inside : Rereads (lexemesAll args.inner ++ [args.closing.lexeme])
      (trimmed (lexemesAll args.inner) ++ [args.closing.lexeme]) :=
    fun _ new _ row _ => Lexeme.row_trimmed row args.strings trims args.closes new
  have isOpening : args.opening.lexeme.kind = .lParen := args.opens
  exact ((inside.delimited (by rw [isOpening]; rfl)).drop gap).paren isOpening

end ArgumentList

namespace Invocation

variable (call : Invocation)

/-- The lexemes that the name and its arguments are written as. -/
def written : List Lexeme := call.name.lexeme :: call.arguments.written

theorem significant : (leaf call.name).isTrivia = false := significant_of_kind call.isName rfl

theorem lexemes_children : lexemesAll call.children =
    call.name.lexeme :: (lexemesAll call.gap ++ call.arguments.node.lexemes) := by
  simp [children]

theorem withoutTrivia_children :
    withoutTrivia call.children = [leaf call.name, call.arguments.node] := by
  rw [children, withoutTrivia_cons call.significant, withoutTrivia_gap call.trivia,
    withoutTrivia_cons call.arguments.significant, withoutTrivia_nil]

theorem written_node : call.node.written = call.written := by
  rw [node, written_call rfl, withoutTrivia_children]
  simp [writtenPart_leaf, ArgumentList.writtenPart_node, written]

theorem words_written : words call.written = words (lexemesAll call.children) := by
  simp [written, lexemes_children, words_lexemesAll_gap call.trivia, call.arguments.words_written]

theorem flanked_written : Flanked call.written := by
  have first : Flanked [call.name.lexeme] := Lexeme.flanked_singleton call.significant
  exact first.append call.arguments.flanked_written []

theorem solid : call.name.lexeme.Solid :=
  ⟨call.significant, fun string => absurd (call.isName.symm.trans string) (by decide)⟩

theorem rewrites (trims : call.arguments.Trims) :
    Rewrites (lexemesAll call.children) call.written := by
  rw [lexemes_children, written]
  exact (Rewrites.token call.solid).append (call.arguments.rewrites trims (lexemesAll call.gap))

end Invocation

namespace MemberCall

variable (m : MemberCall)

/-- The lexemes that the call is written as. -/
def written : List Lexeme := m.receiver.lexemes ++ (m.dot.lexeme :: m.call.written)

theorem significant_receiver : m.receiver.isTrivia = false :=
  significant_of_isExpression m.isReceiver

theorem significant_dot : (leaf m.dot).isTrivia = false := significant_of_kind m.isDot rfl

theorem lexemes_children : lexemesAll m.children = m.receiver.lexemes ++
    (lexemesAll m.before ++ m.dot.lexeme :: (lexemesAll m.behind ++ lexemesAll m.call.children)) := by
  simp [children]

theorem written_node : m.node.written = m.written := by
  rw [node, written_call rfl, children, withoutTrivia_cons m.significant_receiver,
    withoutTrivia_gap m.triviaBefore, withoutTrivia_cons m.significant_dot,
    withoutTrivia_gap m.triviaBehind, m.call.withoutTrivia_children]
  simp [writtenPart_leaf, writtenPart_of_isExpression m.isReceiver, ArgumentList.writtenPart_node,
    written, Invocation.written]

theorem words_written : words m.written = words (lexemesAll m.children) := by
  simp [written, lexemes_children, words_lexemesAll_gap m.triviaBefore,
    words_lexemesAll_gap m.triviaBehind, m.call.words_written]

theorem flanked_written : Flanked m.written :=
  (m.readable.tidy.flanked m.readable.faultless m.significant_receiver).append
    m.call.flanked_written [m.dot.lexeme]

theorem rewrites (trims : m.call.arguments.Trims) :
    Rewrites (lexemesAll m.children) m.written := by
  have member : Rewrites
      (lexemesAll m.before ++ m.dot.lexeme :: (lexemesAll m.behind ++ [m.call.name.lexeme]))
        [m.dot.lexeme, m.call.name.lexeme] := .member m.isDot m.call.isName _ _
  rw [lexemes_children, written, Invocation.lexemes_children, Invocation.written]
  simpa using (Rewrites.refl m.readable.strings).append
    (member.append (m.call.arguments.rewrites trims (lexemesAll m.call.gap)))

end MemberCall

/-! ## Tokens of what is written -/

@[simp] theorem words_space (previous : Option TokenKind) (child : Tree) :
    words (space previous child) = [] := by
  unfold space
  split <;> rfl

theorem words_writtenAll {parts : List Tree}
    (h : ∀ part ∈ parts, words part.written = words part.lexemes) (previous : Option TokenKind) :
    words (writtenAll previous parts) = words (lexemesAll parts) := by
  induction parts generalizing previous with
  | nil => rfl
  | cons part parts ih =>
      obtain ⟨first, others⟩ := List.forall_mem_cons.mp h
      simp [writtenAll, first, ih others]

/-- What is written has the tokens of the node. -/
theorem Legible.words_written {t : Tree} (h : t.Legible) (isPart : t.label.isPart) :
    words t.written = words t.lexemes := by
  refine Legible.induct ?token ?kept ?function ?method ?only ?list h isPart
  case token =>
    intro tok legible
    rw [written_leaf, lexemes_leaf]
    split <;> simp_all
  case kept =>
    intro rule parts keepsText legible
    rw [written_kept keepsText, lexemes_ofRule]
  case function =>
    intro call _
    rw [call.written_node, call.words_written, Invocation.node, lexemes_ofRule]
  case method =>
    intro m _
    rw [m.written_node, m.words_written, MemberCall.node, lexemes_ofRule]
  case only =>
    intro rule part givesWay _ _ _ _ ih
    simp [written_only givesWay, ih]
  case list =>
    intro rule parts isList legible ih
    rw [written_list isList, lexemes_ofRule, words_writtenAll ih]

theorem flanked_writtenAll {parts : List Tree} (opened : Opened parts) (closed : Closed parts)
    (h : ∀ part ∈ parts, part.isTrivia = false → Flanked part.written) :
    Flanked (writtenAll none parts) := by
  refine ⟨?_, ?_⟩
  · obtain ⟨first, rest, rfl, significant⟩ := opened
    obtain ⟨l, ls, row, sigFirst⟩ := (h first (by simp) significant).1
    exact ⟨l, ls ++ writtenAll first.tokenKind? rest, by simp [writtenAll, space, spaced, row],
      sigFirst⟩
  · obtain ⟨init, last, rfl, significant⟩ := closed
    obtain ⟨ls, l, row, sigLast⟩ := (h last (by simp) significant).2
    refine ⟨writtenAll none init ++ (space (lastKind none init) last ++ ls), l, ?_, sigLast⟩
    simp [writtenAll_append, writtenAll, row]

/-- What is written for a node that is not trivia begins and ends with tokens. -/
theorem Legible.flanked_written {t : Tree} (h : t.Legible) (isPart : t.label.isPart) :
    t.isTrivia = false → Flanked t.written := by
  refine Legible.induct ?token ?kept ?function ?method ?only ?list h isPart
  case token =>
    intro tok legible significant
    rw [written_leaf, if_neg (by simpa using significant)]
    exact Lexeme.flanked_singleton significant
  case kept =>
    intro rule parts keepsText legible significant
    rw [written_kept keepsText, ← lexemes_ofRule rule]
    exact legible.tidy.flanked legible.faultless significant
  case function =>
    intro call _ _
    rw [call.written_node]
    exact call.flanked_written
  case method =>
    intro m _ _
    rw [m.written_node]
    exact m.flanked_written
  case only =>
    intro rule part givesWay _ _ significant _ ih _
    rw [written_only givesWay]
    exact ih significant
  case list =>
    intro rule parts isList legible ih _
    rw [written_list isList]
    exact flanked_writtenAll legible.flanks.1 legible.flanks.2 ih

/-! ## What may be written -/

/-- A node that is not trivia begins quietly. -/
theorem quiet_of_row {ls : List Lexeme} (flanked : Flanked ls) {rest : List Char}
    (row : Row ls rest) : Lexeme.Quiet (Lexeme.textOf ls ++ rest) := by
  obtain ⟨⟨first, more, rfl, significant⟩, -⟩ := flanked
  simpa using row.1.quiet significant

/-- A token that is written with a blank behind it, and that blank. -/
theorem Legible.rewrites_spaced {t : Tree} (h : t.Legible) (isSpaced : spaced t.tokenKind?)
    {ls ms : List Lexeme} (behind : Rereads ls (blank :: ms)) :
    Rewrites (t.lexemes ++ ls) (t.written ++ blank :: ms) := by
  obtain ⟨tok, rfl⟩ := h.tidy.eq_leaf (by
    cases kind : t.tokenKind? <;> simp_all [spaced, isToken])
  have endsInSpace : tok.kind.endsInSpace = true := isSpaced
  have significant : tok.isTrivia = false := by
    rw [Token.isTrivia]
    cases kind : tok.kind <;> simp_all [TokenKind.isTrivia, TokenKind.endsInSpace, Spacing.ofKind]
  have solid : tok.lexeme.Solid := ⟨significant, fun string => by
    have isString : tok.kind = .string := string
    simp [isString, TokenKind.endsInSpace, Spacing.ofKind] at endsInSpace⟩
  rw [written_leaf, if_neg (by simp [significant]), lexemes_leaf]
  exact .spaced solid behind

/-- Nodes may be written one behind the other.  Behind a token that is written with a blank they
begin with it, be it for the trivia that was there. -/
theorem rewrites_writtenAll {parts : List Tree} (legible : ∀ part ∈ parts, part.Legible)
    (h : ∀ part ∈ parts, Rewrites part.lexemes part.written) (previous : Option TokenKind)
    (ends : spaced (lastKind previous parts) = false) :
    (spaced previous = false → Rewrites (lexemesAll parts) (writtenAll previous parts)) ∧
      (spaced previous → ∃ ms, writtenAll previous parts = blank :: ms ∧
        Rereads (lexemesAll parts) (blank :: ms)) := by
  induction parts generalizing previous with
  | nil =>
      rw [lastKind] at ends
      exact ⟨fun _ => .nil, fun impossible => absurd impossible (by simp [ends])⟩
  | cons part parts ih =>
      obtain ⟨legiblePart, legible⟩ := List.forall_mem_cons.mp legible
      obtain ⟨first, others⟩ := List.forall_mem_cons.mp h
      obtain ⟨plain, blanked⟩ := ih legible others part.tokenKind? ends
      have whole : Rewrites (part.lexemes ++ lexemesAll parts)
          (part.written ++ writtenAll part.tokenKind? parts) := by
        cases isSpaced : spaced part.tokenKind? with
        | false => exact first.append (plain isSpaced)
        | true =>
            obtain ⟨ms, behind, rereads⟩ := blanked isSpaced
            rw [behind]
            exact legiblePart.rewrites_spaced isSpaced rereads
      rw [lexemesAll_cons, writtenAll]
      refine ⟨fun notSpaced => by simpa [space, notSpaced] using whole, fun isSpaced => ?_⟩
      cases trivia : part.isTrivia with
      | true =>
          rw [legiblePart.tidy.written_trivia trivia] at whole ⊢
          exact ⟨_, by simp [space, trivia], whole.rereads⟩
      | false =>
          refine ⟨_, by rw [space, isSpaced, trivia]; rfl, .blank whole fun old _ row => ?_⟩
          have quiet := quiet_of_row (legiblePart.tidy.flanked legiblePart.faultless trivia)
            (Lexeme.row_append.mp row).1
          simpa using quiet

/-- **A node may be written** where it stands. -/
theorem Legible.rewrites {t : Tree} (h : t.Legible) (isPart : t.label.isPart) :
    Rewrites t.lexemes t.written := by
  refine Legible.induct ?token ?kept ?function ?method ?only ?list h isPart
  case token =>
    intro tok legible
    rw [written_leaf, lexemes_leaf]
    split
    · rename_i trivia
      exact .toBlank (Lexeme.kind_of_isTrivia trivia)
    · rename_i significant
      refine .token ⟨by simpa using significant, fun kind => legible.closed ?_⟩
      exact congrArg Label.token kind
  case kept =>
    intro rule parts keepsText legible
    rw [written_kept keepsText, ← lexemes_ofRule rule]
    exact .refl legible.strings
  case function =>
    intro call trims
    rw [call.written_node, Invocation.node, lexemes_ofRule]
    exact call.rewrites trims
  case method =>
    intro m trims
    rw [m.written_node, MemberCall.node, lexemes_ofRule]
    exact m.rewrites trims
  case only =>
    intro rule part givesWay _ _ _ _ ih
    rw [written_only givesWay]
    simpa using ih
  case list =>
    intro rule parts isList legible ih
    rw [written_list isList, lexemes_ofRule]
    obtain ⟨init, last, rfl, -, notSpaced⟩ := legible.last_not_spaced isList
    refine (rewrites_writtenAll legible.below ih none ?_).1 rfl
    rw [lastKind_concat]
    exact notSpaced

/-! ## Statements -/

/-- The last node under a statement is `;`, `}` or a statement. -/
theorem Legible.last_of_statement (h : (ofRule rule parts).Legible) (isStatement : rule.isStatement) :
    ∃ init last, parts = init ++ [last] ∧
      (last.label = .token .semi ∨ last.label = .token .rBrace ∨ last.label.isStatement) := by
  obtain ⟨init, last, rfl, significant⟩ := h.flanks.2
  refine ⟨init, last, rfl, ?_⟩
  have ends : Ends (fun label => label = .token .semi ∨ label = .token .rBrace ∨ label.isStatement)
      (production rule) := by
    have stmt : ∀ label : Label, label.isStatement →
        label = .token .semi ∨ label = .token .rBrace ∨ label.isStatement := fun _ h => .inr (.inr h)
    cases rule <;> simp [Rule.isStatement] at isStatement <;> unfold production
    all_goals
      first
        | exact Grammar.ends_mul (Grammar.ends_tok (.inl rfl))
        | exact Grammar.ends_mul (Grammar.ends_tok (.inr (.inl rfl)))
        | exact Grammar.ends_mul (Grammar.ends_stmt stmt)
        | exact Grammar.ends_mul_opt (Grammar.ends_mul (Grammar.ends_stmt stmt))
            (Grammar.ends_mul (Grammar.ends_stmt stmt))
  obtain ⟨front, node, whole, ending⟩ := ends _ h.fits
  have same : withoutTrivia init ++ [last] = front ++ [node] := by
    rw [← whole]
    simp [withoutTrivia, significant]
  obtain rfl : last = node := by simpa using (List.append_inj' same rfl).2
  exact ending

theorem written_of_kind {t : Token} {kind : TokenKind} (h : t.kind = kind)
    (significant : kind.isTrivia = false) : (leaf t).written = [t.lexeme] := by
  rw [written_leaf, if_neg (by simp [significant_of_kind h significant])]

/-- What is written for a statement ends with `;` or `}`. -/
theorem Legible.written_ends {t : Tree} (h : t.Legible) (isStatement : t.label.isStatement) :
    ∃ init l, t.written = init ++ [l] ∧ (l.kind = .semi ∨ l.kind = .rBrace) := by
  have tidy := h.tidy
  induction tidy with
  | leaf t => simp [Tree.leaf, Label.isStatement] at isStatement
  | node rule parts _ _ ih =>
      have isList : rule.isList := by
        cases rule <;> first | rfl | simp [ofRule, Label.isStatement, Rule.isStatement] at isStatement
      obtain ⟨init, last, rfl, ending⟩ := h.last_of_statement isStatement
      have below := h.below last (by simp)
      obtain ⟨front, l, row, kind⟩ : ∃ front l, last.written = front ++ [l] ∧
          (l.kind = .semi ∨ l.kind = .rBrace) := by
        rcases ending with semi | brace | statement
        · obtain ⟨tok, rfl, kind⟩ := below.leaf_of_label semi
          exact ⟨[], tok.lexeme, written_of_kind kind rfl, .inl kind⟩
        · obtain ⟨tok, rfl, kind⟩ := below.leaf_of_label brace
          exact ⟨[], tok.lexeme, written_of_kind kind rfl, .inr kind⟩
        · exact ih last (by simp) below statement
      refine ⟨writtenAll none init ++ (space (lastKind none init) last ++ front), l, ?_, kind⟩
      simp [written_list isList, writtenAll_append, writtenAll, row]

theorem sealed_of_words {ls ms : List Lexeme} (same : words ls = words ms) (h : Sealed ms) :
    Sealed ls := by
  intro l member kind
  have inWords : l ∈ words ls := List.mem_filter.mpr ⟨member, by
    simp [Lexeme.isTrivia, kind, TokenKind.isTrivia]⟩
  rw [same] at inWords
  exact h l (List.mem_of_mem_filter inWords) kind

/-- **A statement, once written, stands before anything.** -/
theorem Legible.row_written {t : Tree} (h : t.Legible) (isStatement : t.label.isStatement)
    {old : List Char} (row : Row t.lexemes old) (goesOn : old ≠ []) (new : List Char) :
    Row t.written new := by
  have isPart := isPart_of_isStatement isStatement
  have written := (h.rewrites isPart old old goesOn row (.refl old)).1
  have strings := sealed_of_words (h.words_written isPart) h.strings
  obtain ⟨init, l, whole, kind⟩ := h.written_ends isStatement
  rw [whole] at written strings ⊢
  have strings := (Lexeme.sealed_append.mp strings).1
  rcases kind with kind | kind
  · exact written.replace_end strings (by rw [kind]; rfl) (by simp [kind]) new
  · exact written.replace_end strings (by rw [kind]; rfl) (by simp [kind]) new

end Tree

end QuestScript
