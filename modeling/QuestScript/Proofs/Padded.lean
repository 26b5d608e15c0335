/-
# QuestScript.Proofs.Padded -- the lexemes that a node is written as with padding

Written with padding, a token in a list may bring a blank on both sides.  It meets the blanks
that other tokens bring and those that stand for trivia, and the lexer takes all blanks
between two tokens for one: so the unit here is the gap between a node of a list and the
next.  `Tree.padded` are the lexemes of a node so written.  They have the tokens of the node
(`Legible.words_padded`), may be written wherever the node stands (`Legible.rewrites_padded`),
and are the text of the lowered node (`Legible.render_padded`).

In a row no trivia stands beside other trivia, so the nodes of a list are tokens and nodes
with at most one gap before each (`Spread`).  What holds of lists is proved along it.
-/
import QuestScript.Proofs.RoundTrip

namespace QuestScript

open Grammar (production Ends)
open Text (isBlank)

set_option autoImplicit false

/-- Source with padding. -/
def Rendering.padded : Rendering := ⟨.source, true⟩

/-! ## Gaps between lexemes -/

namespace Lexeme

variable {ls ms as bs : List Lexeme} {a b c : List Char}

theorem StandsIn.trans (h : StandsIn a b) (h' : StandsIn b c) : StandsIn a c where
  head x first := (h'.head x first).elim (h.head x) .inr
  point opens := h.point (h'.point opens)
  quiet begins := h'.quiet (h.quiet begins)

/-- Where `ls` stand behind a token, `ms` may be written behind it. -/
def Follows (ls ms : List Lexeme) : Prop :=
  ∀ old new, old ≠ [] → Row ls old → StandsIn old new →
    Row ms new ∧ Replaces (textOf ls ++ old) (textOf ms ++ new)

theorem Rewrites.follows (h : Rewrites ls ms) : Follows ls ms := fun old new goesOn row behind =>
  have rewritten := h old new goesOn row behind
  ⟨rewritten.1, rewritten.2.toReplaces⟩

theorem Follows.nil : Follows [] [] := Rewrites.nil.follows

/-- Behind a row that ends with a token, anything may be written that may follow a token. -/
theorem Rewrites.behind (h : Rewrites as ls) (flanked : Flanked ls) (closed : Sealed ls)
    (next : Follows bs ms) : Rewrites (as ++ bs) (ls ++ ms) := by
  intro old new goesOn row behind
  rw [row_append] at row
  obtain ⟨rowBehind, replaces⟩ := next old new goesOn row.2 behind
  obtain ⟨rowFront, front⟩ := h _ _ (by simp [goesOn]) row.1 (.refl (textOf bs ++ old))
  obtain ⟨-, init, last, rfl, significant⟩ := flanked
  rw [sealed_append] at closed
  rw [row_append, row_singleton] at rowFront
  obtain ⟨stands, between⟩ := rowFront.2.standsIn ⟨significant, closed.2 last (by simp)⟩ replaces
  obtain ⟨rowInit, whole⟩ := Rewrites.refl closed.1 _ _ (by simp [rowFront.2.text_ne_nil])
    rowFront.1 (by simpa using between)
  refine ⟨row_append.mpr ⟨row_append.mpr ⟨?_, row_singleton.mpr stands⟩, rowBehind⟩, ?_⟩
  · simpa using rowInit
  · simpa using front.trans (by simpa using whole)

/-- Some blanks, as trivia. -/
def spaces (n : Nat) : List Lexeme := gap (List.replicate n ' ')

@[simp] theorem textOf_spaces (n : Nat) : textOf (spaces n) = List.replicate n ' ' := textOf_gap _

@[simp] theorem words_spaces (n : Nat) : words (spaces n) = [] := words_gap _

/-- Blanks take the place of the trivia behind a token, and may be put where there is none. -/
theorem Follows.gap (front : List Lexeme) (h : Rewrites ls ms)
    (quiet : ∀ old, old ≠ [] → Row ls old → Quiet (textOf ls ++ old)) {n : Nat}
    (bare : n = 0 → front = []) : Follows (front ++ ls) (spaces n ++ ms) := by
  cases n with
  | zero =>
      rw [bare rfl]
      exact h.follows
  | succ n =>
      intro old new goesOn row behind
      have row := (row_append.mp row).2
      obtain ⟨rewritten, begins⟩ := h old new goesOn row behind
      refine ⟨row_append.mpr ⟨?_, rewritten⟩, ?_⟩
      · refine row_gap (closed_blanks fun c member => ?_) (begins.quiet (quiet old goesOn row))
        rw [List.eq_of_mem_replicate member]
        decide
      · simpa [List.replicate_succ, blank] using
          replaces_blank (textOf (front ++ ls) ++ old) (List.replicate n ' ' ++ (textOf ms ++ new))

end Lexeme

namespace Tree

open Lexeme (Row Rewrites Sealed Flanked Follows words textOf spaces)

variable {rule : Rule} {parts ds : List Tree} {rest : List Char} {previous : Option TokenKind}

/-! ## Writing with padding -/

/-- A token of the kind, if there is one, is written with a blank on both sides. -/
def isPadded (kind : Option TokenKind) : Bool :=
  kind.any fun kind => Spacing.ofKind kind = .doubleSpace

/-- The blanks between two nodes of the kinds, with or without trivia between them. -/
def width (previous : Option TokenKind) (trivia : Bool) (next : Option TokenKind) : Nat :=
  (if spaced previous || trivia then 1 else 0) + (if isPadded previous then 1 else 0) +
    if isPadded next then 1 else 0

mutual

/-- The lexemes that a node is written as with padding. -/
def padded : Tree → List Lexeme
  | ⟨.token kind, _, _, text⟩ => [⟨kind, text.getD ""⟩]
  | ⟨.rule rule, _, children, _⟩ =>
      if rule.keepsText then lexemesAll children
      else if rule.isCall then (withoutTrivia children).flatMap writtenPart
      else paddedAll none false children

/-- The lexemes that nodes are written as with padding, behind a node of the kind `previous` and
perhaps the trivia behind it. -/
def paddedAll (previous : Option TokenKind) (trivia : Bool) : List Tree → List Lexeme
  | [] => []
  | child :: rest =>
      if child.isTrivia then paddedAll previous true rest
      else spaces (width previous trivia child.tokenKind?) ++
        (child.padded ++ paddedAll child.tokenKind? false rest)

end

theorem padded_leaf (t : Token) : (leaf t).padded = [t.lexeme] := rfl

theorem padded_kept (keepsText : rule.keepsText) :
    (ofRule rule parts).padded = lexemesAll parts := by
  simp [ofRule, padded, keepsText]

theorem padded_call (isCall : rule.isCall) :
    (ofRule rule parts).padded = (ofRule rule parts).written := by
  have notKept : rule.keepsText = false := by cases rule <;> simp_all [Rule.isCall, Rule.keepsText]
  simp [ofRule, padded, written, isCall, notKept]

theorem padded_rule (notKept : rule.keepsText = false) (notCall : rule.isCall = false) :
    (ofRule rule parts).padded = paddedAll none false parts := by
  simp [ofRule, padded, notKept, notCall]

theorem padded_list (isList : rule.isList) :
    (ofRule rule parts).padded = paddedAll none false parts := by
  simp only [Rule.isList, Bool.and_eq_true, Bool.not_eq_true'] at isList
  exact padded_rule isList.1.1.2 isList.1.2

theorem padded_only (givesWay : rule.givesWay) :
    (ofRule rule parts).padded = paddedAll none false parts :=
  padded_rule (by cases rule <;> simp_all [Rule.givesWay, Rule.keepsText])
    (by cases rule <;> simp_all [Rule.givesWay, Rule.isCall])

theorem Invocation.padded_node (call : Invocation) : call.node.padded = call.written := by
  rw [node, padded_call rfl, ← node, written_node]

theorem MemberCall.padded_node (m : MemberCall) : m.node.padded = m.written := by
  rw [node, padded_call rfl, ← node, written_node]

theorem paddedAll_trivia {g : Tree} (trivia : g.isTrivia) (b : Bool) :
    paddedAll previous b (g :: parts) = paddedAll previous true parts := by
  rw [paddedAll, if_pos trivia]

theorem paddedAll_cons {c : Tree} (significant : c.isTrivia = false) (b : Bool) :
    paddedAll previous b (c :: parts) = spaces (width previous b c.tokenKind?) ++
      (c.padded ++ paddedAll c.tokenKind? false parts) := by
  rw [paddedAll, if_neg (by simp [significant])]

theorem width_first {next : Option TokenKind} (plain : isPadded next = false) :
    width none false next = 0 := by
  rw [width, plain]
  rfl

/-! ## The ends of lists -/

/-- A node with the label is not a token that is padded. -/
def IsPlain (label : Label) : Prop := isPadded label.tokenKind? = false

theorem isPlain_of_isExpression (label : Label) (h : label.isExpression) : IsPlain label := by
  cases label <;> simp_all [IsPlain, isPadded, Label.isExpression, Label.tokenKind?]

/-- A list, or a node that gives way to the only one it holds, does not begin with a token that is
padded. -/
theorem starts_plain (isList : rule.isList ∨ rule.givesWay) :
    Grammar.Starts IsPlain (production rule) := by
  cases rule <;> simp [Rule.isList, Rule.keepsText, Rule.isCall, Rule.givesWay, Label.isPart,
    Rule.isExpression, Rule.isStatement] at isList <;> unfold production
  all_goals
    try unfold Grammar.someVariables
    try unfold Grammar.oneVariable
    try unfold Grammar.separated
    repeat' first
      | exact Grammar.starts_expr isPlain_of_isExpression
      | exact Grammar.starts_tok rfl
      | exact Grammar.starts_nodeOf rfl
      | apply Grammar.starts_add
      | apply Grammar.starts_opt_mul
      | apply Grammar.starts_mul
      | apply Grammar.starts_tokOf
  all_goals
    intro kind admitted
    cases kind <;> first | rfl | exact absurd admitted (by decide)

/-- Nor does it end with one. -/
theorem ends_plain (isList : rule.isList ∨ rule.givesWay) : Ends IsPlain (production rule) := by
  refine (ends_verbatim isList).mono fun label verbatim => ?_
  rw [IsPlain, isPadded, Option.any_eq_false]
  intro kind member
  simp [verbatim kind member]

/-- A node that is a list, or gives way to the only one it holds, neither begins nor ends with a
token that is padded. -/
theorem Legible.ends_not_padded (h : (ofRule rule parts).Legible)
    (isList : rule.isList ∨ rule.givesWay) :
    (∀ first ∈ parts.head?, isPadded first.tokenKind? = false) ∧
      ∀ last ∈ parts.getLast?, isPadded last.tokenKind? = false := by
  obtain ⟨opened, closed⟩ := h.flanks
  refine ⟨?_, ?_⟩
  · obtain ⟨first, behind, whole, isPlain⟩ := starts_plain isList _ h.fits
    obtain ⟨qs, rfl, -⟩ := opened.eq_cons whole
    rintro _ ⟨⟩
    exact isPlain
  · obtain ⟨front, last, whole, isPlain⟩ := ends_plain isList _ h.fits
    obtain ⟨qs, rfl, -⟩ := closed.eq_concat whole
    rw [List.getLast?_concat]
    rintro _ ⟨⟩
    exact isPlain

/-! ## Nodes with gaps between them -/

/-- Nodes with at most one trivia before each of those that are not. -/
inductive Spread : List Tree → Prop
  | nil : Spread []
  | cons {c : Tree} {rest : List Tree} (significant : c.isTrivia = false) (spread : Spread rest) :
      Spread (c :: rest)
  | gap {g c : Tree} {rest : List Tree} (trivia : g.isTrivia = true)
      (significant : c.isTrivia = false) (spread : Spread rest) : Spread (g :: c :: rest)

/-- No trivia stands beside other trivia in a row. -/
theorem spread_of_row (tidy : ∀ part ∈ parts, part.Tidy) (row : Row (lexemesAll parts) rest)
    (closed : parts = [] ∨ Closed parts) : Spread parts := by
  induction parts with
  | nil => exact .nil
  | cons part parts ih =>
      obtain ⟨tidyPart, tidy⟩ := List.forall_mem_cons.mp tidy
      have closedWhole := closed.resolve_left (by simp)
      rw [lexemesAll_cons, Lexeme.row_append] at row
      have spread := ih tidy row.2 (or_iff_not_imp_left.mpr closedWhole.tail)
      cases trivia : part.isTrivia with
      | false => exact .cons trivia spread
      | true =>
          cases spread with
          | nil => exact absurd (closedWhole.eq_nil [] (by simp [withoutTrivia, trivia])) (by simp)
          | cons significant spread => exact .gap trivia significant spread
          | gap trivia' =>
              have tidyNext := List.forall_mem_cons.mp tidy
              obtain ⟨tok, rfl⟩ := tidyPart.eq_leaf (isToken_of_isTrivia trivia)
              obtain ⟨tok', rfl⟩ := tidyNext.1.eq_leaf (isToken_of_isTrivia trivia')
              have isTrivia : tok'.lexeme.kind = .trivia := Lexeme.kind_of_isTrivia trivia'
              rw [lexemesAll_cons, lexemes_leaf, lexemes_leaf, Lexeme.row_singleton,
                List.singleton_append] at row
              obtain ⟨stands, stands', -⟩ := row
              have goesOn := stands'.text_ne_nil
              have quiet := (stands.closed (Lexeme.kind_of_isTrivia trivia) (by simp [goesOn])).2
              rw [Lexeme.textOf_cons, List.append_assoc] at quiet
              exact absurd quiet (Lexeme.not_quiet_of_trivia stands' isTrivia)

/-- The nodes of a legible list that is a row. -/
theorem Legible.spread (h : (ofRule rule parts).Legible) (row : Row (lexemesAll parts) rest) :
    Spread parts :=
  spread_of_row (fun part member => (h.below part member).tidy) row (.inr h.flanks.2)

/-! ## Tokens of what is written -/

theorem words_paddedAll (h : ∀ part ∈ parts, words part.padded = words part.lexemes)
    (previous : Option TokenKind) (trivia : Bool) :
    words (paddedAll previous trivia parts) = words (lexemesAll parts) := by
  induction parts generalizing previous trivia with
  | nil => rfl
  | cons part parts ih =>
      obtain ⟨first, others⟩ := List.forall_mem_cons.mp h
      cases isTrivia : part.isTrivia with
      | true =>
          rw [paddedAll_trivia isTrivia, ih others, lexemesAll_cons, Lexeme.words_append,
            words_lexemes, if_pos isTrivia, List.nil_append]
      | false => simp [paddedAll_cons isTrivia, first, ih others]

/-- What is written with padding has the tokens of the node. -/
theorem Legible.words_padded {t : Tree} (h : t.Legible) (isPart : t.label.isPart) :
    words t.padded = words t.lexemes := by
  refine Legible.induct ?token ?kept ?function ?method ?only ?list h isPart
  case token =>
    intro tok legible
    rw [padded_leaf, lexemes_leaf]
  case kept =>
    intro rule parts keepsText legible
    rw [padded_kept keepsText, lexemes_ofRule]
  case function =>
    intro call _
    rw [call.padded_node, call.words_written, Invocation.node, lexemes_ofRule]
  case method =>
    intro m _
    rw [m.padded_node, m.words_written, MemberCall.node, lexemes_ofRule]
  case only =>
    intro rule part givesWay _ _ _ _ ih
    rw [padded_only givesWay, lexemes_ofRule, words_paddedAll (by simpa using ih)]
  case list =>
    intro rule parts isList legible ih
    rw [padded_list isList, lexemes_ofRule, words_paddedAll ih]

/-- What is written for nodes ends as the last of them does. -/
theorem paddedAll_ends (closed : Closed parts)
    (h : ∀ part ∈ parts, part.isTrivia = false → Flanked part.padded)
    (previous : Option TokenKind) (trivia : Bool) :
    ∃ init last, paddedAll previous trivia parts = init ++ [last] ∧ last.isTrivia = false := by
  induction parts generalizing previous trivia with
  | nil =>
      obtain ⟨init, last, whole, -⟩ := closed
      simp at whole
  | cons part parts ih =>
      obtain ⟨first, others⟩ := List.forall_mem_cons.mp h
      by_cases more : parts = []
      · subst more
        obtain ⟨init, last, whole, significant⟩ := closed
        obtain ⟨rfl, rfl⟩ : init = [] ∧ part = last := by
          simpa using List.append_inj' (show [] ++ [part] = init ++ [last] from whole) rfl
        obtain ⟨-, ls, l, row, sigLast⟩ := first significant
        refine ⟨spaces (width previous trivia part.tokenKind?) ++ ls, l, ?_, sigLast⟩
        rw [paddedAll_cons significant, row, paddedAll, List.append_nil, List.append_assoc]
      · have later := ih (closed.tail more) others
        cases isTrivia : part.isTrivia with
        | true =>
            rw [paddedAll_trivia isTrivia]
            exact later previous true
        | false =>
            obtain ⟨init, last, row, sigLast⟩ := later part.tokenKind? false
            refine ⟨spaces (width previous trivia part.tokenKind?) ++ (part.padded ++ init), last,
              ?_, sigLast⟩
            rw [paddedAll_cons isTrivia, row, List.append_assoc, List.append_assoc]

theorem flanked_paddedAll (opened : Opened parts) (closed : Closed parts)
    (begins : ∀ first ∈ parts.head?, isPadded first.tokenKind? = false)
    (h : ∀ part ∈ parts, part.isTrivia = false → Flanked part.padded) :
    Flanked (paddedAll none false parts) := by
  refine ⟨?_, paddedAll_ends closed h none false⟩
  obtain ⟨first, rest, rfl, significant⟩ := opened
  obtain ⟨l, ls, row, sigFirst⟩ := (h first (by simp) significant).1
  rw [paddedAll_cons significant, width_first (begins first rfl), row]
  exact ⟨l, ls ++ paddedAll first.tokenKind? false rest, rfl, sigFirst⟩

/-- What is written with padding for a node that is not trivia begins and ends with tokens. -/
theorem Legible.flanked_padded {t : Tree} (h : t.Legible) (isPart : t.label.isPart) :
    t.isTrivia = false → Flanked t.padded := by
  have flanked : t.Legible → t.isTrivia = false → Flanked t.padded := by
    refine Legible.induct ?token ?kept ?function ?method ?only ?list h isPart
    case token =>
      intro tok _ legible significant
      rw [padded_leaf]
      exact Lexeme.flanked_singleton significant
    case kept =>
      intro rule parts keepsText _ legible significant
      rw [padded_kept keepsText, ← lexemes_ofRule rule]
      exact legible.tidy.flanked legible.faultless significant
    case function =>
      intro call _ _ _
      rw [call.padded_node]
      exact call.flanked_written
    case method =>
      intro m _ _ _
      rw [m.padded_node]
      exact m.flanked_written
    case only =>
      intro rule part givesWay below _ _ _ ih legible _
      rw [padded_only givesWay]
      exact flanked_paddedAll legible.flanks.1 legible.flanks.2
        (legible.ends_not_padded (.inr givesWay)).1 (by simpa using ih below)
    case list =>
      intro rule parts isList _ ih legible _
      rw [padded_list isList]
      exact flanked_paddedAll legible.flanks.1 legible.flanks.2
        (legible.ends_not_padded (.inl isList)).1 fun part member =>
          ih part member (legible.below part member)
  exact flanked h

/-! ## What may be written -/

theorem Legible.sealed_padded {t : Tree} (h : t.Legible) (isPart : t.label.isPart) :
    Sealed t.padded :=
  sealed_of_words (h.words_padded isPart) h.strings

/-- A node that is not trivia begins quietly, whatever stands behind it. -/
theorem Legible.quiet_append {t : Tree} (h : t.Legible) (significant : t.isTrivia = false)
    {ls : List Lexeme} (row : Row (t.lexemes ++ ls) rest) :
    Lexeme.Quiet (textOf (t.lexemes ++ ls) ++ rest) := by
  have quiet := quiet_of_row (h.tidy.flanked h.faultless significant) (Lexeme.row_append.mp row).1
  rwa [← List.append_assoc, ← Lexeme.textOf_append] at quiet

/-- Behind a node that is written with padding, anything may be written that may follow a token. -/
theorem Legible.rewrites_append {t : Tree} (h : t.Legible) (isPart : t.label.isPart)
    (significant : t.isTrivia = false) (rewrites : Rewrites t.lexemes t.padded)
    {ls ms : List Lexeme} (next : Follows ls ms) : Rewrites (t.lexemes ++ ls) (t.padded ++ ms) :=
  rewrites.behind (h.flanked_padded isPart significant) (h.sealed_padded isPart) next

/-- Nodes may be written with padding behind a token, if each of them may be. -/
theorem Spread.follows (spread : Spread parts) (legible : ∀ part ∈ parts, part.Legible)
    (isPart : ∀ part ∈ parts, part.label.isPart)
    (h : ∀ part ∈ parts, Rewrites part.lexemes part.padded) (previous : Option TokenKind) :
    Follows (lexemesAll parts) (paddedAll previous false parts) := by
  induction spread generalizing previous with
  | nil => exact .nil
  | @cons c rest significant spread ih =>
      simp only [List.forall_mem_cons] at legible isPart h
      have next := ih legible.2 isPart.2 h.2 c.tokenKind?
      rw [paddedAll_cons significant, lexemesAll_cons]
      exact .gap [] (legible.1.rewrites_append isPart.1 significant h.1 next)
        (fun _ _ => legible.1.quiet_append significant) fun _ => rfl
  | @gap g c rest trivia significant spread ih =>
      simp only [List.forall_mem_cons] at legible isPart h
      obtain ⟨-, legible, others⟩ := legible
      have next := ih others isPart.2.2 h.2.2 c.tokenKind?
      rw [paddedAll_trivia trivia, paddedAll_cons significant, lexemesAll_cons, lexemesAll_cons]
      exact .gap g.lexemes (legible.rewrites_append isPart.2.1 significant h.2.1 next)
        (fun _ _ => legible.quiet_append significant) fun none => by simp [width] at none

/-- The nodes of a list may be written with padding where they stand. -/
theorem Spread.rewrites (spread : Spread parts) (legible : ∀ part ∈ parts, part.Legible)
    (isPart : ∀ part ∈ parts, part.label.isPart)
    (h : ∀ part ∈ parts, Rewrites part.lexemes part.padded) (opened : Opened parts)
    (begins : ∀ first ∈ parts.head?, isPadded first.tokenKind? = false) :
    Rewrites (lexemesAll parts) (paddedAll none false parts) := by
  obtain ⟨first, rest, rfl, significant⟩ := opened
  have behind : Spread rest := by
    cases spread with
    | cons _ spread => exact spread
    | gap trivia => rw [trivia] at significant; cases significant
  simp only [List.forall_mem_cons] at legible isPart h
  rw [paddedAll_cons significant, width_first (begins first rfl), lexemesAll_cons]
  exact legible.1.rewrites_append isPart.1 significant h.1
    (behind.follows legible.2 isPart.2 h.2 first.tokenKind?)

/-- **A node may be written with padding** where it stands. -/
theorem Legible.rewrites_padded {t : Tree} (h : t.Legible) (isPart : t.label.isPart) :
    Rewrites t.lexemes t.padded := by
  have rewrites : t.Legible → Rewrites t.lexemes t.padded := by
    refine Legible.induct ?token ?kept ?function ?method ?only ?list h isPart
    case token =>
      intro tok _ legible
      rw [padded_leaf, ← lexemes_leaf]
      exact .refl legible.strings
    case kept =>
      intro rule parts keepsText _ legible
      rw [padded_kept keepsText, ← lexemes_ofRule rule]
      exact .refl legible.strings
    case function =>
      intro call trims _
      rw [call.padded_node, Invocation.node, lexemes_ofRule]
      exact call.rewrites trims
    case method =>
      intro m trims _
      rw [m.padded_node, MemberCall.node, lexemes_ofRule]
      exact m.rewrites trims
    case only =>
      intro rule part givesWay below partIsPart significant _ ih legible
      rw [padded_only givesWay, lexemes_ofRule]
      exact (Spread.cons significant .nil).rewrites (by simpa using below)
        (by simpa using partIsPart) (by simpa using ih below) legible.flanks.1
        (legible.ends_not_padded (.inr givesWay)).1
    case list =>
      intro rule parts isList _ ih legible old new goesOn row
      rw [lexemes_ofRule] at row
      rw [padded_list isList, lexemes_ofRule]
      exact (legible.spread row).rewrites legible.below (legible.isPart_of_mem isList)
        (fun part member => ih part member (legible.below part member)) legible.flanks.1
        (legible.ends_not_padded (.inl isList)).1 old new goesOn row
  exact rewrites h

/-- **A statement, once written with padding, stands before anything.** -/
theorem Legible.row_padded {t : Tree} (h : t.Legible) (isStatement : t.label.isStatement)
    {old : List Char} (row : Row t.lexemes old) (goesOn : old ≠ []) (new : List Char) :
    Row t.padded new := by
  have isPart := isPart_of_isStatement isStatement
  have significant := not_trivia_of_not_token (not_token_of_isStatement isStatement)
  have written := (h.rewrites_padded isPart old old goesOn row (.refl old)).1
  have strings := h.sealed_padded isPart
  -- The last token is that of the statement as it is written without padding.
  obtain ⟨front, l, whole, kind⟩ := h.written_ends isStatement
  have isSignificant : l.isTrivia = false := by
    rcases kind with kind | kind <;> simp [Lexeme.isTrivia, kind, TokenKind.isTrivia]
  obtain ⟨-, init, last, padded, sigLast⟩ := h.flanked_padded isPart significant
  have same := (h.words_padded isPart).trans (h.words_written isPart).symm
  rw [padded, whole] at same
  obtain rfl : last = l := by
    simp only [Lexeme.words_append, Lexeme.words_cons, sigLast, isSignificant] at same
    simpa using (List.append_inj' same rfl).2
  rw [padded] at written strings ⊢
  have strings := (Lexeme.sealed_append.mp strings).1
  rcases kind with kind | kind
  · exact written.replace_end strings (by rw [kind]; rfl) (by simp [kind]) new
  · exact written.replace_end strings (by rw [kind]; rfl) (by simp [kind]) new

/-! ## Rendering -/

/-- What is written before a token of the kind, if anything. -/
def before (kind : Option TokenKind) : List Char := if isPadded kind then [' '] else []

/-- What is written behind a token of the kind, if anything. -/
def behind (kind : Option TokenKind) : List Char :=
  if spaced kind || isPadded kind then [' '] else []

theorem toList_write_padded (kind : TokenKind) (text : String) :
    (kind.write true text).toList = before (some kind) ++ (text.toList ++ behind (some kind)) := by
  have isSpaced : spaced (some kind) = decide (Spacing.ofKind kind = .trailingSpace) := rfl
  have isDouble : isPadded (some kind) = decide (Spacing.ofKind kind = .doubleSpace) := rfl
  rw [TokenKind.write, before, behind, isSpaced, isDouble]
  cases Spacing.ofKind kind <;> simp [Spacing.apply]

/-- A token is not written with a blank behind it in both ways. -/
theorem not_spaced_of_isPadded {kind : Option TokenKind} (h : isPadded kind = true) :
    spaced kind = false := by
  cases kind with
  | none => rfl
  | some kind => cases kind <;> first | rfl | simp [isPadded, Spacing.ofKind] at h

/-- The blanks between two nodes are those behind the first, those before the second and the one
for trivia, if the first brings none for it. -/
theorem textOf_width (previous : Option TokenKind) (trivia : Bool) (next : Option TokenKind) :
    textOf (spaces (width previous trivia next)) =
      behind previous ++ ((if trivia && !spaced previous then [' '] else []) ++ before next) := by
  rw [Lexeme.textOf_spaces, width, before, behind]
  cases padded : isPadded previous with
  | true => cases trivia <;> cases isPadded next <;> rw [not_spaced_of_isPadded padded] <;> rfl
  | false => cases trivia <;> cases spaced previous <;> cases isPadded next <;> rfl

/-- A node that is not trivia is lowered, whatever stands before it. -/
theorem lowerChildren_significant {c : Tree} (significant : c.isTrivia = false)
    {s : Statement} (lowered : c.lower = .ok (some s)) {ps : List Sourced} :
    lowerChildren previous (c :: parts) = .ok ps ↔
      ∃ others, lowerChildren c.tokenKind? parts = .ok others ∧ ps = (c.label, s) :: others := by
  rw [lowerChildren_cons, if_neg (by simp [isDropped, significant])]
  simp [lowered, partOf]

/-- Trivia before a node that is not becomes one blank, or nothing. -/
theorem lowerChildren_gap {g c : Tree} (tidy : g.Tidy) (trivia : g.isTrivia)
    (significant : c.isTrivia = false) {s : Statement} (lowered : c.lower = .ok (some s))
    {ps : List Sourced} :
    lowerChildren previous (g :: c :: parts) = .ok ps ↔
      ∃ others, lowerChildren c.tokenKind? parts = .ok others ∧
        ps = (if spaced previous then [] else [(g.label, .token .trivia " ")]) ++
          (c.label, s) :: others := by
  rw [lowerChildren_cons, isDropped, trivia, Bool.true_and, spaced]
  split
  · exact lowerChildren_significant significant lowered
  · simp only [tidy.lower_trivia trivia, Except.ok.injEq, exists_and_left,
      lowerChildren_significant significant lowered, partOf]
    constructor
    · rintro ⟨_, rfl, _, ⟨others, hothers, rfl⟩, rfl⟩
      exact ⟨others, hothers, rfl⟩
    · rintro ⟨others, hothers, rfl⟩
      exact ⟨_, rfl, _, ⟨others, hothers, rfl⟩, rfl⟩

/-- What a node says once it is lowered and written with padding. -/
def Tells (t : Tree) : Prop :=
  ∀ rest, rest ≠ [] → Row t.lexemes rest → ∀ s, t.lower = .ok (some s) →
    (s.render .padded).toList =
      before t.tokenKind? ++ (textOf t.padded ++ behind t.tokenKind?)

theorem tells_ofRule (h : ∀ rest, rest ≠ [] → Row (lexemesAll parts) rest → ∀ s,
    (ofRule rule parts).lower = .ok (some s) →
      (s.render .padded).toList = textOf (ofRule rule parts).padded) :
    (ofRule rule parts).Tells := by
  intro rest goesOn row s lowered
  rw [lexemes_ofRule] at row
  exact (h rest goesOn row s lowered).trans (List.append_nil _).symm

/-- Nodes that are lowered in order are written in order. -/
theorem Spread.renderAll (spread : Spread parts) (goesOn : rest ≠ [])
    (legible : ∀ part ∈ parts, part.Legible) (isPart : ∀ part ∈ parts, part.label.isPart)
    (h : ∀ part ∈ parts, part.isTrivia = false → part.Tells) (previous : Option TokenKind)
    (ends : behind (lastKind previous parts) = []) (row : Row (lexemesAll parts) rest)
    {ps : List Sourced} (lowered : lowerChildren previous parts = .ok ps) :
    textOf (paddedAll previous false parts) =
      behind previous ++ (Statement.renderAll .padded (ps.map Prod.snd)).toList := by
  induction spread generalizing previous ps with
  | nil =>
      obtain rfl : [] = ps := by simpa [lowerChildren] using lowered
      rw [lastKind] at ends
      rw [ends]
      rfl
  | @cons c parts significant spread ih =>
      simp only [List.forall_mem_cons] at legible isPart h
      rw [lexemesAll_cons, Lexeme.row_append] at row
      obtain ⟨s, hs⟩ := legible.1.tidy.lower_ok legible.1.met isPart.1
      obtain ⟨others, hothers, rfl⟩ := (lowerChildren_significant significant hs).mp lowered
      have text := h.1 significant _ (by simp [goesOn]) row.1 s hs
      rw [paddedAll_cons significant, Lexeme.textOf_append, Lexeme.textOf_append, textOf_width,
        ih legible.2 isPart.2 h.2 c.tokenKind? ends row.2 hothers]
      simp [toList_renderAll_cons, text]
  | @gap g c parts trivia significant spread ih =>
      simp only [List.forall_mem_cons] at legible isPart h
      rw [lexemesAll_cons, lexemesAll_cons, Lexeme.row_append, Lexeme.row_append] at row
      obtain ⟨legibleGap, legible, legibles⟩ := legible
      obtain ⟨s, hs⟩ := legible.tidy.lower_ok legible.met isPart.2.1
      obtain ⟨others, hothers, rfl⟩ :=
        (lowerChildren_gap legibleGap.tidy trivia significant hs).mp lowered
      have text := h.2.1 significant _ (by simp [goesOn]) row.2.1 s hs
      rw [paddedAll_trivia trivia, paddedAll_cons significant, Lexeme.textOf_append,
        Lexeme.textOf_append, textOf_width,
        ih legibles isPart.2.2 h.2.2 c.tokenKind? ends row.2.2 hothers]
      have blank : (Statement.render .padded (.token .trivia " ")).toList = [' '] := rfl
      cases spaced previous <;> simp [toList_renderAll_cons, text, blank]

/-- **Writing a lowered node with padding gives the text of what it is written as**, and what it
brings if it is a token. -/
theorem Legible.render_padded {t : Tree} (h : t.Legible) (isPart : t.label.isPart) :
    t.isTrivia = false → t.Tells := by
  have tells : t.Legible → t.isTrivia = false → t.Tells := by
    refine Legible.induct ?token ?kept ?function ?method ?only ?list h isPart
    case token =>
      intro tok _ legible significant rest goesOn row s lowered
      rw [lower_leaf legible.body] at lowered
      obtain rfl : _ = s := by simpa using lowered
      rw [Statement.render, Rendering.padded, toList_write_padded, padded_leaf,
        if_neg (by simpa using significant)]
      simp [Token.lexeme, tokenKind?, leaf, Label.tokenKind?]
    case kept =>
      intro rule parts keepsText legible _ _
      refine tells_ofRule fun rest goesOn row s lowered => ?_
      have text := legible.tidy.textOf_lexemes
      rw [padded_kept keepsText, ← lexemes_ofRule rule]
      cases rule <;> simp [Rule.keepsText] at keepsText
      all_goals
        rw [ofRule, lower, ← ofRule] at lowered
        obtain rfl : _ = s := by simpa using lowered
        exact text
    case function =>
      intro call _ _ _
      refine tells_ofRule fun rest goesOn row s lowered => ?_
      have text := Invocation.render_node row lowered
      rw [← Invocation.node, Invocation.lower_node row] at lowered
      obtain rfl : Statement.call _ = s := by simpa using lowered
      rw [← Invocation.node, call.padded_node]
      exact text
    case method =>
      intro m _ _ _
      refine tells_ofRule fun rest goesOn row s lowered => ?_
      have text := MemberCall.render_node row lowered
      rw [← MemberCall.node, MemberCall.lower_node row] at lowered
      obtain rfl : Statement.call _ = s := by simpa using lowered
      rw [← MemberCall.node, m.padded_node]
      exact text
    case only =>
      intro rule part givesWay below _ significant notSpaced ih legible _
      refine tells_ofRule fun rest goesOn row s lowered => ?_
      rw [lower_only givesWay significant] at lowered
      have text := ih below significant rest goesOn (by simpa using row) s lowered
      have plain : isPadded part.tokenKind? = false :=
        (legible.ends_not_padded (.inr givesWay)).1 _ rfl
      have notSpaced : spaced part.tokenKind? = false := notSpaced
      rw [text, padded_only givesWay, paddedAll_cons significant, width_first plain]
      simp [before, behind, plain, notSpaced, paddedAll]
    case list =>
      intro rule parts isList _ ih legible _
      refine tells_ofRule fun rest goesOn row s lowered => ?_
      obtain ⟨ps, inner, isComposite, children⟩ := lower_list isList lowered
      obtain ⟨init, last, whole, -, notSpaced⟩ := legible.last_not_spaced isList
      have plain : isPadded last.tokenKind? = false :=
        (legible.ends_not_padded (.inl isList)).2 last (by simp [whole])
      have notSpaced : spaced last.tokenKind? = false := notSpaced
      have ends : behind (lastKind none parts) = [] := by
        simp [whole, lastKind_concat, behind, plain, notSpaced]
      rw [Statement.render_of_isComposite isComposite, children, padded_list isList,
        (legible.spread row).renderAll goesOn legible.below (legible.isPart_of_mem isList)
          (fun part member => ih part member (legible.below part member)) none ends row inner]
      rfl
  exact tells h

end Tree

end QuestScript
