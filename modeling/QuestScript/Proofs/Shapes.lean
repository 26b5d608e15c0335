/-
# QuestScript.Proofs.Shapes -- what readable nodes look like

Productions say what stands under a rule when trivia is left out.  A legible node neither
begins nor ends with trivia, so for calls and for the nodes that hold only one other this
says where trivia may be: between a name and its arguments, around the point of a member,
nowhere else (`Readable.function`, `Readable.method`, `Readable.only`).  What holds of every
part of a body is then proved case by case, by the way a node is lowered
(`Legible.induct`).
-/
import QuestScript.Proofs.Legible

namespace QuestScript

open Grammar (production Only Ends mem_single mem_single_mul mem_opt)
open scoped Computability

set_option autoImplicit false

namespace Tree

variable {rule : Rule} {parts : List Tree}

/-! ## Calls -/

/-- The arguments of a call. -/
structure ArgumentList where
  opening : Token
  inner : List Tree
  closing : Token
  opens : opening.kind = .lParen
  closes : closing.kind = .rParen
  readable : (ofRule .arguments (leaf opening :: (inner ++ [leaf closing]))).Readable

/-- The node of the arguments. -/
def ArgumentList.node (args : ArgumentList) : Tree :=
  ofRule .arguments (leaf args.opening :: (args.inner ++ [leaf args.closing]))

/-- The blanks before the closing parenthesis do not end a line with a comment. -/
def ArgumentList.Trims (args : ArgumentList) : Prop :=
  Lexeme.Trims (Lexeme.closingGap (lexemesAll args.inner))

/-- A name with arguments, and the trivia between both. -/
structure Invocation where
  name : Token
  gap : List Tree
  arguments : ArgumentList
  isName : name.kind = .identifier
  trivia : ∀ g ∈ gap, g.isTrivia

/-- The nodes of a name with arguments. -/
def Invocation.children (call : Invocation) : List Tree :=
  leaf call.name :: (call.gap ++ [call.arguments.node])

/-- The node of a call by name. -/
def Invocation.node (call : Invocation) : Tree := ofRule .functionInvoke call.children

/-- A call on a receiver, with the trivia around the point. -/
structure MemberCall where
  receiver : Tree
  before : List Tree
  dot : Token
  behind : List Tree
  call : Invocation
  readable : receiver.Readable
  isReceiver : receiver.label.isExpression
  isDot : dot.kind = .dot
  triviaBefore : ∀ g ∈ before, g.isTrivia
  triviaBehind : ∀ g ∈ behind, g.isTrivia

/-- The nodes of a call on a receiver. -/
def MemberCall.children (m : MemberCall) : List Tree :=
  m.receiver :: (m.before ++ leaf m.dot :: (m.behind ++ m.call.children))

/-- The node of a call on a receiver. -/
def MemberCall.node (m : MemberCall) : Tree := ofRule .methodInvoke m.children

theorem Readable.leaf_of_label {t : Tree} {kind : TokenKind} (h : t.Readable)
    (label : t.label = .token kind) : ∃ tok, t = leaf tok ∧ tok.kind = kind := by
  obtain ⟨tok, rfl⟩ := h.tidy.eq_leaf (by simp [isToken, tokenKind?, label, Label.tokenKind?])
  exact ⟨tok, rfl, by simpa [leaf] using label⟩

theorem ArgumentList.below (args : ArgumentList) : ∀ part ∈ args.inner, part.Readable :=
  fun part member => args.readable.below part (by simp [member])

/-- The trivia before the last child is the trivia at the end of the leaves before it. -/
theorem ArgumentList.closingTrivia_node (args : ArgumentList) :
    args.node.closingTrivia = Lexeme.closingGap (lexemesAll args.inner) := by
  have front : args.node.children.dropLast = leaf args.opening :: args.inner := by
    rw [node, ofRule, ← List.cons_append, List.dropLast_concat]
  have opens : (leaf args.opening).isTrivia = false := by
    simp [Token.isTrivia, args.opens, TokenKind.isTrivia]
  have below := args.below
  rw [closingTrivia, front]
  rcases List.eq_nil_or_concat' args.inner with none | ⟨init, last, whole⟩
  · simp [none, opens, Lexeme.closingGap]
  · rw [whole, ← List.cons_append, List.getLast?_concat]
    have readableLast := below last (by simp [whole])
    cases trivia : last.isTrivia with
    | true =>
        obtain ⟨tok, rfl⟩ := readableLast.tidy.eq_leaf (isToken_of_isTrivia trivia)
        have isTrivia : tok.lexeme.isTrivia = true := trivia
        rw [lexemesAll_append, lexemesAll_cons, lexemes_leaf, lexemesAll_nil, List.append_nil,
          Lexeme.closingGap_concat, if_pos isTrivia]
        exact if_pos trivia
    | false =>
        obtain ⟨-, front, l, row, significant⟩ :=
          readableLast.tidy.flanked readableLast.faultless trivia
        rw [lexemesAll_append, lexemesAll_cons, row, lexemesAll_nil, List.append_nil,
          ← List.append_assoc, Lexeme.closingGap_concat]
        simp [significant, trivia]

/-- Arguments are a list of arguments. -/
theorem Readable.argumentList {arguments : Tree} (readable : arguments.Readable)
    (label : arguments.label = .rule .arguments) : ∃ args : ArgumentList, arguments = args.node := by
  obtain ⟨parts, rfl⟩ := readable.tidy.eq_ofRule label
  have fits := readable.fits
  obtain ⟨opened, closed⟩ := readable.flanks
  have below := readable.below
  simp only [production, Grammar.tok, mul_assoc, mem_single_mul] at fits
  obtain ⟨first, _, whole, isOpening, mid, -, _, ⟨last, rfl, isClosing⟩, rfl⟩ := fits
  obtain ⟨qs, rfl, behind⟩ := opened.eq_cons whole
  obtain ⟨opening, rfl, opens⟩ := (below first (by simp)).leaf_of_label isOpening
  have goesOn : qs ≠ [] := by
    rintro rfl
    simp at behind
  obtain ⟨inner, rfl, -⟩ := (closed.tail goesOn).eq_concat behind
  obtain ⟨closing, rfl, closes⟩ := (below last (by simp)).leaf_of_label isClosing
  exact ⟨⟨opening, inner, closing, opens, closes, readable⟩, rfl⟩

/-- A call by name is an invocation. -/
theorem Readable.function (h : (ofRule .functionInvoke parts).Readable) :
    ∃ call : Invocation, parts = call.children := by
  have fits := h.fits
  obtain ⟨opened, closed⟩ := h.flanks
  simp only [production, Grammar.tok, Grammar.nodeOf, mem_single_mul, mem_single] at fits
  obtain ⟨name, _, whole, nameLabel, arguments, rfl, label⟩ := fits
  obtain ⟨qs, rfl, behind⟩ := opened.eq_cons whole
  obtain ⟨gap, rs, rfl, trivia, none⟩ := split_significant behind
  obtain rfl : rs = [] :=
    Closed.eq_nil (name :: (gap ++ [arguments])) (by simpa using closed) none
  obtain ⟨name, rfl, isName⟩ := (h.below name (by simp)).leaf_of_label nameLabel
  obtain ⟨args, rfl⟩ := (h.below arguments (by simp)).argumentList label
  exact ⟨⟨name, gap, args, isName, trivia⟩, rfl⟩

/-- A call on a receiver is a call of a member. -/
theorem Readable.method (h : (ofRule .methodInvoke parts).Readable) :
    ∃ m : MemberCall, parts = m.children := by
  have fits := h.fits
  obtain ⟨opened, closed⟩ := h.flanks
  simp only [production, Grammar.tok, Grammar.nodeOf, Grammar.expr, mul_assoc, mem_single_mul,
    mem_single] at fits
  obtain ⟨receiver, _, whole, isReceiver, dot, _, rfl, dotLabel, name, _, rfl, nameLabel,
    arguments, rfl, label⟩ := fits
  obtain ⟨qs, rfl, rest⟩ := opened.eq_cons whole
  obtain ⟨before, qs, rfl, triviaBefore, rest⟩ := split_significant rest
  obtain ⟨behind, qs, rfl, triviaBehind, rest⟩ := split_significant rest
  obtain ⟨gap, qs, rfl, triviaGap, none⟩ := split_significant rest
  obtain rfl : qs = [] := Closed.eq_nil
    (receiver :: (before ++ dot :: (behind ++ name :: (gap ++ [arguments]))))
    (by simpa using closed) none
  obtain ⟨dot, rfl, isDot⟩ := (h.below dot (by simp)).leaf_of_label dotLabel
  obtain ⟨name, rfl, isName⟩ := (h.below name (by simp)).leaf_of_label nameLabel
  obtain ⟨args, rfl⟩ := (h.below arguments (by simp)).argumentList label
  exact ⟨⟨receiver, before, dot, behind, ⟨name, gap, args, isName, triviaGap⟩,
    h.below receiver (by simp), isReceiver, isDot, triviaBefore, triviaBehind⟩, rfl⟩

/-- Where no line comment is at the end of the arguments of calls, blanks may be taken from them. -/
theorem Clear.trims {call : Tree} (clear : call.Clear) (isCall : call.isCall) {args : ArgumentList}
    (member : args.node ∈ call.children) : args.Trims := by
  have noLine := clear call call.mem_nodes_self isCall args.node member rfl
  rw [args.closingTrivia_node] at noLine
  exact fun closed => closed.rdropWhile noLine

/-! ## Other nodes -/

/-- A node that gives way holds one node and nothing else. -/
theorem Readable.only (h : (ofRule rule parts).Readable) (givesWay : rule.givesWay) :
    ∃ part, parts = [part] ∧ part.label.isPart ∧ part.isTrivia = false ∧
      part.tokenKind?.any TokenKind.endsInSpace = false := by
  have fits := h.fits
  obtain ⟨opened, closed⟩ := h.flanks
  obtain ⟨part, whole, notSpaced⟩ : ∃ part, withoutTrivia parts = [part] ∧
      part.label.tokenKind?.any TokenKind.endsInSpace = false := by
    cases rule <;> simp [Rule.givesWay] at givesWay
    case binaryOp | assignmentOperator =>
      obtain ⟨part, whole, kind, label, admitted⟩ := fits
      refine ⟨part, whole, ?_⟩
      rw [label]
      cases kind <;> first | rfl | exact absurd admitted (by decide)
    case forCondition | forIterable =>
      obtain ⟨part, whole, isExpression⟩ := fits
      refine ⟨part, whole, ?_⟩
      cases label : part.label <;> simp_all [Label.isExpression, Label.tokenKind?]
  have isPart : part.label.isPart := by
    refine only_parts ?_ ?_ _ fits part (by simp [whole])
    · cases rule <;> simp [Rule.givesWay] at givesWay <;> rfl
    · cases rule <;> simp [Rule.givesWay] at givesWay <;> simp
  obtain ⟨qs, rfl, none⟩ := opened.eq_cons whole
  obtain rfl : qs = [] := Closed.eq_nil [part] closed none
  exact ⟨part, rfl, isPart, isTrivia_of_mem_withoutTrivia (by rw [whole]; simp), notSpaced⟩

/-- What a list holds are parts. -/
theorem Readable.isPart_of_mem (h : (ofRule rule parts).Readable) (isList : rule.isList) :
    ∀ part ∈ parts, part.label.isPart := by
  intro part member
  by_cases trivia : part.isTrivia
  · obtain ⟨tok, rfl⟩ := (h.below part member).tidy.eq_leaf (isToken_of_isTrivia trivia)
    obtain ⟨kind, span, text⟩ := tok
    cases kind <;> simp [Token.isTrivia, TokenKind.isTrivia] at trivia
    rfl
  · refine only_parts ?_ ?_ _ h.fits part (List.mem_filter.mpr ⟨member, by simpa using trivia⟩)
    · simp only [Rule.isList, Bool.and_eq_true] at isList
      exact isList.1.1.1
    · cases rule <;> simp_all [Rule.isList, Rule.keepsText, Rule.isCall]

/-- A node with the label is not a token that is written with a blank of its own. -/
def IsVerbatim (label : Label) : Prop := ∀ kind ∈ label.tokenKind?, Spacing.ofKind kind = .verbatim

/-- Neither a list nor a node that gives way to the only one it holds ends with a token that is
written with a blank of its own. -/
theorem ends_verbatim (isList : rule.isList ∨ rule.givesWay) :
    Ends IsVerbatim (production rule) := by
  have expr (label : Label) (h : label.isExpression) : IsVerbatim label := by
    cases label <;> simp_all [IsVerbatim, Label.isExpression, Label.tokenKind?]
  have stmt (label : Label) (h : label.isStatement) : IsVerbatim label := by
    cases label <;> simp_all [IsVerbatim, Label.isStatement, Label.tokenKind?]
  have tok {kind : TokenKind} (h : Spacing.ofKind kind = .verbatim) :
      IsVerbatim (.token kind) := by
    simpa [IsVerbatim, Label.tokenKind?] using h
  cases rule <;> simp [Rule.isList, Rule.keepsText, Rule.isCall, Rule.givesWay, Label.isPart,
    Rule.isExpression, Rule.isStatement] at isList <;> unfold production
  all_goals
    try unfold Grammar.someVariables
    try unfold Grammar.oneVariable
    repeat' first
      | exact Grammar.ends_expr expr
      | exact Grammar.ends_stmt stmt
      | exact Grammar.ends_tok (tok rfl)
      | exact Grammar.ends_nodeOf (by simp [IsVerbatim, Label.tokenKind?])
      | apply Grammar.ends_add
      | apply Grammar.ends_separated
      | apply Grammar.ends_mul_opt
      | apply Grammar.ends_mul
      | apply Grammar.ends_tokOf
  all_goals
    intro kind admitted
    refine tok ?_
    cases kind <;> first | rfl | exact absurd admitted (by decide)

/-- A list does not end with a token that is written with a blank behind it. -/
theorem Readable.last_not_spaced (h : (ofRule rule parts).Readable) (isList : rule.isList) :
    ∃ init last, parts = init ++ [last] ∧ last.isTrivia = false ∧
      last.tokenKind?.any TokenKind.endsInSpace = false := by
  obtain ⟨init, last, rfl, significant⟩ := h.flanks.2
  refine ⟨init, last, rfl, significant, ?_⟩
  have ends : Ends (fun label => label.tokenKind?.any TokenKind.endsInSpace = false)
      (production rule) := by
    refine (ends_verbatim (.inl isList)).mono fun label verbatim => ?_
    rw [Option.any_eq_false]
    intro kind member
    simp [TokenKind.endsInSpace, verbatim kind member]
  obtain ⟨front, node, whole, notSpaced⟩ := ends _ h.fits
  have same : withoutTrivia init ++ [last] = front ++ [node] := by
    rw [← whole]
    simp [withoutTrivia, significant]
  obtain rfl : last = node := by simpa using (List.append_inj' same rfl).2
  exact notSpaced

/-- **Induction over the parts of a body**, by the way they are lowered. -/
@[elab_as_elim]
theorem Readable.induct {motive : Tree → Prop}
    (token : ∀ tok : Token, (leaf tok).Readable → motive (leaf tok))
    (kept : ∀ rule parts, rule.keepsText → (ofRule rule parts).Readable →
      motive (ofRule rule parts))
    (call : ∀ rule parts, rule.isCall → (ofRule rule parts).Readable →
      motive (ofRule rule parts))
    (only : ∀ rule part, rule.givesWay → part.Readable → part.label.isPart →
      part.isTrivia = false → part.tokenKind?.any TokenKind.endsInSpace = false → motive part →
        motive (ofRule rule [part]))
    (list : ∀ rule parts, rule.isList → (ofRule rule parts).Readable →
      (∀ part ∈ parts, motive part) → motive (ofRule rule parts))
    {t : Tree} (h : t.Readable) (isPart : t.label.isPart) : motive t := by
  have tidy := h.tidy
  induction tidy with
  | leaf tok => exact token tok h
  | node rule parts _ _ ih =>
      by_cases keepsText : rule.keepsText
      · exact kept rule parts keepsText h
      by_cases givesWay : rule.givesWay
      · obtain ⟨part, rfl, partIsPart, significant, notSpaced⟩ := h.only givesWay
        have below := h.below part (by simp)
        exact only rule part givesWay below partIsPart significant notSpaced
          (ih part (by simp) below partIsPart)
      by_cases isCall : rule.isCall
      · exact call rule parts isCall h
      · have isList : rule.isList := by
          simp only [Rule.isList, Bool.and_eq_true]
          exact ⟨⟨⟨isPart, by simpa using keepsText⟩, by simpa using isCall⟩,
            by simpa using givesWay⟩
        exact list rule parts isList h fun part member =>
          ih part member (h.below part member) (h.isPart_of_mem isList part member)

/-- Induction over the legible parts of a body. -/
@[elab_as_elim]
theorem Legible.induct {motive : Tree → Prop}
    (token : ∀ tok : Token, (leaf tok).Legible → motive (leaf tok))
    (kept : ∀ rule parts, rule.keepsText → (ofRule rule parts).Legible →
      motive (ofRule rule parts))
    (function : ∀ call : Invocation, call.arguments.Trims → motive call.node)
    (method : ∀ m : MemberCall, m.call.arguments.Trims → motive m.node)
    (only : ∀ rule part, rule.givesWay → part.Legible → part.label.isPart →
      part.isTrivia = false → part.tokenKind?.any TokenKind.endsInSpace = false → motive part →
        motive (ofRule rule [part]))
    (list : ∀ rule parts, rule.isList → (ofRule rule parts).Legible →
      (∀ part ∈ parts, motive part) → motive (ofRule rule parts))
    {t : Tree} (h : t.Legible) (isPart : t.label.isPart) : motive t := by
  suffices whenClear : t.Clear → motive t from whenClear h.clear
  refine Readable.induct ?token ?kept ?call ?only ?list h.toReadable isPart
  case token => exact fun tok readable clear => token tok ⟨readable, clear⟩
  case kept =>
    exact fun rule parts keepsText readable clear =>
      kept rule parts keepsText ⟨readable, clear⟩
  case call =>
    intro rule parts isCall readable clear
    cases rule <;> simp [Rule.isCall] at isCall
    · obtain ⟨call, rfl⟩ := readable.function
      exact function call (clear.trims rfl (by simp [ofRule, Invocation.children]))
    · obtain ⟨m, rfl⟩ := readable.method
      exact method m (clear.trims rfl (by
        simp [ofRule, MemberCall.children, Invocation.children]))
  case only =>
    intro rule part givesWay readable isPart significant notSpaced ih clear
    have below : part.Clear := clear.below part (by simp)
    exact only rule part givesWay ⟨readable, below⟩ isPart significant notSpaced (ih below)
  case list =>
    intro rule parts isList readable ih clear
    exact list rule parts isList ⟨readable, clear⟩ fun part member =>
      ih part member (clear.below part member)

end Tree

end QuestScript
