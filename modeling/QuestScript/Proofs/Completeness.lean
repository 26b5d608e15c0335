/-
# QuestScript.Proofs.Completeness -- every regular expression is read back

The tokens of a regular expression, with something behind them that ends it, are read as
that expression, if there are more levels than tokens (`Form.expression_complete`).  So
climbing precedences, looking ahead for casts and taking brackets early never turn an
expression down or group it in another way.

The induction is over the tree.  What is claimed depends on the level (`Known`): an operand
with suffixes and a chain of operators may go on behind the tree, and so it is said of them how
reading goes on, with a level spent for each link and each link having tokens to pay for it
(`Continues`).  A looser form reads what a tighter one reads, where no operator of its own
stands behind.
-/
import QuestScript.Proofs.Operands

namespace QuestScript.Grammar

open QuestScript.Tree (Closed Opened leaf ofRule tokensAll tokensAll_append withoutTrivia)
open scoped Computability

set_option autoImplicit false

/-! ## From a level to the looser ones -/

section Looser

variable {t : Tree}

theorem Before.next {l : Level} {us : List Token} (h : Before l (kinds us)) {P : TokenKind → Prop}
    (of : ∀ k, mayPrecede l k → P k) : P (nextKind us) := by
  rw [nextKind_eq_kinds]
  exact h.head of

theorem operand_of_suffixed (h : ReadsSuffixed t) : ReadsBack Form.operand .unary t := by
  intro n us room before
  have noSuffix := before.next (P := fun k => Form.startsSuffix k = false) fun k => by
    cases k <;> decide
  obtain ⟨k, -, read⟩ := h n us room (before.mono (by decide)) fun _ bracket => by
    rw [Before, bracket] at before
    exact absurd before (by decide)
  rw [read, Form.suffixes, Form.whenNext, Form.readAt_ifNext, noSuffix]
  rfl

theorem chain_of_operand (some : 0 < size [t]) (h : ReadsBack Form.operand .unary t) :
    ReadsChain t := fun _ n us _ room before _ =>
  ⟨n, by omega, Form.readAt_seq_of_done (h n us room before)⟩

theorem ternary_of_chain (level : (Level.binary .or).rank ≤ t.level.rank) (h : ReadsChain t) :
    ReadsBack Form.ternary .ternary t := by
  intro n us room before
  obtain ⟨k, -, read⟩ := h .or n us level room (before.mono (by decide))
    (before.mono (le_trans (by decide) level))
  have noOperator := before.next (P := fun k => Precedence.ofKind? k = none) fun k => by
    cases k <;> decide
  have noQuestion := before.next (P := fun k => (k == .question) = false) fun k => by
    cases k <;> decide
  have chain : (Form.binary .or).readAt n [] (t.tokens ++ us) = .done [t] us [] := by
    rw [read, Form.readAt_links, noOperator]
  rw [Form.ternary, Form.readAt_seq_of_done chain, Form.whenNext, Form.readAt_ifNext, noQuestion]
  rfl

theorem assignment_of_ternary (h : ReadsBack Form.ternary .ternary t) :
    ReadsBack Form.assignment .assignment t := by
  intro n us room before
  have target := h n us room (before.mono (by decide))
  have noAssignment := before.next (P := fun k => k.isAssignment = false) fun k => by
    cases k <;> decide
  rw [Form.assignment, Form.readAt_seq_of_done target, Form.whenNext, Form.readAt_ifNext,
    noAssignment]
  rfl

theorem known_of_assignment (level : t.level = .assignment)
    (h : ReadsBack Form.assignment .assignment t) : Known t where
  suffixed le := absurd (level ▸ le) (by decide)
  operand le := absurd (level ▸ le) (by decide)
  chain le := absurd (level ▸ le) (by decide)
  ternary le := absurd (level ▸ le) (by decide)
  assignment := h

theorem known_of_ternary (level : t.level = .ternary) (h : ReadsBack Form.ternary .ternary t) :
    Known t where
  suffixed le := absurd (level ▸ le) (by decide)
  operand le := absurd (level ▸ le) (by decide)
  chain le := absurd (level ▸ le) (by decide)
  ternary _ := h
  assignment := assignment_of_ternary h

theorem known_of_chain {p : Precedence} (level : t.level = .binary p) (h : ReadsChain t) :
    Known t := by
  have ternary := ternary_of_chain (level ▸ by cases p <;> decide) h
  exact {
    suffixed le := absurd (level ▸ le) (by cases p <;> decide)
    operand le := absurd (level ▸ le) (by cases p <;> decide)
    chain _ := h
    ternary _ := ternary
    assignment := assignment_of_ternary ternary }

theorem known_of_operand (some : 0 < size [t]) (level : t.level = .unary)
    (h : ReadsBack Form.operand .unary t) : Known t := by
  have chain := chain_of_operand some h
  have ternary := ternary_of_chain (level ▸ by decide) chain
  exact {
    suffixed le := absurd (level ▸ le) (by decide)
    operand _ := h
    chain _ := chain
    ternary _ := ternary
    assignment := assignment_of_ternary ternary }

theorem known_of_suffixed (some : 0 < size [t]) (level : t.level = .suffixed)
    (h : ReadsSuffixed t) : Known t := by
  have operand := operand_of_suffixed h
  have chain := chain_of_operand some operand
  have ternary := ternary_of_chain (level ▸ by decide) chain
  exact ⟨fun _ => h, fun _ => operand, fun _ => chain, fun _ => ternary,
    assignment_of_ternary ternary⟩

end Looser

/-! ## Nodes that are read back -/

section Nodes

variable {n : Nat} {t first base : Tree} {parts rest others : List Tree} {L : Language Tree}
  {rule : Rule} {k : TokenKind} {stop : List TokenKind → Prop}

theorem ready_of_split {nodes : List Tree} (split : withoutTrivia parts = nodes)
    (back : ∀ part ∈ parts, Back part)
    (room : ∀ t ∈ nodes, t.isToken = false → size [t] < n) : ∀ part ∈ parts, Ready n part :=
  fun part inside =>
    ⟨back part inside, fun node => room part (split ▸ mem_withoutTrivia inside node) node⟩

/-- Behind a token there is a level to spare for everything else. -/
theorem ready_behind (split : withoutTrivia parts = first :: others)
    (label : first.label = .token k) (plain : k.isTrivia = false)
    (back : ∀ part ∈ parts, Back part) (room : size parts ≤ n) :
    ∀ part ∈ parts, Ready n part := by
  rw [← size_withoutTrivia, split, size_cons, size_token label plain] at room
  refine ready_of_split split back fun t member node => ?_
  rcases List.mem_cons.mp member with rfl | behind
  · simp [isToken_of_token label] at node
  · have later := size_le_of_mem behind
    omega

/-- Of two nodes with tokens each leaves a level for the other. -/
theorem ready_pair {a b : Tree} (split : withoutTrivia parts = [a, b]) (someA : 0 < size [a])
    (someB : 0 < size [b]) (back : ∀ part ∈ parts, Back part) (room : size parts ≤ n) :
    ∀ part ∈ parts, Ready n part := by
  rw [← size_withoutTrivia, split, size_cons] at room
  refine ready_of_split split back fun t member _ => ?_
  rcases List.mem_pair.mp member with rfl | rfl <;> omega

theorem back_of_split {nodes : List Tree} (split : withoutTrivia parts = nodes)
    (back : ∀ part ∈ parts, Back part) : ∀ t ∈ nodes, Back t := by
  subst split
  exact fun t inside => back t (List.mem_filter.mp inside).1

theorem back_arguments (regular : Regular t) (label : t.label = .rule .arguments)
    (back : ∀ part ∈ t.children, Back part) : Back t where
  regular := regular
  known isExpr := by simp [label, Label.isExpression, Rule.isExpression] at isExpr
  arguments _ n us room := by
    refine Form.arguments_takes regular label ?_ us
    obtain ⟨parts, rfl, -, fits, -⟩ := regular.eq_ofRule label
    have fits : withoutTrivia parts ∈ tok .lParen * (opt (separated expr) * tok .rParen) := by
      rw [← mul_assoc]
      exact fits
    obtain ⟨first, others, split, isOpen, -⟩ := mem_single_mul.mp fits
    exact ready_behind split isOpen rfl back (by rwa [size_ofRule] at room)

/-! ### Operands without suffixes -/

/-- No cast is looked for where something else than a parenthesis comes next. -/
theorem not_castAhead_of_kind {ts : List Token} (notOpen : nextKind ts ≠ .lParen) :
    (Form.castAhead.readAt n [] ts).leadsTo Form.startsCastOperand = false := by
  rw [← Bool.not_eq_true, Form.castAhead_iff]
  rintro ⟨w, -, k, ks, same, -⟩
  exact notOpen (by rw [nextKind_eq_kinds, same]; rfl)

/-- What stands in parentheses is no type that is cast to, if no operand begins behind it. -/
theorem not_castAhead_of_enclosed {ts : List Token} {w ks : List TokenKind}
    (split : kinds ts = .lParen :: (w ++ .rParen :: ks)) (enclosed : Enclosed w)
    (notOperand : Form.startsCastOperand (ks.headD .eof) = false) :
    (Form.castAhead.readAt n [] ts).leadsTo Form.startsCastOperand = false := by
  rw [← Bool.not_eq_true, Form.castAhead_iff]
  rintro ⟨v, word, k, ks', same, starts⟩
  have plain {k : TokenKind} (notType : isTypeToken k = false) : k ∉ v := fun member => by
    have isType := isTypeToken_of_mem word member
    rw [notType] at isType
    exact absurd isType (by decide)
  have inside : w ++ .rParen :: ks = v ++ .rParen :: k :: ks' :=
    (List.cons.inj (split.symm.trans same)).2
  have notClose : .rParen ∉ w := by
    intro member
    obtain ⟨u, x, rfl, before⟩ := List.eq_append_cons_of_mem member
    rw [List.append_assoc, List.cons_append] at inside
    obtain ⟨rfl, -⟩ := append_cons_inj inside before (plain rfl)
    exact plain rfl (enclosed u x rfl)
  obtain ⟨-, rfl⟩ := append_cons_inj inside notClose (plain rfl)
  rw [List.headD_cons, starts] at notOperand
  exact absurd notOperand (by decide)

/-- What is read as a primary is read as an operand, if it does not look like a cast. -/
theorem suffixed_of_primary {stop : List TokenKind → Prop}
    (reaches : ∀ n, Form.primary.Reaches n L stop (.close rule))
    (member : withoutTrivia parts ∈ L) (capped : Capped parts) (some : 0 < size parts)
    (ready : ∀ n, size parts ≤ n → ∀ part ∈ parts, Ready n part)
    (stops : ∀ ks, Before .suffixed ks →
      (withoutTrivia parts ∈ sizedArray → ks.headD .eof ≠ .lBracket) → stop ks)
    (opens : ∀ n us, Before .suffixed (kinds us) →
      Form.isUnary (nextKind (tokensAll parts ++ us)) = false ∧
      (Form.castAhead.readAt n [] (tokensAll parts ++ us)).leadsTo Form.startsCastOperand = false) :
    ReadsSuffixed (ofRule rule parts) := by
  intro n us room before notIndexed
  rw [size_ofRule] at room
  obtain ⟨notUnary, notCast⟩ := opens n us before
  have read : Form.primary.readAt n [] (tokensAll parts ++ us) = .done [ofRule rule parts] us [] :=
    reaches n parts member capped (ready n room) us (stops _ before notIndexed) []
  refine ⟨n, by rw [size_ofRule]; omega, ?_⟩
  rw [Tree.tokens_ofRule, Form.operand, Form.readAt_ifNext, notUnary, Form.readAt_choose, notCast]
  exact Form.readAt_seq_of_done read

/-- The same for what begins with a token that is no parenthesis. -/
theorem suffixed_of_token (reaches : ∀ n, Form.primary.Reaches n L stop (.close rule))
    (member : withoutTrivia parts ∈ L) (capped : Capped parts) (back : ∀ part ∈ parts, Back part)
    (split : withoutTrivia parts = first :: others) (label : first.label = .token k)
    (plain : k.isTrivia = false ∧ k ≠ .lParen ∧ Form.isUnary k = false)
    (stops : ∀ ks, Before .suffixed ks →
      (withoutTrivia parts ∈ sizedArray → ks.headD .eof ≠ .lBracket) → stop ks) :
    ReadsSuffixed (ofRule rule parts) := by
  have word := wordOf_split split label plain.1
  refine suffixed_of_primary reaches member capped (by simp [size_of_word word])
    (fun n => ready_behind split label plain.1 back) stops fun n us _ => ?_
  have next : nextKind (tokensAll parts ++ us) = k := by
    rw [nextKind_eq_kinds, Form.kinds_of_word word, List.headD_cons]
  exact ⟨next ▸ plain.2.2, not_castAhead_of_kind (next ▸ plain.2.1)⟩

theorem Before.not_lParen {ks : List TokenKind} (before : Before .suffixed ks) :
    (ks.headD .eof == .lParen) = false :=
  before.head (P := fun k => (k == .lParen) = false) fun k => by cases k <;> decide

theorem Before.not_lBrace {ks : List TokenKind} (before : Before .suffixed ks) :
    (ks.headD .eof == .lBrace) = false :=
  before.head (P := fun k => (k == .lBrace) = false) fun k => by cases k <;> decide

theorem suffixed_call (member : withoutTrivia parts ∈ strict .functionInvoke)
    (capped : Capped parts) (back : ∀ part ∈ parts, Back part) :
    ReadsSuffixed (ofRule .functionInvoke parts) := by
  obtain ⟨first, others, split, isName, -⟩ := mem_single_mul.mp member
  exact suffixed_of_token (fun _ => Form.primary_call) member capped back split isName
    ⟨rfl, by decide, rfl⟩ fun _ _ _ => trivial

theorem suffixed_parenthesis (member : withoutTrivia parts ∈ tok .lParen * (expr * tok .rParen))
    (capped : Capped parts) (back : ∀ part ∈ parts, Back part) :
    ReadsSuffixed (ofRule .primary parts) := by
  obtain ⟨first, others, split, isOpen, inside⟩ := mem_single_mul.mp member
  obtain ⟨e, closing, rfl, isExpr, close, rfl, isClose⟩ := mem_single_mul.mp inside
  have backE : Back e := back_of_split split back e (by simp)
  have word : wordOf (withoutTrivia parts) = .lParen :: (wordOf [e] ++ [.rParen]) := by
    rw [wordOf_split split isOpen rfl, wordOf_cons e, wordOf_token isClose]
    rfl
  refine suffixed_of_primary (fun _ => Form.primary_parenthesis) member capped
    (by simp [size_of_word word]) (fun n => ready_behind split isOpen rfl back)
    (fun _ _ _ => trivial) fun n us before => ⟨?_, ?_⟩
  · rw [nextKind_eq_kinds, Form.kinds_of_word word]
    rfl
  · have inside :
        kinds (tokensAll parts ++ us) = .lParen :: (wordOf [e] ++ .rParen :: kinds us) := by
      rw [Form.kinds_of_word word]
      simp
    exact not_castAhead_of_enclosed inside (backE.regular.worded.expression isExpr).2.enclosed
      (before.head (P := fun k => Form.startsCastOperand k = false) fun k => by cases k <;> decide)

/-! ### Suffixes -/

/-- Suffixes are read where one begins, on a level of their own. -/
theorem readAt_suffixes {ks : List TokenKind} {ts : List Token} (next : kinds ts = k :: ks)
    (starts : Form.startsSuffix k) (frame : List Tree) :
    Form.suffixes.readAt (n + 1) frame ts = Form.suffix.readAt n frame ts := by
  rw [Form.suffixes, Form.whenNext, Form.readAt_ifNext, nextKind_eq_kinds, next, List.headD_cons,
    starts]
  rfl

/-- A suffix is read behind its operand. -/
theorem suffixed_of_suffix (known : Known base) (level : Level.suffixed.rank ≤ base.level.rank)
    (reaches : ∀ n, Form.oneSuffix.Reaches n L stop (.close rule))
    (member : withoutTrivia rest ∈ L) (capped : Capped rest) (back : ∀ part ∈ rest, Back part)
    (split : withoutTrivia rest = first :: others) (label : first.label = .token k)
    (starts : Form.startsSuffix k)
    (notIndexed : base.significant ∈ sizedArray → k ≠ .lBracket)
    (stops : ∀ ks, Before .suffixed ks → stop ks) : ReadsSuffixed (ofRule rule (base :: rest)) := by
  intro n us room before _
  have plain : k.isTrivia = false ∧ mayPrecede .suffixed k := by
    cases k <;> first | decide | simp [Form.startsSuffix] at starts
  have word := wordOf_split split label plain.1
  have next := Form.kinds_of_word word us
  have some := size_of_word word
  rw [size_ofRule, size_cons] at room
  obtain ⟨l, enough, read⟩ := known.suffixed level n (tokensAll rest ++ us) (by omega)
    (by rw [Before, next]; exact plain.2) (by rw [next]; exact notIndexed)
  obtain ⟨m, rfl⟩ : ∃ m, l = m + 1 := ⟨l - 1, by omega⟩
  have one : Form.oneSuffix.readAt m [base] (tokensAll rest ++ us) =
      .done [ofRule rule (base :: rest)] us [] :=
    reaches m rest member capped (ready_behind split label plain.1 back (by omega)) us
      (stops _ before) [base]
  refine ⟨m, ?_, ?_⟩
  · rw [size_ofRule, size_cons]
    omega
  · rw [tokens_base, read, readAt_suffixes next starts, Form.suffix_eq,
      Form.readAt_seq_of_done one]

theorem suffixed_method (member : withoutTrivia parts ∈ strict .methodInvoke)
    (opened : Opened parts) (closed : Closed parts) (back : ∀ part ∈ parts, Back part) :
    ReadsSuffixed (ofRule .methodInvoke parts) := by
  have member : withoutTrivia parts ∈
      exprAt .suffixed * (tok .dot * (tok .identifier * nodeOf .arguments)) := by
    rw [← mul_assoc, ← mul_assoc]
    exact member
  obtain ⟨base, rest, rfl, ⟨isExpr, level⟩, inRest, capped⟩ := split_base member opened closed
  obtain ⟨backBase, backRest⟩ := List.forall_mem_cons.mp back
  obtain ⟨first, others, split, isDot, -⟩ := mem_single_mul.mp inRest
  exact suffixed_of_suffix (backBase.known isExpr) level (fun _ => Form.suffix_method) inRest capped
    backRest split isDot rfl (fun _ => by decide) fun _ _ => trivial

theorem suffixed_member
    (member : withoutTrivia parts ∈ exprAt .suffixed * (tok .dot * tok .identifier))
    (opened : Opened parts) (closed : Closed parts) (back : ∀ part ∈ parts, Back part) :
    ReadsSuffixed (ofRule .primary parts) := by
  obtain ⟨base, rest, rfl, ⟨isExpr, level⟩, inRest, capped⟩ := split_base member opened closed
  obtain ⟨backBase, backRest⟩ := List.forall_mem_cons.mp back
  obtain ⟨first, others, split, isDot, -⟩ := mem_single_mul.mp inRest
  exact suffixed_of_suffix (backBase.known isExpr) level (fun _ => Form.suffix_member) inRest capped
    backRest split isDot rfl (fun _ => by decide) fun _ before => before.not_lParen

theorem suffixed_index (member : withoutTrivia parts ∈ strict .arrayAccessExpr)
    (opened : Opened parts) (closed : Closed parts) (back : ∀ part ∈ parts, Back part) :
    ReadsSuffixed (ofRule .arrayAccessExpr parts) := by
  have member : withoutTrivia parts ∈ indexable * (tok .lBracket * (expr * tok .rBracket)) := by
    rw [← mul_assoc, ← mul_assoc]
    exact member
  obtain ⟨base, rest, rfl, ⟨isExpr, level, notSized⟩, inRest, capped⟩ :=
    split_base member opened closed
  obtain ⟨backBase, backRest⟩ := List.forall_mem_cons.mp back
  obtain ⟨first, others, split, isOpen, -⟩ := mem_single_mul.mp inRest
  exact suffixed_of_suffix (backBase.known isExpr) level (fun _ => Form.suffix_index) inRest capped
    backRest split isOpen rfl (fun sized => absurd sized notSized) fun _ _ => trivial

theorem suffixed_increment (member : withoutTrivia parts ∈ strict .postfixExpr)
    (opened : Opened parts) (closed : Closed parts) (back : ∀ part ∈ parts, Back part) :
    ReadsSuffixed (ofRule .postfixExpr parts) := by
  obtain ⟨base, rest, rfl, ⟨isExpr, level⟩, inRest, capped⟩ := split_base member opened closed
  obtain ⟨backBase, backRest⟩ := List.forall_mem_cons.mp back
  obtain ⟨first, split, k, label, increment⟩ := id inRest
  have starts : Form.startsSuffix k ∧ k ≠ .lBracket := by
    cases k <;> first | decide | simp [Form.isIncrement] at increment
  exact suffixed_of_suffix (backBase.known isExpr) level (fun _ => Form.suffix_increment) inRest
    capped backRest split label starts.1 (fun _ => starts.2) fun _ _ => trivial

theorem suffixed_primary (member : withoutTrivia parts ∈ strict .primary)
    (opened : Opened parts) (closed : Closed parts) (back : ∀ part ∈ parts, Back part) :
    ReadsSuffixed (ofRule .primary parts) := by
  have capped := capped_of_closed closed
  rcases member with ((((atom | text) | name) | parenthesis) | (sized | created)) | access
  · obtain ⟨first, split, k, label, isAtom⟩ := id atom
    refine suffixed_of_token (fun _ => Form.primary_atom) atom capped back split label ?_
      fun _ _ _ => trivial
    cases k <;> first | decide | simp [Form.isAtom] at isAtom
  · obtain ⟨first, split, label, -⟩ := id text
    exact suffixed_of_token (fun _ => Form.primary_string) text capped back split label
      (by decide) fun _ _ _ => trivial
  · obtain ⟨first, split, label⟩ := id name
    exact suffixed_of_token (fun _ => Form.primary_name) name capped back split label (by decide)
      fun _ before _ => before.not_lParen
  · exact suffixed_parenthesis (by rwa [← mul_assoc]) capped back
  · have begins := sized
    rw [sizedArray, mul_assoc] at begins
    obtain ⟨first, others, split, label, -⟩ := mem_single_mul.mp begins
    refine suffixed_of_token (fun _ => Form.primary_new Form.reaches_sizedArray) sized capped back
      split label (by decide) fun ks before notIndexed => ⟨?_, before.not_lBrace⟩
    simpa using notIndexed sized
  · have begins := created
    rw [mul_assoc] at begins
    obtain ⟨first, others, split, label, -⟩ := mem_single_mul.mp begins
    exact suffixed_of_token (fun _ => Form.primary_new Form.reaches_created) created capped back
      split label (by decide) fun _ _ _ => trivial
  · exact suffixed_member (by rwa [← mul_assoc]) opened closed back

/-! ### Operators before an operand -/

/-- Where a sign comes next, what stands behind it is read on a level of its own. -/
theorem readAt_operand_sign {ts : List Token} (next : Form.isUnary (nextKind ts) = true) :
    Form.operand.readAt (n + 1) [] ts = Form.unary.readAt n [] ts := by
  rw [Form.operand, Form.readAt_ifNext, next]
  rfl

theorem operand_unary (member : withoutTrivia parts ∈ strict .prefixExpr) (opened : Opened parts)
    (closed : Closed parts) (back : ∀ part ∈ parts, Back part) :
    ReadsBack Form.operand .unary (ofRule .prefixExpr parts) := by
  obtain ⟨op, rest, rfl, ⟨k, label, isUnary⟩, ⟨o, only, isExpr, level⟩, capped⟩ :=
    split_base member opened closed
  obtain ⟨backOp, backRest⟩ := List.forall_mem_cons.mp back
  obtain ⟨gap, rfl, trivia⟩ := split_single only capped
  have plain : k.isTrivia = false := by
    cases k <;> first | rfl | simp [Form.isUnary] at isUnary
  have significant : op.isTrivia = false := by
    rw [Tree.isTrivia, Tree.tokenKind?, label, Label.tokenKind?, Option.any_some, plain]
  have alone : withoutTrivia [op] = [op] := by simp [withoutTrivia, significant]
  intro n us room before
  rw [size_ofRule, size_cons, size_token label plain] at room
  have sizeO : size [o] ≤ size (gap ++ [o]) := size_le_of_mem (by simp)
  obtain ⟨m, rfl⟩ : ∃ m, n = m + 1 := ⟨n - 1, by omega⟩
  have token : (Form.take Form.isUnary).Takes m .empty [op] (tokensAll (gap ++ [o]) ++ us) := by
    have reaches : (Form.take Form.isUnary).Reaches m (tokOf Form.isUnary) anything .empty :=
      .token _ _
    refine reaches [op] ⟨op, alone, k, label, isUnary⟩ ?_ ?_ _ trivial
    · simpa [Capped] using significant
    · simpa using ready_of_isToken backOp.regular (isToken_of_token label)
  have operand := Form.Takes.afterTrivia trivia (fun g inside => (backRest g inside).regular)
    (isToken_of_isExpression isExpr)
    (.frame (((backRest o (by simp)).known isExpr).operand level m us (by omega) before))
    (.close .prefixExpr)
  have next :
      Form.isUnary (nextKind (tokensAll [op] ++ (tokensAll (gap ++ [o]) ++ us))) = true := by
    rw [Form.nextKind_tokensAll, wordOf_split alone label plain]
    exact isUnary
  have split : op.tokens = tokensAll [op] := by simp [tokensAll]
  rw [tokens_base, split, readAt_operand_sign next, Form.unary, Form.readAt_seq_of_done (token []),
    operand]
  rfl

theorem operand_cast (member : withoutTrivia parts ∈ strict .castExpr) (closed : Closed parts)
    (back : ∀ part ∈ parts, Back part) :
    ReadsBack Form.operand .unary (ofRule .castExpr parts) := by
  have member : withoutTrivia parts ∈
      tok .lParen * (nodeOf .typeRef * (tok .rParen * castOperand)) := by
    rw [← mul_assoc, ← mul_assoc]
    exact member
  obtain ⟨first, others, split, isOpen, inOthers⟩ := mem_single_mul.mp member
  obtain ⟨type, others, rfl, isType, inOthers⟩ := mem_single_mul.mp inOthers
  obtain ⟨close, others, rfl, isClose, o, rfl, isExpr, level, k, begins, starts⟩ :=
    mem_single_mul.mp inOthers
  obtain ⟨v, wordO⟩ : ∃ v, wordOf [o] = k :: v := List.head?_eq_some_iff.mp begins
  have word : wordOf (withoutTrivia parts) = .lParen :: (wordOf [type] ++ .rParen :: k :: v) := by
    rw [wordOf_split split isOpen rfl, wordOf_cons type, wordOf_cons close, wordO,
      wordOf_token isClose]
    rfl
  have sizes : size parts = size [type] + size [o] + 2 := by
    rw [← size_withoutTrivia, split, size_cons, size_cons type, size_cons close,
      size_token isOpen rfl, size_token isClose rfl]
    omega
  intro n us room before
  rw [size_ofRule, sizes] at room
  obtain ⟨m, rfl⟩ : ∃ m, n = m + 1 := ⟨n - 1, by omega⟩
  have isCast : (Form.castAhead.readAt (m + 1) [] (tokensAll parts ++ us)).leadsTo
      Form.startsCastOperand = true := by
    have typeWord := (back_of_split split back type (by simp)).regular.typeWord isType
    refine (Form.castAhead_iff _ _).mpr ⟨wordOf [type], typeWords_mono (by omega) typeWord, k,
      v ++ kinds us, ?_, starts⟩
    rw [Form.kinds_of_word word]
    simp
  have notUnary : Form.isUnary (nextKind (tokensAll parts ++ us)) = false := by
    rw [nextKind_eq_kinds, Form.kinds_of_word word]
    rfl
  have read : Form.cast.readAt m [] (tokensAll parts ++ us) =
      .done [ofRule .castExpr parts] us [] := by
    refine Form.reaches_cast parts member (capped_of_closed closed)
      (ready_of_split split back fun t member node => ?_) us before []
    simp only [List.mem_cons, List.not_mem_nil, or_false] at member
    rcases member with rfl | rfl | rfl | rfl
    · simp [isToken_of_token isOpen] at node
    · omega
    · simp [isToken_of_token isClose] at node
    · omega
  rw [Tree.tokens_ofRule, Form.operand, Form.readAt_ifNext, notUnary, Form.readAt_choose, isCast]
  exact read

/-! ### Chains of operators -/

/-- A chain goes on with an operator that comes next, on a level of its own. -/
theorem readAt_links_operator {least p : Precedence} {ks : List TokenKind} {ts : List Token}
    (next : kinds ts = k :: ks) (same : Precedence.ofKind? k = some p)
    (taken : least.rank ≤ p.rank) (frame : List Tree) :
    (Form.links least).readAt (n + 1) frame ts = (Form.link least p).readAt n frame ts := by
  rw [Form.readAt_links, nextKind_eq_kinds, next, List.headD_cons, same]
  simp only
  rw [if_pos taken]
  rfl

theorem chain_binary {p : Precedence} (member : withoutTrivia parts ∈ operation p)
    (opened : Opened parts) (closed : Closed parts) (back : ∀ part ∈ parts, Back part) :
    ReadsChain (ofRule .binaryExpr parts) := by
  have level := Form.level_operation member
  rw [operation, mul_assoc] at member
  obtain ⟨base, rest, rfl, ⟨isExpr, baseLevel⟩, inRest, capped⟩ := split_base member opened closed
  obtain ⟨backBase, backRest⟩ := List.forall_mem_cons.mp back
  obtain ⟨op, others, split, ⟨label, isOperator⟩, r, rfl, isExprR, -⟩ := mem_single_mul.mp inRest
  obtain ⟨k, word, same⟩ := Form.word_of_operator label isOperator
  have someR := (back_of_split split backRest r (by simp)).regular.size_pos isExprR
  have behind : wordOf (withoutTrivia rest) = k :: wordOf [r] := by
    rw [split, wordOf_cons, word]
    rfl
  intro least n us le room before beforeLevel
  rw [level] at le beforeLevel
  have next := Form.kinds_of_word behind us
  have some := size_of_word behind
  have mayFollow (l : Level) (tight : (Level.binary p).rank ≤ l.rank) :
      Before l (kinds (tokensAll rest ++ us)) := by
    rw [next, Before, List.headD_cons, mayPrecede_operator same]
    exact decide_eq_true tight
  have whole : size [ofRule .binaryExpr (base :: rest)] = size [base] + size rest := by
    rw [size_ofRule, size_cons]
  rw [whole] at room
  obtain ⟨l, enough, read⟩ := (backBase.known isExpr).chain
    (le_trans (by cases p <;> decide) baseLevel) least n (tokensAll rest ++ us) (le.trans baseLevel)
    (by omega) (mayFollow .unary (by cases p <;> decide)) (mayFollow _ baseLevel)
  obtain ⟨m, rfl⟩ : ∃ m, l = m + 1 := ⟨l - 1, by omega⟩
  have taken : least.rank ≤ p.rank := by
    simp only [Level.rank] at le
    omega
  have ready := ready_pair (n := m) split (by simp [size, word]) someR backRest (by omega)
  have link := Form.reaches_link least p rest inRest capped ready us beforeLevel [base]
  refine ⟨m, by rw [whole]; omega, ?_⟩
  rw [tokens_base, read, readAt_links_operator next same taken, link]
  exact Form.readAt_seq_of_done rfl

/-! ### Conditionals and assignments -/

theorem ternary_conditional (member : withoutTrivia parts ∈ strict .ternaryExpr)
    (opened : Opened parts) (closed : Closed parts) (back : ∀ part ∈ parts, Back part) :
    ReadsBack Form.ternary .ternary (ofRule .ternaryExpr parts) := by
  have member : withoutTrivia parts ∈ exprAt (.binary .or) *
      (tok .question * (exprAt .ternary * (tok .colon * exprAt .ternary))) := by
    rw [← mul_assoc, ← mul_assoc, ← mul_assoc]
    exact member
  obtain ⟨base, rest, rfl, ⟨isExpr, level⟩, inRest, capped⟩ := split_base member opened closed
  obtain ⟨backBase, backRest⟩ := List.forall_mem_cons.mp back
  obtain ⟨first, others, split, isQuestion, -⟩ := mem_single_mul.mp inRest
  intro n us room before
  have next := Form.kinds_of_word (wordOf_split split isQuestion rfl) us
  rw [size_ofRule, size_cons] at room
  obtain ⟨l, -, read⟩ := (backBase.known isExpr).chain level .or n (tokensAll rest ++ us) level
    (by omega) (by rw [Before, next]; rfl)
    (by rw [Before, next]; exact decide_eq_true level)
  have condition : (Form.binary .or).readAt n [] (base.tokens ++ (tokensAll rest ++ us)) =
      .done [base] (tokensAll rest ++ us) [] := by
    rw [read, Form.readAt_links, nextKind_eq_kinds, next]
    rfl
  have branches := Form.reaches_branches (n := n) rest inRest capped
    (ready_behind split isQuestion rfl backRest (by omega)) us before [base]
  rw [tokens_base, Form.ternary, Form.readAt_seq_of_done condition, Form.whenNext,
    Form.readAt_ifNext, nextKind_eq_kinds, next]
  exact branches

theorem assignment_operator (member : withoutTrivia parts ∈ strict .assignmentExpr)
    (opened : Opened parts) (closed : Closed parts) (back : ∀ part ∈ parts, Back part) :
    ReadsBack Form.assignment .assignment (ofRule .assignmentExpr parts) := by
  have member : withoutTrivia parts ∈ exprAt .ternary * (nodeOf .assignmentOperator * expr) := by
    rw [← mul_assoc]
    exact member
  obtain ⟨base, rest, rfl, ⟨isExpr, level⟩, inRest, capped⟩ := split_base member opened closed
  obtain ⟨backBase, backRest⟩ := List.forall_mem_cons.mp back
  obtain ⟨op, others, split, label, v, rfl, isExprV⟩ := mem_single_mul.mp inRest
  have backs := back_of_split split backRest
  obtain ⟨k, word, assigns⟩ := (backs op (by simp)).regular.worded .assignmentOperator label
  intro n us room before
  have whole : wordOf (withoutTrivia rest) = k :: wordOf [v] := by
    rw [split, wordOf_cons, word]
    rfl
  have next := Form.kinds_of_word whole us
  rw [size_ofRule, size_cons] at room
  have target := (backBase.known isExpr).ternary level n (tokensAll rest ++ us) (by omega) (by
    have mayFollow : mayPrecede .ternary k := by
      cases k <;> first | rfl | simp [TokenKind.isAssignment] at assigns
    rw [Before, next]
    exact mayFollow)
  have value := Form.reaches_value (n := n) rest inRest capped
    (ready_pair split (by simp [size, word]) ((backs v (by simp)).regular.size_pos isExprV) backRest
      (by omega)) us before [base]
  rw [tokens_base, Form.assignment, Form.readAt_seq_of_done target, Form.whenNext,
    Form.readAt_ifNext, nextKind_eq_kinds, next, List.headD_cons, assigns]
  exact value

end Nodes

/-! ## All expressions -/

/-- Expressions are read back, if what they are made of is. -/
theorem known_of_parts {rule : Rule} {parts : List Tree} (regular : Regular (ofRule rule parts))
    (isExpr : rule.isExpression) (fits : withoutTrivia parts ∈ strict rule) (opened : Opened parts)
    (closed : Closed parts) (back : ∀ part ∈ parts, Back part) : Known (ofRule rule parts) := by
  have some : 0 < size [ofRule rule parts] := regular.size_pos isExpr
  have capped := capped_of_closed closed
  cases rule
  case assignmentExpr =>
    exact known_of_assignment rfl (assignment_operator fits opened closed back)
  case ternaryExpr => exact known_of_ternary rfl (ternary_conditional fits opened closed back)
  case binaryExpr =>
    obtain ⟨p, member⟩ := fits
    exact known_of_chain (Form.level_operation member) (chain_binary member opened closed back)
  case prefixExpr => exact known_of_operand some rfl (operand_unary fits opened closed back)
  case castExpr => exact known_of_operand some rfl (operand_cast fits closed back)
  case primary => exact known_of_suffixed some rfl (suffixed_primary fits opened closed back)
  case functionInvoke => exact known_of_suffixed some rfl (suffixed_call fits capped back)
  case methodInvoke => exact known_of_suffixed some rfl (suffixed_method fits opened closed back)
  case arrayAccessExpr => exact known_of_suffixed some rfl (suffixed_index fits opened closed back)
  case postfixExpr => exact known_of_suffixed some rfl (suffixed_increment fits opened closed back)
  all_goals exact absurd isExpr (by decide)

/-- Whatever is regular is read back. -/
theorem back_of_regular : ∀ t, Regular t → Back t := by
  refine Tree.children_induct fun t below regular => ?_
  have back : ∀ part ∈ t.children, Regular part → Back part := below
  cases label : t.label with
  | token k => exact (ready_of_isToken (n := 0) regular (isToken_of_token label)).toBack
  | rule rule =>
      obtain ⟨parts, rfl, regularParts, fits, opened, closed⟩ := regular.eq_ofRule label
      have back : ∀ part ∈ parts, Back part := fun part inside =>
        back part inside (regularParts part inside)
      exact ⟨regular, fun isExpr => known_of_parts regular isExpr fits opened closed back,
        fun isList => (back_arguments regular isList back).arguments isList⟩

namespace Form

/-- The tokens of a regular expression are read as that expression, and no others, before anything
that ends it. -/
theorem expression_back {e : Tree} (regular : Regular e) (isExpr : e.label.isExpression)
    {limit : Nat} (levels : (significant e.tokens).length + 1 ≤ limit) {us : List Token}
    (behind : Before .assignment (kinds us)) :
    expression.readAt limit [] (e.tokens ++ us) = .done [e] us [] := by
  have room : size [e] < limit := by
    have same : size [e] = (significant e.tokens).length := by simp [size, wordOf, kinds, tokensAll]
    omega
  have ready : Ready limit e := ⟨back_of_regular e regular, fun _ => room⟩
  have takes := (recovers_expression e isExpr ready us behind).2 []
  simpa [tokensAll] using takes

/-- **Expression completeness.**  The tokens of a regular expression before a `;` are read as that
expression, and no others, if there are more levels than significant tokens. -/
theorem expression_complete {e : Tree} (regular : Regular e) (isExpr : e.label.isExpression)
    {limit : Nat} (levels : (significant e.tokens).length + 1 ≤ limit) {us : List Token}
    (stop : nextKind us = .semi) :
    expression.readAt limit [] (e.tokens ++ us) = .done [e] us [] := by
  refine expression_back regular isExpr levels ?_
  rw [Before, ← nextKind_eq_kinds, stop]
  rfl

/-- In `(a) - b` the parentheses are no cast. -/
theorem expression_complete_parenthesis :
    let mark (kind : TokenKind) (text : String) : Tree := .leaf ⟨kind, .zero, text⟩
    let name (text : String) : Tree := .ofRule .primary [mark .identifier text]
    let e : Tree := .ofRule .binaryExpr
      [.ofRule .primary [mark .lParen "(", name "a", mark .rParen ")"],
        .ofRule .binaryOp [mark .minus "-"], name "b"]
    let us : List Token := [⟨.semi, .zero, ";"⟩]
    (Regular e ∧ e.label.isExpression ∧ (significant e.tokens).length + 1 ≤ 6 ∧
        nextKind us = .semi) ∧
      expression.readAt 6 [] (e.tokens ++ us) = .done [e] us [] := by
  intro mark name e us
  have leafy (kind : TokenKind) (text : String) : Regular (mark kind text) := regular_leaf _
  have named (text : String) : Regular (name text) :=
    regular_single rfl (.inl (.inl (.inl (.inr ⟨_, rfl, rfl⟩))))
  have enclosed : Regular (.ofRule .primary [mark .lParen "(", name "a", mark .rParen ")"]) := by
    refine regular_ofRule (.inl (.inl (.inr ?_))) ⟨_, _, rfl, rfl⟩
      ⟨[mark .lParen "(", name "a"], mark .rParen ")", rfl, rfl⟩ ?_
    · exact ⟨_, ⟨_, ⟨_, rfl, rfl⟩, _, ⟨name "a", rfl, rfl⟩, rfl⟩, _, ⟨_, rfl, rfl⟩, rfl⟩
    · simpa using ⟨leafy _ _, named _, leafy _ _⟩
  have operator : Regular (.ofRule .binaryOp [mark .minus "-"]) :=
    regular_single rfl ⟨_, rfl, .minus, rfl, rfl⟩
  have regular : Regular e := by
    refine regular_ofRule ⟨.term, ?_⟩ ⟨_, _, rfl, rfl⟩ ⟨[_, _], name "b", rfl, rfl⟩ ?_
    · exact ⟨_, ⟨_, ⟨_, rfl, rfl, by decide⟩, _, ⟨_, rfl, rfl, rfl⟩, rfl⟩, _,
        ⟨name "b", rfl, rfl, by decide⟩, rfl⟩
    · simpa using ⟨enclosed, operator, named _⟩
  have levels : (significant e.tokens).length + 1 ≤ 6 := by decide
  exact ⟨⟨regular, rfl, levels, rfl⟩, expression_complete regular rfl levels rfl⟩

end Form

end QuestScript.Grammar
