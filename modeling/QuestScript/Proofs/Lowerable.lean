/-
# QuestScript.Proofs.Lowerable -- what is read can be lowered

Lowering fails on trees of the wrong shape, and reading does not make any: whatever is
read without a report is made of instances of productions, and of these every node that
may stand in a body can be lowered (`Tree.lower_ok`), every block is a list of statements
(`Tree.lowerBlock_ok`), and every item has what it needs.
-/
import QuestScript.Lowering.Module
import QuestScript.Proofs.Placement
import QuestScript.Proofs.Production

namespace QuestScript

open Grammar (shape production Only mem_single mem_single_mul mem_opt)
open scoped Computability

set_option autoImplicit false

/-- The label of a node that stands for a statement or for a part of one. -/
def Label.isPart : Label → Bool
  | .token kind => kind != .backquote
  | .rule .typeRef | .rule .binaryOp | .rule .assignmentOperator | .rule .forInit
  | .rule .forCondition | .rule .forUpdate | .rule .forEachBinding | .rule .forIterable => true
  | .rule r => r.isExpression || r.isStatement

namespace Tree

theorem isPart_of_isExpression {label : Label} (h : label.isExpression) : label.isPart := by
  cases label with
  | token kind => simp [Label.isExpression] at h
  | rule rule => cases rule <;> simp_all [Label.isExpression, Label.isPart, Rule.isExpression]

theorem isPart_of_isStatement {label : Label} (h : label.isStatement) : label.isPart := by
  cases label with
  | token kind => simp [Label.isStatement] at h
  | rule rule => cases rule <;> simp_all [Label.isStatement, Label.isPart, Rule.isStatement]

/-- The label of what may stand in a body: a part of a statement, or arguments. -/
def isBody (label : Label) : Bool := label.isPart || label = .rule .arguments

/-- The label of what may stand under a rule of a body.  Arguments are for calls and for `new`,
and strings and `new` itself for operands. -/
def mayStand (rule : Rule) (label : Label) : Bool :=
  isBody label && match label with
    | .rule .arguments => rule = .functionInvoke || rule = .methodInvoke || rule = .primary
    | .token .string | .token .kwNew => rule = .primary
    | _ => true

theorem isBody_of_mayStand {rule : Rule} {label : Label} (h : mayStand rule label) : isBody label :=
  (Bool.and_eq_true_iff.mp h).1

theorem mayStand_of_isExpression {rule : Rule} {label : Label} (h : label.isExpression) :
    mayStand rule label := by
  have body : isBody label := by simp [isBody, isPart_of_isExpression h]
  cases label with
  | token kind => simp [Label.isExpression] at h
  | rule below => cases below <;> simp_all [mayStand, Label.isExpression, Rule.isExpression]

theorem mayStand_of_isStatement {rule : Rule} {label : Label} (h : label.isStatement) :
    mayStand rule label := by
  have body : isBody label := by simp [isBody, isPart_of_isStatement h]
  cases label with
  | token kind => simp [Label.isStatement] at h
  | rule below => cases below <;> simp_all [mayStand, Label.isStatement, Rule.isStatement]

/-- The productions of the rules of a body hold only what may stand there. -/
theorem only_body {rule : Rule} (h : isBody (.rule rule)) :
    Only (fun label => mayStand rule label) (production rule) := by
  cases rule <;> simp [isBody, Label.isPart, Rule.isExpression, Rule.isStatement] at h <;>
    unfold production
  all_goals
    repeat' first
      | exact Grammar.only_one
      | apply Grammar.only_mul
      | apply Grammar.only_add
      | apply Grammar.only_opt
      | apply Grammar.only_kstar
      | exact Grammar.only_expr fun _ => mayStand_of_isExpression
      | exact Grammar.only_stmt fun _ => mayStand_of_isStatement
      | exact Grammar.only_tok rfl
      | exact Grammar.only_nodeOf rfl
      | exact Grammar.only_closedString rfl
      | apply Grammar.only_tokOf
  all_goals
    intro kind admitted
    cases kind <;> first | rfl | exact absurd admitted (by decide)

/-- What stands under a rule that becomes a composite is made of parts. -/
theorem only_parts {rule : Rule} (h : (Label.rule rule).isPart)
    (notCall : rule ≠ .functionInvoke ∧ rule ≠ .methodInvoke ∧ rule ≠ .primary) :
    Only (fun label => label.isPart) (production rule) := by
  intro nodes fits t member
  have stands := only_body (by simp [isBody, h]) nodes fits t member
  by_cases arguments : t.label = .rule .arguments
  · simp [arguments, mayStand, notCall] at stands
  · simpa [isBody, arguments] using isBody_of_mayStand stands

/-! ## Children -/

/-- Trivia behind a token that is written with a blank behind it. -/
def isDropped (previous : Option TokenKind) (child : Tree) : Bool :=
  child.isTrivia && previous.any TokenKind.endsInSpace

/-- What a lowered child leaves among the parts. -/
def partOf (child : Tree) (lowered : Option Statement) : List Sourced :=
  (lowered.map fun s => (child.label, s)).toList

theorem lowerChildren_cons {child : Tree} {rest : List Tree} {previous : Option TokenKind}
    {parts : List Sourced} :
    lowerChildren previous (child :: rest) = .ok parts ↔
      if isDropped previous child then lowerChildren child.tokenKind? rest = .ok parts
      else ∃ first others, child.lower = .ok first ∧
        lowerChildren child.tokenKind? rest = .ok others ∧ parts = partOf child first ++ others := by
  rw [lowerChildren, isDropped]
  split
  · rfl
  · cases hfirst : child.lower with
    | error e => simp [bind, Except.bind]
    | ok first =>
        cases hothers : lowerChildren child.tokenKind? rest with
        | error e => simp [bind, Except.bind]
        | ok others =>
            cases first <;> simp [bind, Except.bind, partOf, eq_comm]

/-- Nodes that can be lowered can be lowered in order. -/
theorem lowerChildren_ok {children : List Tree} (h : ∀ child ∈ children, ∃ r, child.lower = .ok r)
    (previous : Option TokenKind) : ∃ parts, lowerChildren previous children = .ok parts := by
  induction children generalizing previous with
  | nil => exact ⟨[], rfl⟩
  | cons child rest ih =>
      simp only [List.forall_mem_cons] at h
      obtain ⟨first, hfirst⟩ := h.1
      obtain ⟨others, hothers⟩ := ih h.2 child.tokenKind?
      simp only [lowerChildren_cons]
      split
      · exact ⟨others, hothers⟩
      · exact ⟨_, first, others, hfirst, hothers, rfl⟩

/-- Every part is what a child of its label is lowered to. -/
theorem lowerChildren_sound {children : List Tree} {previous : Option TokenKind}
    {parts : List Sourced} (h : lowerChildren previous children = .ok parts) :
    ∀ part ∈ parts, ∃ child ∈ children, part.1 = child.label ∧ child.lower = .ok (some part.2) := by
  induction children generalizing previous parts with
  | nil =>
      obtain rfl : [] = parts := by simpa [lowerChildren] using h
      simp
  | cons child rest ih =>
      rw [lowerChildren_cons] at h
      intro part member
      split at h
      · obtain ⟨source, inRest, lowered⟩ := ih h part member
        exact ⟨source, List.mem_cons_of_mem _ inRest, lowered⟩
      · obtain ⟨first, others, hfirst, hothers, rfl⟩ := h
        rcases List.mem_append.mp member with here | later
        · cases first with
          | none => simp [partOf] at here
          | some s =>
              obtain rfl : part = (child.label, s) := by simpa [partOf] using here
              exact ⟨child, by simp, rfl, hfirst⟩
        · obtain ⟨source, inRest, lowered⟩ := ih hothers part later
          exact ⟨source, List.mem_cons_of_mem _ inRest, lowered⟩

/-- The labels of the parts stand in the order of the children that they come from. -/
theorem lowerChildren_labels {children : List Tree} {previous : Option TokenKind}
    {parts : List Sourced} (h : lowerChildren previous children = .ok parts) :
    (parts.map Prod.fst).Sublist (children.map label) := by
  induction children generalizing previous parts with
  | nil =>
      obtain rfl : [] = parts := by simpa [lowerChildren] using h
      exact .slnil
  | cons child rest ih =>
      rw [lowerChildren_cons] at h
      split at h
      · exact .cons _ (ih h)
      · obtain ⟨first, others, -, hothers, rfl⟩ := h
        cases first with
        | none => exact .cons _ (ih hothers)
        | some s => exact .cons_cons _ (ih hothers)

/-- A child that is not trivia and becomes something leaves a part. -/
theorem lowerChildren_complete {children : List Tree} {previous : Option TokenKind}
    {parts : List Sourced} (h : lowerChildren previous children = .ok parts) {child : Tree}
    (member : child ∈ children) (significant : child.isTrivia = false) {s : Statement}
    (lowered : child.lower = .ok (some s)) : (child.label, s) ∈ parts := by
  induction children generalizing previous parts with
  | nil => simp at member
  | cons first rest ih =>
      rw [lowerChildren_cons] at h
      split at h
      · rename_i dropped
        rcases List.mem_cons.mp member with rfl | later
        · simp [isDropped, significant] at dropped
        · exact ih h later
      · obtain ⟨r, others, hfirst, hothers, rfl⟩ := h
        rcases List.mem_cons.mp member with rfl | later
        · obtain rfl : r = some s := by simpa [lowered] using hfirst.symm
          simp [partOf]
        · exact List.mem_append_right _ (ih hothers later)

/-- The last child, if it is not trivia, leaves the last part. -/
theorem lowerChildren_last {init : List Tree} {last : Tree} {previous : Option TokenKind}
    {parts : List Sourced} (h : lowerChildren previous (init ++ [last]) = .ok parts)
    (significant : last.isTrivia = false) {s : Statement} (lowered : last.lower = .ok (some s)) :
    parts.getLast? = some (last.label, s) := by
  induction init generalizing previous parts with
  | nil =>
      rw [List.nil_append, lowerChildren_cons, if_neg (by simp [isDropped, significant])] at h
      obtain ⟨first, others, hfirst, hothers, rfl⟩ := h
      obtain rfl : first = some s := by simpa [lowered] using hfirst.symm
      obtain rfl : [] = others := by simpa [lowerChildren] using hothers
      rfl
  | cons child init ih =>
      rw [List.cons_append, lowerChildren_cons] at h
      split at h
      · exact ih h
      · obtain ⟨first, others, -, hothers, rfl⟩ := h
        rw [List.getLast?_append, ih hothers]
        rfl

/-! ## Nodes -/

/-- The composite that a node becomes, if it becomes one. -/
def composite? (node : Tree) : Option CompositeKind :=
  match node.label with
  | .rule .forInit => some (if (node.findRule? .typeRef).isSome then .variables else .expression)
  | .rule .forUpdate => some .expression
  | .rule .forEachBinding => some .variables
  | .rule rule => CompositeKind.ofStatement? rule <|> CompositeKind.ofExpression? rule
  | .token _ => none

theorem lower_of_composite {node : Tree} {kind : CompositeKind} (h : node.composite? = some kind) :
    node.lower = (lowerChildren none node.children).map fun parts =>
      some (.composite kind (parts.map Prod.snd)) := by
  obtain ⟨label, span, children, text⟩ := node
  cases label with
  | token kind => simp [composite?] at h
  | rule rule =>
      cases rule <;> simp [composite?, CompositeKind.ofStatement?, CompositeKind.ofExpression?] at h
      all_goals
        subst h
        cases lowered : lowerChildren none children <;>
          simp [lower, lowered, bind, Except.bind, Except.map, CompositeKind.ofStatement?,
            CompositeKind.ofExpression?]

theorem lower_loop (parts : List Tree) :
    (ofRule .forStatement parts).lower =
      ((lowerChildren none parts).bind (loopOf (ofRule .forStatement parts))).map some := by
  rw [ofRule, lower]
  cases lowerChildren none parts <;> rfl

/-- A node that holds only one other gives way to it. -/
theorem lowerOnly_eq (wrapper : Tree) {children : List Tree} {only : Tree}
    (h : withoutTrivia children = [only]) : lowerOnly wrapper children = only.lower := by
  induction children with
  | nil => simp at h
  | cons child rest ih =>
      rw [lowerOnly]
      split
      · rename_i trivia
        rw [ih (by simpa [withoutTrivia, trivia] using h)]
      · rename_i significant
        have same : child = only ∧ withoutTrivia rest = [] := by
          simpa [withoutTrivia, significant] using h
        obtain ⟨rfl, none⟩ := same
        rw [if_pos (by simpa [withoutTrivia] using none)]

theorem mem_of_withoutTrivia {children : List Tree} {child : Tree}
    (h : child ∈ withoutTrivia children) : child ∈ children := List.mem_of_mem_filter h

theorem isTrivia_of_mem_withoutTrivia {children : List Tree} {child : Tree}
    (h : child ∈ withoutTrivia children) : child.isTrivia = false := by
  simpa using List.of_mem_filter h

theorem label_of_isTrivia {t : Tree} (trivia : t.isTrivia) : t.label = .token .trivia := by
  unfold isTrivia tokenKind? at trivia
  cases label : t.label with
  | rule rule => simp [label, Label.tokenKind?] at trivia
  | token kind =>
      cases kind <;> first
        | rfl
        | simp [label, Label.tokenKind?, TokenKind.isTrivia] at trivia

theorem find?_ok {children : List Tree} {label : Label}
    (h : ∃ child ∈ children, child.label = label) :
    ∃ child, children.find? (fun child => child.label = label) = some child := by
  rw [← Option.isSome_iff_exists, List.find?_isSome]
  simpa using h

theorem argumentsText_ok {call : Tree} (h : ∃ child ∈ call.children, child.label = .rule .arguments) :
    ∃ text, call.argumentsText = .ok text := by
  obtain ⟨arguments, found⟩ := find?_ok h
  simp only [argumentsText, findRule?, find?, found]
  split <;> exact ⟨_, rfl⟩

theorem functionCall_ok {call : Tree}
    (h : call.significant ∈ production .functionInvoke) : ∃ c, call.functionCall = .ok c := by
  simp only [production, Grammar.tok, Grammar.nodeOf, mem_single_mul, mem_single] at h
  obtain ⟨name, _, whole, isName, arguments, rfl, isArguments⟩ := h
  have among : ∀ child ∈ [name, arguments], child ∈ call.children := fun child member =>
    mem_of_withoutTrivia (by rwa [← significant_eq, whole])
  obtain ⟨found, hfound⟩ := find?_ok ⟨name, among name (by simp), isName⟩
  obtain ⟨text, htext⟩ := argumentsText_ok ⟨arguments, among arguments (by simp), isArguments⟩
  exact ⟨_, by simp only [functionCall, findToken?, find?, hfound, htext]; rfl⟩

theorem methodCall_ok {call : Tree}
    (h : call.significant ∈ production .methodInvoke) : ∃ c, call.methodCall = .ok c := by
  simp only [production, Grammar.tok, Grammar.nodeOf, Grammar.expr, mul_assoc, mem_single_mul,
    mem_single] at h
  obtain ⟨receiver, _, whole, -, dot, _, rfl, -, name, _, rfl, isName, arguments, rfl,
    isArguments⟩ := h
  obtain ⟨text, htext⟩ := argumentsText_ok ⟨arguments, mem_of_withoutTrivia
    (by rw [← significant_eq, whole]; simp), isArguments⟩
  rw [significant_eq] at whole
  rw [methodCall]
  cases children : call.children with
  | nil => simp [children] at whole
  | cons first rest =>
      -- The first child is the receiver, if it is not trivia; so the name stands behind it.
      have inRest : name ∈ rest := by
        rw [children, withoutTrivia, List.filter_cons] at whole
        split at whole
        · have tail : withoutTrivia rest = [dot, name, arguments] := (List.cons.inj whole).2
          exact mem_of_withoutTrivia (by rw [tail]; simp)
        · have tail : withoutTrivia rest = [receiver, dot, name, arguments] := whole
          exact mem_of_withoutTrivia (by rw [tail]; simp)
      obtain ⟨found, hfound⟩ := find?_ok ⟨name, inRest, isName⟩
      exact ⟨_, by simp only [hfound, htext]; rfl⟩

theorem loopOf_eq_ok {loop : Tree} {parts : List Sourced} {s : Statement} :
    loopOf loop parts = .ok s ↔ ∃ control last, loopControl loop parts = .ok control ∧
      parts.getLast? = some last ∧ last.2.kind ≠ .token ∧
        s = .forLoop (parts.map Prod.snd) control := by
  unfold loopOf
  cases loopControl loop parts with
  | error e => simp [bind, Except.bind]
  | ok control =>
      cases parts.getLast? with
      | none => simp [bind, Except.bind]
      | some last =>
          obtain ⟨label, last⟩ := last
          by_cases token : last.kind = .token
          · simp [bind, Except.bind, token]
          · simp [bind, Except.bind, token]
            exact eq_comm

/-- A statement does not become a single token. -/
theorem kind_of_isStatement {t : Tree} {s : Statement} (h : t.label.isStatement)
    (lowered : t.lower = .ok (some s)) : s.kind ≠ .token := by
  obtain ⟨label, span, children, text⟩ := t
  cases label with
  | token kind => simp [Label.isStatement] at h
  | rule rule =>
      by_cases loop : rule = .forStatement
      · subst loop
        rw [lower] at lowered
        cases inner : lowerChildren none children with
        | error e => simp [inner, bind, Except.bind] at lowered
        | ok parts =>
            cases whole : loopOf ⟨.rule .forStatement, span, children, text⟩ parts with
            | error e => simp [inner, whole, bind, Except.bind, Except.map] at lowered
            | ok s' =>
                obtain ⟨_, _, -, -, -, rfl⟩ := loopOf_eq_ok.mp whole
                simp only [inner, whole, bind, Except.bind, Except.map, Except.ok.injEq,
                  Option.some.injEq] at lowered
                simp [← lowered, Statement.kind]
      · obtain ⟨kind, composite⟩ :
            ∃ kind, composite? ⟨.rule rule, span, children, text⟩ = some kind := by
          cases rule <;> simp_all [Label.isStatement, Rule.isStatement, composite?,
            CompositeKind.ofStatement?, CompositeKind.ofExpression?]
        rw [lower_of_composite composite] at lowered
        cases inner : lowerChildren none children with
        | error e => simp [inner, Except.map] at lowered
        | ok parts =>
            simp only [inner, Except.map, Except.ok.injEq, Option.some.injEq] at lowered
            simp [← lowered, Statement.kind]

theorem placeOf?_isSome {rule : Rule} {parts : List Sourced} :
    (placeOf? rule parts).isSome ↔ ∃ part ∈ parts, part.1 = .rule rule := by
  simp [placeOf?, List.findIdx?_isSome]

/-- The clauses of a loop that was read go together. -/
theorem loopControl_ok {parts : List Tree} {lowered : List Sourced}
    (fits : withoutTrivia parts ∈ production .forStatement)
    (each : ∀ part ∈ withoutTrivia parts, ∃ s, part.lower = .ok (some s))
    (h : lowerChildren none parts = .ok lowered) (loop : Tree) :
    ∃ control, loopControl loop lowered = .ok control := by
  have present {t : Tree} {rule : Rule} (member : t ∈ withoutTrivia parts)
      (label : t.label = .rule rule) : (placeOf? rule lowered).isSome := by
    obtain ⟨s, hs⟩ := each t member
    exact placeOf?_isSome.mpr ⟨_, lowerChildren_complete h (mem_of_withoutTrivia member)
      (isTrivia_of_mem_withoutTrivia member) hs, label⟩
  have absent {rule : Rule} (none' : ∀ t ∈ withoutTrivia parts, t.label ≠ .rule rule) :
      placeOf? rule lowered = none := by
    rw [← Option.not_isSome_iff_eq_none, placeOf?_isSome]
    rintro ⟨part, member, label⟩
    obtain ⟨child, inParts, same, -⟩ := lowerChildren_sound h part member
    have ruled : child.label = .rule rule := same.symm.trans label
    have significant : child.isTrivia = false := by simp [isTrivia, tokenKind?, ruled,
      Label.tokenKind?]
    exact none' child (List.mem_filter.mpr ⟨inParts, by simp [significant]⟩) ruled
  simp only [production, Grammar.clauses, mul_add, add_mul, Language.mem_add] at fits
  rcases fits with fits | fits
  · simp only [mul_assoc, Grammar.tok, Grammar.nodeOf, mem_single_mul] at fits
    obtain ⟨_, _, whole, -, _, _, rfl, -, binding, _, rfl, isBinding, _, _, rfl, -, iterable, _, rfl,
      isIterable, -⟩ := fits
    obtain ⟨b, hb⟩ := Option.isSome_iff_exists.mp (present (by simp [whole]) isBinding)
    obtain ⟨i, hi⟩ := Option.isSome_iff_exists.mp (present (by simp [whole]) isIterable)
    exact ⟨.each b i, by simp only [loopControl, hb, hi]⟩
  · have classic : ∀ t ∈ withoutTrivia parts,
        t.label ≠ .rule .forEachBinding ∧ t.label ≠ .rule .forIterable := by
      refine Grammar.only_mul (p := fun label =>
        label ≠ .rule .forEachBinding ∧ label ≠ .rule .forIterable) ?_ ?_ _ fits
      all_goals
        repeat' first
          | exact Grammar.only_one
          | apply Grammar.only_mul
          | apply Grammar.only_opt
          | exact Grammar.only_tok (by decide)
          | exact Grammar.only_nodeOf (by decide)
      exact Grammar.only_stmt fun label isStatement => by
        constructor <;> rintro rfl <;> exact absurd isStatement (by decide)
    have hb := absent fun t member => (classic t member).1
    have hi := absent fun t member => (classic t member).2
    exact ⟨_, by simp only [loopControl, hb, hi]; rfl⟩

theorem loopOf_ok {parts : List Tree} {lowered : List Sourced}
    (fits : withoutTrivia parts ∈ production .forStatement) (closed : Closed parts)
    (each : ∀ part ∈ withoutTrivia parts, ∃ s, part.lower = .ok (some s))
    (h : lowerChildren none parts = .ok lowered) (loop : Tree) :
    ∃ s, loopOf loop lowered = .ok s := by
  obtain ⟨control, hcontrol⟩ := loopControl_ok fits each h loop
  obtain ⟨init, last, rfl, significant⟩ := closed
  have end' : withoutTrivia (init ++ [last]) = withoutTrivia init ++ [last] := by
    simp [withoutTrivia, significant]
  obtain ⟨s, hs⟩ := each last (by simp [end'])
  have isStatement : last.label.isStatement := by
    obtain ⟨head, -, _, ⟨body, rfl, isStatement⟩, whole⟩ := fits
    rw [end'] at whole
    obtain rfl : body = last := by simpa using (List.append_inj_right' whole rfl)
    exact isStatement
  exact ⟨_, loopOf_eq_ok.mpr ⟨control, _, hcontrol, lowerChildren_last h significant hs,
    kind_of_isStatement isStatement hs, rfl⟩⟩

theorem Tidy.lower_trivia {t : Tree} (h : t.Tidy) (trivia : t.isTrivia) :
    t.lower = .ok (some (.token .trivia " ")) := by
  cases h with
  | leaf t =>
      obtain ⟨kind, span, text⟩ := t
      cases kind <;> first | rfl | simp [Token.isTrivia, TokenKind.isTrivia] at trivia
  | node rule parts => simp at trivia

/-- Every node that stands for a statement or a part of one can be lowered. -/
theorem Tidy.lower_ok {t : Tree} (h : t.Tidy) (met : shape.Met t) (part : t.label.isPart) :
    ∃ s, t.lower = .ok (some s) := by
  induction h with
  | leaf t =>
      obtain ⟨kind, span, text⟩ := t
      cases kind <;> first | exact ⟨_, rfl⟩ | simp [Tree.leaf, Label.isPart] at part
  | node rule parts tidy flanked ih =>
      obtain ⟨fits, metParts⟩ := Grammar.Contract.met_ofRule.mp met
      have below {child : Tree} (member : child ∈ withoutTrivia parts) (part : child.label.isPart) :
          ∃ s, child.lower = .ok (some s) :=
        ih child (mem_of_withoutTrivia member) (metParts child (mem_of_withoutTrivia member)) part
      have each (only : Only (fun label => label.isPart) (production rule)) :
          ∀ child ∈ withoutTrivia parts, ∃ s, child.lower = .ok (some s) := fun child member =>
        below member (only _ fits child member)
      have lowered (only : Only (fun label => label.isPart) (production rule)) :
          ∃ ps, lowerChildren none parts = .ok ps := by
        refine lowerChildren_ok (fun child member => ?_) none
        by_cases trivia : child.isTrivia
        · exact ⟨_, (tidy child member).lower_trivia trivia⟩
        · obtain ⟨s, hs⟩ := each only child (List.mem_filter.mpr ⟨member, by simpa using trivia⟩)
          exact ⟨some s, hs⟩
      have composite (notCall : rule ≠ .functionInvoke ∧ rule ≠ .methodInvoke ∧ rule ≠ .primary)
          {kind : CompositeKind} (h : (ofRule rule parts).composite? = some kind) :
          ∃ s, (ofRule rule parts).lower = .ok (some s) := by
        obtain ⟨ps, hps⟩ := lowered (only_parts part notCall)
        exact ⟨.composite kind (ps.map Prod.snd), by
          rw [lower_of_composite h]
          simp only [ofRule, hps]
          rfl⟩
      cases rule with
      | typeRef => exact ⟨_, rfl⟩
      | primary => exact ⟨_, rfl⟩
      | functionInvoke =>
          obtain ⟨call, hcall⟩ := @functionCall_ok (ofRule .functionInvoke parts) fits
          exact ⟨.call call, by rw [ofRule, lower, ← ofRule, hcall]; rfl⟩
      | methodInvoke =>
          obtain ⟨call, hcall⟩ := @methodCall_ok (ofRule .methodInvoke parts) fits
          exact ⟨.call call, by rw [ofRule, lower, ← ofRule, hcall]; rfl⟩
      | binaryOp | assignmentOperator =>
          obtain ⟨only, whole, -⟩ := id fits
          obtain ⟨s, hs⟩ := each (only_parts part (by simp)) only (by rw [whole]; simp)
          exact ⟨s, by rw [ofRule, lower, ← ofRule, lowerOnly_eq _ whole, hs]⟩
      | forCondition | forIterable =>
          obtain ⟨only, whole, -⟩ := id fits
          obtain ⟨s, hs⟩ := each (only_parts part (by simp)) only (by rw [whole]; simp)
          exact ⟨s, by rw [ofRule, lower, ← ofRule, lowerOnly_eq _ whole, hs]; rfl⟩
      | forStatement =>
          have only := only_parts part (by simp)
          obtain ⟨ps, hps⟩ := lowered only
          obtain ⟨s, hs⟩ := loopOf_ok fits (flanked (by simp)).2 (each only) hps _
          exact ⟨s, by rw [lower_loop, hps, Except.bind, hs]; rfl⟩
      | _ => first | exact absurd part Bool.false_ne_true | exact composite (by simp) rfl

/-! ## Statements and blocks -/

/-- A statement among other nodes is lowered as it is on its own. -/
theorem lower_of_isStatement {t : Tree} (h : t.label.isStatement) :
    t.lower = t.lowerStatement.map some := by
  obtain ⟨label, span, children, text⟩ := t
  cases label with
  | token kind => simp [Label.isStatement] at h
  | rule rule =>
      cases rule <;> simp [Label.isStatement, Rule.isStatement] at h
      all_goals
        cases lowered : lowerChildren none children <;>
          simp [lower, lowerStatement, lowerAll, lowerLoop, lowered, bind, Except.bind, Except.map,
            CompositeKind.ofStatement?]

theorem Tidy.lowerStatement_ok {t : Tree} (h : t.Tidy) (met : shape.Met t)
    (isStatement : t.label.isStatement) : ∃ s, t.lowerStatement = .ok s := by
  obtain ⟨s, hs⟩ := h.lower_ok met (isPart_of_isStatement isStatement)
  rw [lower_of_isStatement isStatement] at hs
  cases lowered : t.lowerStatement with
  | error e => simp [lowered, Except.map] at hs
  | ok s => exact ⟨s, rfl⟩

/-- The statements of a block, in order, are its nodes that are not tokens. -/
theorem isStatement_of_mem_block {parts : List Tree}
    (fits : withoutTrivia parts ∈ production .block) {t : Tree} (member : t ∈ parts)
    (notToken : t.isToken = false) : t.label.isStatement := by
  have notTrivia : t.isTrivia = false := by
    unfold isToken at notToken
    cases h : t.tokenKind? <;> simp_all [isTrivia]
  have only : Only (fun label => label.tokenKind?.isSome ∨ label.isStatement)
      (production .block) := by
    refine Grammar.only_mul (Grammar.only_mul (Grammar.only_tok ?_) (Grammar.only_kstar
      (Grammar.only_stmt fun label h => .inr h))) (Grammar.only_tok ?_)
    · exact .inl rfl
    · exact .inl rfl
  have either := only _ fits t (List.mem_filter.mpr ⟨member, by simp [notTrivia]⟩)
  rcases either with token | statement
  · simp [isToken, tokenKind?, token] at notToken
  · exact statement

theorem lowerStatements_ok {ts : List Tree} (h : ∀ t ∈ ts, ∃ s, t.lowerStatement = .ok s) :
    ∃ body, lowerStatements ts = .ok body := by
  induction ts with
  | nil => exact ⟨[], rfl⟩
  | cons t ts ih =>
      simp only [List.forall_mem_cons] at h
      obtain ⟨s, hs⟩ := h.1
      obtain ⟨body, hbody⟩ := ih h.2
      refine ⟨s :: body, ?_⟩
      rw [lowerStatements, List.mapM_cons, hs, ← lowerStatements, hbody]
      rfl

/-- A block that was read is a list of statements. -/
theorem Tidy.lowerBlock_ok {parts : List Tree} (h : (ofRule .block parts).Tidy)
    (met : shape.Met (ofRule .block parts)) :
    ∃ body, (ofRule .block parts).lowerBlock = .ok body := by
  obtain ⟨fits, metParts⟩ := Grammar.Contract.met_ofRule.mp met
  have each : ∀ t ∈ parts.filter fun child => !child.isToken, ∃ s, t.lowerStatement = .ok s := by
    intro t member
    obtain ⟨inParts, notToken⟩ := List.mem_filter.mp member
    refine ((tidy_ofRule.mp h).1 t inParts).lowerStatement_ok (metParts t inParts) ?_
    exact isStatement_of_mem_block fits inParts (by simpa using notToken)
  exact lowerStatements_ok each

end Tree

end QuestScript
