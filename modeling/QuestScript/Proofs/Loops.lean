/-
# QuestScript.Proofs.Loops -- the clauses of a loop

A lowered loop says by places among its children which of them are its clauses.  Lowering leaves
children out on the way (back quotes, and trivia behind words that bring their own blank), so a
place is not the place of the node it came from.  Still:

* whatever the node, a loop that is lowered at all is lowered with places that are there; it goes
  over elements if and only if the node has both clauses for it, and each of its accessors gives
  what the first child of the accessor's rule is lowered to (`Tree.Steers`);
* in a script in order the places go up as the clauses do, and the body is the statement behind the
  parenthesis and no clause, neither by its place nor by what it is (`Tree.Advances`).

`Tree.lowerLoop_steers` is both.
-/
import QuestScript.Proofs.Rendered
import QuestScript.Proofs.ScriptNodes

namespace QuestScript

open Grammar (shape production Only mem_single mem_single_mul mem_opt)
open scoped Computability

set_option autoImplicit false

namespace LoopControl

/-- The loop goes over elements. -/
def isEach : LoopControl → Bool
  | .each _ _ => true
  | .classic _ _ _ => false

/-- The places of the clauses that there are, first to last. -/
def places : LoopControl → List Nat
  | .each binding iterable => [binding, iterable]
  | .classic init condition update => init.toList ++ (condition.toList ++ update.toList)

end LoopControl

namespace Statement

def isSemicolon : Statement → Bool
  | .token .semi _ => true
  | _ => false

/-- The statement may stand in a body by itself: it holds a semicolon, or needs none. -/
def standsAlone : Statement → Bool
  | .composite .block _ | .composite .ifElse _ | .composite .whileLoop _ | .forLoop _ _ => true
  | .composite .variables cs | .composite .expression cs | .composite .returning cs =>
      cs.any isSemicolon
  | _ => false

end Statement

/-- Whose turn it is in the head of a loop: its clauses come in this order. -/
def Label.turn? : Label → Option Nat
  | .rule .forInit | .rule .forEachBinding => some 0
  | .rule .forCondition | .rule .forIterable => some 1
  | .rule .forUpdate => some 2
  | _ => none

/-- Two clauses stand in their order, if both are clauses. -/
def Label.InTurn (a b : Label) : Prop := ∀ i ∈ a.turn?, ∀ j ∈ b.turn?, i < j

namespace Tree

variable {loop : Tree} {children : List Tree} {previous : Option TokenKind} {parts : List Sourced}
  {control : LoopControl} {rule : Rule}

/-! ## Clauses and their places -/

theorem composite_of_lower {t : Tree} {kind : CompositeKind} (h : t.composite? = some kind)
    {r : Option Statement} (lowered : t.lower = .ok r) :
    ∃ parts, lowerChildren none t.children = .ok parts ∧
      r = some (.composite kind (parts.map Prod.snd)) := by
  rw [lower_of_composite h] at lowered
  obtain ⟨parts, inner, same⟩ := map_eq_ok.mp lowered
  exact ⟨parts, inner, same.symm⟩

/-- A clause that holds one expression gives way to it, and to nothing is no clause. -/
theorem lowerOnly_of_lower {t : Tree}
    (wraps : t.label = .rule .forCondition ∨ t.label = .rule .forIterable) {r : Option Statement}
    (lowered : t.lower = .ok r) : ∃ s, r = some s ∧ lowerOnly t t.children = .ok (some s) := by
  obtain ⟨label, span, children, text⟩ := t
  rcases wraps with rfl | rfl
  all_goals
    rw [lower] at lowered
    revert lowered
    cases lowerOnly _ children with
    | error e => simp [bind, Except.bind]
    | ok inner => cases inner <;> simp [bind, Except.bind, eq_comm]

/-- A clause never becomes nothing. -/
theorem isSome_of_lower_clause {t : Tree} (clause : t.label.turn?.isSome) {r : Option Statement}
    (lowered : t.lower = .ok r) : ∃ s, r = some s := by
  have wrapped (wraps : t.label = .rule .forCondition ∨ t.label = .rule .forIterable) :
      ∃ s, r = some s := by
    obtain ⟨s, rfl, -⟩ := lowerOnly_of_lower wraps lowered
    exact ⟨s, rfl⟩
  have composite {kind : CompositeKind} (h : t.composite? = some kind) : ∃ s, r = some s := by
    obtain ⟨parts, -, rfl⟩ := composite_of_lower h lowered
    exact ⟨_, rfl⟩
  obtain ⟨label, span, children, text⟩ := t
  cases label with
  | token kind => simp [Label.turn?] at clause
  | rule rule =>
      cases rule <;> simp only [Label.turn?, Option.isSome_none, Bool.false_eq_true] at clause
      case forInit | forUpdate | forEachBinding => exact composite rfl
      case forCondition => exact wrapped (.inl rfl)
      case forIterable => exact wrapped (.inr rfl)

/-- The first part that came from a clause is what the first child of its rule is lowered to. -/
theorem lowerChildren_find? (clause : (Label.rule rule).turn?.isSome)
    (h : lowerChildren previous children = .ok parts) :
    Option.Rel (fun child part => child.lower = .ok (some part.2))
      (children.find? fun child => child.label = .rule rule)
      (parts.find? fun part => part.1 = .rule rule) := by
  induction children generalizing previous parts with
  | nil =>
      obtain rfl : [] = parts := by simpa [lowerChildren] using h
      exact .none
  | cons child rest ih =>
      rw [lowerChildren_cons] at h
      split at h
      · rename_i dropped
        have other : child.label ≠ .rule rule := by
          intro label
          simp [isDropped, isTrivia, tokenKind?, label, Label.tokenKind?] at dropped
        rw [List.find?_cons_of_neg (by simpa using other)]
        exact ih h
      · obtain ⟨first, others, hfirst, hothers, rfl⟩ := h
        by_cases mine : child.label = .rule rule
        · obtain ⟨s, rfl⟩ := isSome_of_lower_clause (by rwa [mine]) hfirst
          rw [List.find?_cons_of_pos (by simpa using mine), partOf]
          simpa [mine] using Option.Rel.some hfirst
        · have skipped : (partOf child first ++ others).find? (fun part => part.1 = .rule rule) =
              others.find? fun part => part.1 = .rule rule := by
            cases first <;> simp [partOf, mine]
          rw [List.find?_cons_of_neg (by simpa using mine), skipped]
          exact ih hothers

/-- A slot holds what the first child of a rule is lowered to, or nothing without such a child. -/
def Fills (loop : Tree) (rule : Rule) (slot : Option Statement) : Prop :=
  Option.Rel (fun child s => child.lower = .ok (some s)) (loop.findRule? rule) slot

theorem fills_placeOf? (clause : (Label.rule rule).turn?.isSome)
    (h : lowerChildren none loop.children = .ok parts) :
    loop.Fills rule ((placeOf? rule parts).bind ((parts.map Prod.snd)[·]?)) := by
  have value : (placeOf? rule parts).bind ((parts.map Prod.snd)[·]?) =
      (parts.find? fun part => part.1 = .rule rule).map Prod.snd := by
    rw [List.find?_eq_bind_findIdx?_getElem?, placeOf?]
    cases parts.findIdx? fun part => part.1 = .rule rule <;> simp
  have first := lowerChildren_find? clause h
  rw [value, Fills, findRule?, find?]
  revert first
  cases loop.children.find? _ <;> cases parts.find? _ <;> simp

theorem isSome_placeOf? (clause : (Label.rule rule).turn?.isSome)
    (h : lowerChildren none loop.children = .ok parts) :
    (placeOf? rule parts).isSome = (loop.findRule? rule).isSome := by
  have found : (placeOf? rule parts).isSome =
      (parts.find? fun part => part.1 = .rule rule).isSome := by
    rw [Bool.eq_iff_iff, placeOf?, List.findIdx?_isSome, List.find?_isSome, List.any_eq_true]
  have first := lowerChildren_find? clause h
  rw [found, findRule?, find?]
  revert first
  cases loop.children.find? _ <;> cases parts.find? _ <;> simp

theorem placeOf?_eq_some {place : Nat} (h : placeOf? rule parts = some place) :
    ∃ inside : place < parts.length, parts[place].1 = .rule rule := by
  obtain ⟨inside, label, -⟩ := List.findIdx?_eq_some_iff_getElem.mp h
  exact ⟨inside, by simpa using label⟩

theorem loopControl_eq_ok : loopControl loop parts = .ok control ↔
    (∃ binding iterable, placeOf? .forEachBinding parts = some binding ∧
      placeOf? .forIterable parts = some iterable ∧ control = .each binding iterable) ∨
    (placeOf? .forEachBinding parts = none ∧ placeOf? .forIterable parts = none ∧
      control = .classic (placeOf? .forInit parts) (placeOf? .forCondition parts)
        (placeOf? .forUpdate parts)) := by
  rw [loopControl]
  cases placeOf? .forEachBinding parts <;> cases placeOf? .forIterable parts <;>
    simp [eq_comm]

/-- Every place of a loop is the place of a clause. -/
theorem mem_places (h : loopControl loop parts = .ok control) {place : Nat}
    (member : place ∈ control.places) :
    ∃ rule, (Label.rule rule).turn?.isSome ∧ placeOf? rule parts = some place := by
  rcases loopControl_eq_ok.mp h with ⟨binding, iterable, hb, hi, rfl⟩ | ⟨-, -, rfl⟩
  · simp only [LoopControl.places, List.mem_cons, List.not_mem_nil, or_false] at member
    rcases member with rfl | rfl
    · exact ⟨_, rfl, hb⟩
    · exact ⟨_, rfl, hi⟩
  · simp only [LoopControl.places, List.mem_append, Option.mem_toList] at member
    rcases member with init | condition | update
    · exact ⟨_, rfl, init⟩
    · exact ⟨_, rfl, condition⟩
    · exact ⟨_, rfl, update⟩

/-- What a lowered loop has to do with the children of the node that it came from. -/
structure Steers (loop : Tree) (l : ForLoop) : Prop where
  within : ∀ place ∈ l.control.places, place < l.children.length
  form : l.control.isEach ↔
    (loop.findRule? .forEachBinding).isSome ∧ (loop.findRule? .forIterable).isSome
  each : l.control.isEach →
    loop.Fills .forEachBinding l.binding? ∧ loop.Fills .forIterable l.iterable?
  classic : l.control.isEach = false →
    loop.findRule? .forEachBinding = none ∧ loop.findRule? .forIterable = none ∧
      loop.Fills .forInit l.init? ∧ loop.Fills .forCondition l.condition? ∧
        loop.Fills .forUpdate l.update?

theorem steers_of_lowered (lowered : lowerChildren none loop.children = .ok parts)
    (h : loopControl loop parts = .ok control) : loop.Steers ⟨parts.map Prod.snd, control⟩ := by
  have within : ∀ place ∈ control.places, place < (parts.map Prod.snd).length := by
    intro place member
    obtain ⟨rule, -, found⟩ := mem_places h member
    obtain ⟨inside, -⟩ := placeOf?_eq_some found
    simpa using inside
  have binding := @isSome_placeOf? _ _ .forEachBinding rfl lowered
  have iterable := @isSome_placeOf? _ _ .forIterable rfl lowered
  rcases loopControl_eq_ok.mp h with ⟨b, i, hb, hi, rfl⟩ | ⟨hb, hi, rfl⟩
  · have fillsBinding := @fills_placeOf? _ _ .forEachBinding rfl lowered
    have fillsIterable := @fills_placeOf? _ _ .forIterable rfl lowered
    rw [hb] at binding fillsBinding
    rw [hi] at iterable fillsIterable
    exact ⟨within, by simp [LoopControl.isEach, ← binding, ← iterable],
      fun _ => ⟨fillsBinding, fillsIterable⟩, fun classic => absurd classic Bool.noConfusion⟩
  · rw [hb] at binding
    rw [hi] at iterable
    exact ⟨within, by simp [LoopControl.isEach, ← binding], fun each => absurd each Bool.noConfusion,
      fun _ => ⟨by simpa using binding.symm, by simpa using iterable.symm,
        fills_placeOf? rfl lowered, fills_placeOf? rfl lowered, fills_placeOf? rfl lowered⟩⟩

theorem lowerLoop_eq_ok {s : Statement} : loop.lowerLoop = .ok s ↔
    ∃ parts control last, lowerChildren none loop.children = .ok parts ∧
      loopControl loop parts = .ok control ∧ parts.getLast? = some last ∧
        last.2.kind ≠ .token ∧ s = .forLoop (parts.map Prod.snd) control := by
  rw [lowerLoop]
  cases lowerChildren none loop.children with
  | error e => simp [bind, Except.bind]
  | ok parts => simpa [bind, Except.bind] using loopOf_eq_ok

/-! ## The order of clauses -/

theorem places_ascending (turns : (parts.map Prod.fst).Pairwise Label.InTurn)
    (h : loopControl loop parts = .ok control) : control.places.Pairwise (· < ·) := by
  -- Of two clauses the one whose turn it is first has the smaller place.
  have ascends {a b : Rule} {p q i j : Nat} (ha : placeOf? a parts = some p)
      (hb : placeOf? b parts = some q) (ta : (Label.rule a).turn? = some i)
      (tb : (Label.rule b).turn? = some j) (le : i < j) : p < q := by
    obtain ⟨insideP, labelP⟩ := placeOf?_eq_some ha
    obtain ⟨insideQ, labelQ⟩ := placeOf?_eq_some hb
    rcases lt_trichotomy p q with less | rfl | more
    · exact less
    · obtain rfl : a = b := by simpa using labelP.symm.trans labelQ
      exact absurd (Option.some.inj (ta.symm.trans tb)) le.ne
    · have other := List.pairwise_iff_getElem.mp turns q p (by simpa) (by simpa) more
      simp only [List.getElem_map, labelP, labelQ] at other
      exact absurd (other j tb i ta) le.not_gt
  rcases loopControl_eq_ok.mp h with ⟨binding, iterable, hb, hi, rfl⟩ | ⟨-, -, rfl⟩
  · simpa [LoopControl.places] using ascends hb hi rfl rfl Nat.zero_lt_one
  · have one (o : Option Nat) : o.toList.Pairwise (· < ·) := by cases o <;> simp
    simp only [LoopControl.places, List.pairwise_append, one, List.mem_append, Option.mem_toList,
      true_and]
    refine ⟨fun q hq r hr => ascends hq hr rfl rfl (by decide), fun p hp q hq => ?_⟩
    rcases hq with hq | hq
    · exact ascends hp hq rfl rfl (by decide)
    · exact ascends hp hq rfl rfl (by decide)

/-- The clauses in the words of the language stand in order, and it is their turn from one moment
until another. -/
def TakesTurns (first last : Nat) (L : Language Tree) : Prop :=
  ∀ nodes ∈ L, (nodes.map label).Pairwise Label.InTurn ∧
    ∀ t ∈ nodes, ∀ i ∈ t.label.turn?, first ≤ i ∧ i < last

section TakesTurns

variable {K L : Language Tree} {first middle last : Nat}

theorem takesTurns_idle (h : Only (fun label => label.turn? = none) L) : TakesTurns first last L := by
  intro nodes member
  have idle := h nodes member
  refine ⟨List.pairwise_map.mpr (List.pairwise_of_forall_mem_list fun t ht _ _ i hi => ?_),
    fun t ht i hi => ?_⟩
  · simp [idle t ht] at hi
  · simp [idle t ht] at hi

theorem takesTurns_mul (hK : TakesTurns first middle K) (hL : TakesTurns middle last L)
    (le : first ≤ middle) (le' : middle ≤ last) : TakesTurns first last (K * L) := by
  rintro _ ⟨k, inK, l, inL, rfl⟩
  obtain ⟨inOrder, turns⟩ := hK k inK
  obtain ⟨inOrder', turns'⟩ := hL l inL
  refine ⟨?_, fun t member i hi => ?_⟩
  · rw [List.map_append, List.pairwise_append]
    refine ⟨inOrder, inOrder', ?_⟩
    simp only [List.mem_map]
    rintro _ ⟨t, ht, rfl⟩ _ ⟨u, hu, rfl⟩ i hi j hj
    exact (turns t ht i hi).2.trans_le (turns' u hu j hj).1
  · rcases List.mem_append.mp member with before | behind
    · exact ⟨(turns t before i hi).1, (turns t before i hi).2.trans_le le'⟩
    · exact ⟨le.trans (turns' t behind i hi).1, (turns' t behind i hi).2⟩

theorem takesTurns_add (hK : TakesTurns first last K) (hL : TakesTurns first last L) :
    TakesTurns first last (K + L) :=
  fun nodes member => member.elim (hK nodes) (hL nodes)

theorem takesTurns_nodeOf {rule : Rule} {turn : Nat} (h : (Label.rule rule).turn? = some turn)
    (le : first ≤ turn) (lt : turn < last) : TakesTurns first last (Grammar.nodeOf rule) := by
  rintro _ ⟨t, rfl, label⟩
  simp [label, h, le, lt]

theorem takesTurns_opt (hL : TakesTurns first last L) : TakesTurns first last (Grammar.opt L) :=
  takesTurns_add (takesTurns_idle Grammar.only_one) hL

end TakesTurns

/-- The clauses of a loop that was read stand in order. -/
theorem production_takesTurns : TakesTurns 0 3 (production .forStatement) := by
  have tok {n : Nat} (kind : TokenKind) : TakesTurns n n (Grammar.tok kind) :=
    takesTurns_idle (Grammar.only_tok rfl)
  have stmt : TakesTurns 3 3 Grammar.stmt := takesTurns_idle (Grammar.only_stmt fun label h => by
    cases label with
    | token kind => rfl
    | rule rule => cases rule <;> first | rfl | simp [Label.isStatement, Rule.isStatement] at h)
  have binding : TakesTurns 0 1 (Grammar.nodeOf .forEachBinding) :=
    takesTurns_nodeOf rfl (by decide) (by decide)
  have iterable : TakesTurns 1 3 (Grammar.nodeOf .forIterable) :=
    takesTurns_nodeOf rfl (by decide) (by decide)
  have init : TakesTurns 0 1 (Grammar.opt (Grammar.nodeOf .forInit)) :=
    takesTurns_opt (takesTurns_nodeOf rfl (by decide) (by decide))
  have condition : TakesTurns 1 2 (Grammar.opt (Grammar.nodeOf .forCondition)) :=
    takesTurns_opt (takesTurns_nodeOf rfl (by decide) (by decide))
  have update : TakesTurns 2 3 (Grammar.opt (Grammar.nodeOf .forUpdate)) :=
    takesTurns_opt (takesTurns_nodeOf rfl (by decide) (by decide))
  have each := takesTurns_mul (takesTurns_mul binding (tok .colon) (by decide) le_rfl) iterable
    (by decide) (by decide)
  have classic := takesTurns_mul (takesTurns_mul (takesTurns_mul (takesTurns_mul init (tok .semi)
    (by decide) le_rfl) condition (by decide) (by decide)) (tok .semi) (by decide) le_rfl) update
    (by decide) (by decide)
  have opening := takesTurns_mul (tok (n := 0) .kwFor) (tok .lParen) le_rfl le_rfl
  exact takesTurns_mul (takesTurns_mul (takesTurns_mul opening (takesTurns_add each classic) le_rfl
    (by decide)) (tok .rParen) (by decide) le_rfl) stmt (by decide) le_rfl

/-! ## Clauses and bodies -/

theorem lower_of_token {t : Tree} {kind : TokenKind} (label : t.label = .token kind)
    {s : Statement} (lowered : t.lower = .ok (some s)) : ∃ text, s = .token kind text := by
  obtain ⟨_, span, children, text⟩ := t
  subst label
  cases kind <;> simp only [lower, Except.ok.injEq, Option.some.injEq, reduceCtorEq] at lowered <;>
    exact ⟨_, lowered.symm⟩

/-- What an expression is lowered to neither stands alone nor is a semicolon. -/
theorem lower_of_isExpression {t : Tree} (isExpression : t.label.isExpression) {s : Statement}
    (lowered : t.lower = .ok (some s)) : s.standsAlone = false ∧ s.isSemicolon = false := by
  have composite {kind : CompositeKind} (h : t.composite? = some kind)
      (apart : ∀ cs, (Statement.composite kind cs).standsAlone = false) :
      s.standsAlone = false ∧ s.isSemicolon = false := by
    obtain ⟨parts, -, same⟩ := composite_of_lower h lowered
    obtain rfl := Option.some.inj same
    exact ⟨apart _, rfl⟩
  obtain ⟨label, span, children, text⟩ := t
  cases label with
  | token kind => simp [Label.isExpression] at isExpression
  | rule rule =>
      cases rule <;> simp only [Label.isExpression, Rule.isExpression, Bool.false_eq_true]
        at isExpression
      case primary =>
        obtain rfl := Option.some.inj (Except.ok.inj lowered)
        exact ⟨rfl, rfl⟩
      case functionInvoke | methodInvoke =>
        rw [lower] at lowered
        obtain ⟨call, -, same⟩ := map_eq_ok.mp lowered
        obtain rfl := Option.some.inj same
        exact ⟨rfl, rfl⟩
      all_goals exact composite rfl fun _ => rfl

/-- What stands in a clause that becomes a list: expressions, types and other tokens than `;`. -/
def mayStandInClause : Label → Prop
  | .token kind => kind ≠ .semi
  | .rule rule => rule = .typeRef ∨ rule.isExpression

theorem not_isSemicolon_of_mayStandInClause {t : Tree} (stands : mayStandInClause t.label)
    {s : Statement} (lowered : t.lower = .ok (some s)) : s.isSemicolon = false := by
  cases label : t.label with
  | token kind =>
      obtain ⟨text, rfl⟩ := lower_of_token label lowered
      rw [label] at stands
      cases kind <;> first | rfl | exact absurd rfl stands
  | rule rule =>
      rw [label] at stands
      rcases stands with rfl | isExpression
      · obtain ⟨_, span, children, text⟩ := t
        subst label
        obtain rfl := Option.some.inj (Except.ok.inj lowered)
        rfl
      · exact (lower_of_isExpression (by rw [label]; exact isExpression) lowered).2

theorem only_mayStandInClause (list : rule = .forInit ∨ rule = .forUpdate ∨ rule = .forEachBinding) :
    Only mayStandInClause (production rule) := by
  have expr : Only mayStandInClause Grammar.expr := Grammar.only_expr fun label h => by
    cases label with
    | token kind => simp [Label.isExpression] at h
    | rule rule => exact .inr h
  have tok {kind : TokenKind} (h : kind ≠ .semi) : Only mayStandInClause (Grammar.tok kind) :=
    Grammar.only_tok h
  have typeRef : Only mayStandInClause (Grammar.nodeOf .typeRef) := Grammar.only_nodeOf (.inl rfl)
  have separated {L : Language Tree} (h : Only mayStandInClause L) :
      Only mayStandInClause (Grammar.separated L) :=
    Grammar.only_mul h (Grammar.only_kstar (Grammar.only_mul (tok (by decide)) h))
  have oneVariable : Only mayStandInClause Grammar.oneVariable :=
    Grammar.only_mul (tok (by decide)) (Grammar.only_opt (Grammar.only_mul (tok (by decide)) expr))
  rcases list with rfl | rfl | rfl
  · exact Grammar.only_add (Grammar.only_mul typeRef (separated oneVariable)) (separated expr)
  · exact separated expr
  · exact Grammar.only_mul typeRef (tok (by decide))

/-- A clause that becomes a list becomes one without a semicolon. -/
theorem not_standsAlone_of_list {nodes : List Tree}
    (list : rule = .forInit ∨ rule = .forUpdate ∨ rule = .forEachBinding)
    (fits : withoutTrivia nodes ∈ production rule) {kind : CompositeKind}
    (composite : (ofRule rule nodes).composite? = some kind)
    (isList : kind = .variables ∨ kind = .expression) {s : Statement}
    (lowered : (ofRule rule nodes).lower = .ok (some s)) : s.standsAlone = false := by
  obtain ⟨parts, inner, same⟩ := composite_of_lower composite lowered
  obtain rfl := Option.some.inj same
  have noSemicolon : (parts.map Prod.snd).any Statement.isSemicolon = false := by
    rw [List.any_eq_false, List.forall_mem_map]
    intro part member
    obtain ⟨child, inNodes, -, becomes⟩ := lowerChildren_sound inner part member
    have stands : mayStandInClause child.label := by
      by_cases trivia : child.isTrivia
      · rw [label_of_isTrivia trivia]
        exact TokenKind.noConfusion
      · exact only_mayStandInClause list _ fits child
          (List.mem_filter.mpr ⟨inNodes, by simpa using trivia⟩)
    simp [not_isSemicolon_of_mayStandInClause stands becomes]
  rcases isList with rfl | rfl <;> exact noSemicolon

/-- No clause of a loop that was read stands alone. -/
theorem not_standsAlone_of_clause {t : Tree} (tidy : t.Tidy) (met : shape.Met t)
    (clause : t.label.turn?.isSome) {s : Statement} (lowered : t.lower = .ok (some s)) :
    s.standsAlone = false := by
  cases tidy with
  | leaf tok => simp [leaf, Label.turn?] at clause
  | node rule nodes =>
      obtain ⟨fits, -⟩ := Grammar.Contract.met_ofRule.mp met
      have ofOne (wraps : rule = .forCondition ∨ rule = .forIterable)
          (one : production rule = Grammar.expr) : s.standsAlone = false := by
        obtain ⟨only, whole, isExpression⟩ : withoutTrivia nodes ∈ Grammar.expr := one ▸ fits
        obtain ⟨_, same, inner⟩ := lowerOnly_of_lower
          (wraps.imp (congrArg Label.rule) (congrArg Label.rule)) lowered
        obtain rfl := Option.some.inj same
        rw [ofRule, lowerOnly_eq _ whole] at inner
        exact (lower_of_isExpression isExpression inner).1
      cases rule <;> simp only [ofRule, Label.turn?, Option.isSome_none, Bool.false_eq_true]
        at clause
      case forInit =>
        refine not_standsAlone_of_list (.inl rfl) fits rfl ?_ lowered
        split
        · exact .inl rfl
        · exact .inr rfl
      case forUpdate =>
        exact not_standsAlone_of_list (.inr (.inl rfl)) fits rfl (.inr rfl) lowered
      case forEachBinding =>
        exact not_standsAlone_of_list (.inr (.inr rfl)) fits rfl (.inl rfl) lowered
      case forCondition => exact ofOne (.inl rfl) rfl
      case forIterable => exact ofOne (.inr rfl) rfl

/-- Nodes that end in a semicolon leave one among the parts. -/
theorem any_isSemicolon_of_ended {nodes : List Tree} {L : Language Tree}
    (ended : withoutTrivia nodes ∈ L * Grammar.tok .semi)
    (inner : lowerChildren none nodes = .ok parts) :
    (parts.map Prod.snd).any Statement.isSemicolon := by
  obtain ⟨before, -, _, ⟨semi, rfl, label⟩, split⟩ := ended
  have member : semi ∈ withoutTrivia nodes := by rw [← split]; simp
  have becomes : semi.lower = .ok (some (.token .semi (semi.text.getD ""))) := by
    obtain ⟨_, span, children, text⟩ := semi
    subst label
    rfl
  have part := lowerChildren_complete inner (mem_of_withoutTrivia member)
    (isTrivia_of_mem_withoutTrivia member) becomes
  exact List.any_eq_true.mpr ⟨_, List.mem_map_of_mem part, rfl⟩

/-- Every statement that was read stands alone. -/
theorem standsAlone_of_isStatement {t : Tree} (tidy : t.Tidy) (met : shape.Met t)
    (isStatement : t.label.isStatement) {s : Statement} (lowered : t.lower = .ok (some s)) :
    s.standsAlone := by
  cases tidy with
  | leaf tok => simp [leaf, Label.isStatement] at isStatement
  | node rule nodes =>
      obtain ⟨fits, -⟩ := Grammar.Contract.met_ofRule.mp met
      cases rule <;> simp only [ofRule, Label.isStatement, Rule.isStatement, Bool.false_eq_true]
        at isStatement
      case block | ifStatement | whileStatement =>
        obtain ⟨parts, -, same⟩ := composite_of_lower rfl lowered
        obtain rfl := Option.some.inj same
        rfl
      case variableStatement | expressionStatement | returnStatement =>
        obtain ⟨parts, inner, same⟩ := composite_of_lower rfl lowered
        obtain rfl := Option.some.inj same
        exact any_isSemicolon_of_ended fits inner
      case forStatement =>
        rw [lower_of_isStatement rfl] at lowered
        obtain ⟨_, loop, same⟩ := map_eq_ok.mp lowered
        obtain rfl := Option.some.inj same
        obtain ⟨parts, control, last, -, -, -, -, rfl⟩ := lowerLoop_eq_ok.mp loop
        rfl

/-- How the clauses and the body of a loop that was read stand among its children. -/
structure Advances (loop : Tree) (l : ForLoop) : Prop where
  ascending : l.control.places.Pairwise (· < ·)
  ahead : ∀ place ∈ l.control.places, place + 1 < l.children.length
  body : ∃ header paren gap last s,
    loop.children = header ++ paren :: (gap ++ [last]) ∧ paren.label = .token .rParen ∧
      (∀ t ∈ header, t.label ≠ .token .rParen) ∧ (∀ t ∈ gap, t.isTrivia) ∧
        last.label.isStatement ∧ last.lower = .ok (some s) ∧ l.body? = some s
  distinct : ∀ slot ∈ [l.init?, l.condition?, l.update?, l.binding?, l.iterable?], slot ≠ l.body?

/-- The children of a loop that was read, taken apart at its closing parenthesis. -/
theorem split_loop {nodes : List Tree} (closed : Closed nodes)
    (fits : withoutTrivia nodes ∈ production .forStatement) : ∃ header paren gap last,
      nodes = header ++ paren :: (gap ++ [last]) ∧ paren.label = .token .rParen ∧
        (∀ t ∈ header, t.label ≠ .token .rParen) ∧ (∀ t ∈ gap, t.isTrivia) ∧
          last.label.isStatement := by
  obtain ⟨_, ⟨head, inHead, _, ⟨paren, rfl, isParen⟩, rfl⟩, _, ⟨last, rfl, isStatement⟩, whole⟩ :=
    fits
  have only : Only (fun label => label ≠ .token .rParen)
      (Grammar.tok .kwFor * Grammar.tok .lParen * Grammar.clauses) := by
    unfold Grammar.clauses
    repeat' first
      | exact Grammar.only_one
      | apply Grammar.only_mul
      | apply Grammar.only_add
      | apply Grammar.only_opt
      | exact Grammar.only_tok (by decide)
      | exact Grammar.only_nodeOf (by decide)
  obtain ⟨rest, rfl, front⟩ := closed.eq_concat whole.symm
  obtain ⟨header, behind, rfl, rfl, ends⟩ := List.filter_eq_append_iff.mp front
  obtain ⟨gap, gap', rfl, trivia, nothing⟩ := split_significant ends
  have noParen : ∀ t ∈ header ++ gap, t.label ≠ .token .rParen := by
    intro t member label
    by_cases isTrivia : t.isTrivia
    · simp [label_of_isTrivia isTrivia] at label
    · rcases List.mem_append.mp member with inHeader | inGap
      · exact only _ inHead t (List.mem_filter.mpr ⟨inHeader, by simpa using isTrivia⟩) label
      · exact isTrivia (trivia t inGap)
  exact ⟨header ++ gap, paren, gap', last, by simp, isParen, noParen,
    by simpa [withoutTrivia] using nothing, isStatement⟩

theorem Fills.exists_child {s : Statement} (h : loop.Fills rule (some s)) :
    ∃ child ∈ loop.children, child.label = .rule rule ∧ child.lower = .ok (some s) := by
  rw [Fills] at h
  cases found : loop.findRule? rule with
  | none => simp [found] at h
  | some child =>
      exact ⟨child, List.mem_of_find?_eq_some found, by simpa using List.find?_some found,
        by simpa [found] using h⟩

/-- A slot is empty or holds what a clause is lowered to. -/
theorem Steers.slots {l : ForLoop} (h : loop.Steers l) :
    ∀ slot ∈ [l.init?, l.condition?, l.update?, l.binding?, l.iterable?],
      slot = none ∨ ∃ rule, (Label.rule rule).turn?.isSome ∧ loop.Fills rule slot := by
  obtain ⟨children, control⟩ := l
  simp only [List.forall_mem_cons, List.not_mem_nil, false_implies, implies_true, and_true]
  cases control with
  | each binding iterable =>
      obtain ⟨hb, hi⟩ := h.each rfl
      exact ⟨.inl rfl, .inl rfl, .inl rfl, .inr ⟨_, rfl, hb⟩, .inr ⟨_, rfl, hi⟩⟩
  | classic init condition update =>
      obtain ⟨-, -, hi, hc, hu⟩ := h.classic rfl
      exact ⟨.inr ⟨_, rfl, hi⟩, .inr ⟨_, rfl, hc⟩, .inr ⟨_, rfl, hu⟩, .inl rfl, .inl rfl⟩

theorem inTurn_of_lowered {nodes : List Tree}
    (fits : withoutTrivia nodes ∈ production .forStatement)
    (lowered : lowerChildren none nodes = .ok parts) :
    (parts.map Prod.fst).Pairwise Label.InTurn := by
  have inOrder := (production_takesTurns _ fits).1
  rw [withoutTrivia, List.pairwise_map, List.pairwise_filter] at inOrder
  refine List.Pairwise.sublist (lowerChildren_labels lowered) (List.pairwise_map.mpr ?_)
  refine inOrder.imp fun {t u} inTurn i hi j hj => ?_
  have significant {t : Tree} {i : Nat} (hi : i ∈ t.label.turn?) : (!t.isTrivia) = true := by
    rw [Bool.not_eq_true']
    by_contra trivia
    simp [label_of_isTrivia (by simpa using trivia), Label.turn?] at hi
  exact inTurn (significant hi) (significant hj) i hi j hj

/-- A clause stands before a last part that comes from a statement. -/
theorem place_before_last (h : loopControl loop parts = .ok control) {last : Sourced}
    (atLast : parts.getLast? = some last) (isStatement : last.1.isStatement) :
    ∀ place ∈ control.places, place + 1 < parts.length := by
  intro place member
  obtain ⟨rule, clause, found⟩ := mem_places h member
  obtain ⟨inside, label⟩ := placeOf?_eq_some found
  by_contra notBefore
  have same : place = parts.length - 1 := by omega
  rw [List.getLast?_eq_getElem?, ← same, List.getElem?_eq_getElem inside] at atLast
  rw [← Option.some.inj atLast, label] at isStatement
  cases rule <;> simp [Label.turn?, Label.isStatement, Rule.isStatement] at clause isStatement

theorem advances_of_lowered {nodes : List Tree} (tidy : (ofRule .forStatement nodes).Tidy)
    (met : shape.Met (ofRule .forStatement nodes))
    (lowered : lowerChildren none nodes = .ok parts)
    (h : loopControl (ofRule .forStatement nodes) parts = .ok control) :
    (ofRule .forStatement nodes).Advances ⟨parts.map Prod.snd, control⟩ := by
  obtain ⟨fits, metNodes⟩ := Grammar.Contract.met_ofRule.mp met
  obtain ⟨tidyNodes, flanked⟩ := tidy_ofRule.mp tidy
  obtain ⟨header, paren, gap, last, split, isParen, noParen, trivia, isStatement⟩ :=
    split_loop (flanked (by decide)).2 fits
  have lastIn : last ∈ nodes := by rw [split]; simp
  obtain ⟨s, becomes⟩ := (tidyNodes last lastIn).lower_ok (metNodes last lastIn)
    (isPart_of_isStatement isStatement)
  have atLast : parts.getLast? = some (last.label, s) := by
    have split' : nodes = header ++ paren :: gap ++ [last] := by simpa using split
    rw [split'] at lowered
    refine lowerChildren_last lowered ?_ becomes
    by_contra trivia
    simp [label_of_isTrivia (by simpa using trivia), Label.isStatement] at isStatement
  have body : (⟨parts.map Prod.snd, control⟩ : ForLoop).body? = some s := by
    simp [ForLoop.body?, List.getLast?_map, atLast]
  refine ⟨places_ascending (inTurn_of_lowered fits lowered) h,
    by simpa using place_before_last h atLast isStatement,
    ⟨header, paren, gap, last, s, split, isParen, noParen, trivia, isStatement, becomes, body⟩, ?_⟩
  -- The body stands alone, and what a clause is lowered to does not.
  have alone := standsAlone_of_isStatement (tidyNodes last lastIn) (metNodes last lastIn)
    isStatement becomes
  intro slot member same
  obtain rfl : slot = some s := same.trans body
  rcases (steers_of_lowered lowered h).slots _ member with nothing | ⟨rule, clause, fills⟩
  · cases nothing
  · obtain ⟨child, inNodes, label, becomes'⟩ := fills.exists_child
    rw [not_standsAlone_of_clause (tidyNodes child inNodes) (metNodes child inNodes)
      (by rwa [label]) becomes'] at alone
    exact absurd alone Bool.false_ne_true

/-- **The clauses of a loop are where it says.**  Any node that is lowered as a loop becomes a loop
whose places are there and whose accessors give what its first clauses are lowered to.  Every loop
in a script in order is lowered; its clauses keep their order, and its body is the statement behind
the parenthesis and none of them. -/
theorem lowerLoop_steers :
    (∀ (loop : Tree) (s : Statement), loop.lowerLoop = .ok s →
      ∃ l : ForLoop, s = .forLoop l.children l.control ∧ loop.Steers l) ∧
    ∀ (limit : Nat) (ts : List Token), (Parsed.ofTokens limit ts).isOk →
      ∀ loop ∈ (Parsed.ofTokens limit ts).root.nodes, loop.label = .rule .forStatement →
        ∃ l : ForLoop, loop.lowerLoop = .ok (.forLoop l.children l.control) ∧
          loop.Steers l ∧ loop.Advances l := by
  refine ⟨fun loop s lowered => ?_, fun limit ts ok loop member label => ?_⟩
  · obtain ⟨parts, control, last, inner, h, -, -, rfl⟩ := lowerLoop_eq_ok.mp lowered
    exact ⟨⟨parts.map Prod.snd, control⟩, rfl, steers_of_lowered inner h⟩
  · obtain ⟨tidy, -, met, -⟩ := Parsed.node_of_isOk ok member (by simp [label])
    obtain ⟨nodes, rfl⟩ := tidy.eq_ofRule label
    obtain ⟨s, lowered⟩ := tidy.lower_ok met rfl
    rw [lower_of_isStatement rfl] at lowered
    obtain ⟨_, whole, -⟩ := map_eq_ok.mp lowered
    obtain ⟨parts, control, last, inner, h, -, -, rfl⟩ := lowerLoop_eq_ok.mp whole
    exact ⟨⟨parts.map Prod.snd, control⟩, whole, steers_of_lowered inner h,
      advances_of_lowered tidy met inner h⟩

/-- A node that begins with its last clause, and the blank and the back quote before that are left
out; and a script with a loop over elements and a classic loop without its first clause. -/
theorem lowerLoop_steers_loops :
    let blank : Tree := .leaf ⟨.trivia, .zero, " "⟩
    let one : Tree := ofRule .primary [.leaf ⟨.number, .zero, "1"⟩]
    let made := ofRule .forStatement [.leaf ⟨.kwFor, .zero, "for"⟩, .leaf ⟨.comma, .zero, ","⟩, blank,
      .leaf ⟨.backquote, .zero, "`"⟩, ofRule .forUpdate [one], blank, ofRule .forCondition [one],
      ofRule .block []]
    let ts := Token.ofText
      "process p \x7b for ( T x : xs ) f ( x ) ; for ( ; i < n ; i ++ ) i = 0 ; \x7d".toList
    (∃ l : ForLoop, made.lowerLoop = .ok (.forLoop l.children l.control) ∧ made.Steers l ∧
      l.control = .classic none (some 4) (some 2)) ∧
    (Parsed.ofTokens 8 ts).isOk ∧
    (∃ loop ∈ (Parsed.ofTokens 8 ts).root.nodes, (loop.findRule? .forIterable).isSome ∧
      ∃ l : ForLoop, loop.lowerLoop = .ok (.forLoop l.children l.control) ∧
        loop.Steers l ∧ loop.Advances l) ∧
    ∃ loop ∈ (Parsed.ofTokens 8 ts).root.nodes, (loop.findRule? .forUpdate).isSome ∧
      ∃ l : ForLoop, loop.lowerLoop = .ok (.forLoop l.children l.control) ∧
        loop.Steers l ∧ loop.Advances l := by
  intro blank one made ts
  have ok : (Parsed.ofTokens 8 ts).isOk := by decide +kernel
  have each : ∃ loop ∈ (Parsed.ofTokens 8 ts).root.nodes, loop.label = .rule .forStatement ∧
      (loop.findRule? .forIterable).isSome := by decide +kernel
  have classic : ∃ loop ∈ (Parsed.ofTokens 8 ts).root.nodes, loop.label = .rule .forStatement ∧
      (loop.findRule? .forUpdate).isSome := by decide +kernel
  obtain ⟨l, whole, steers⟩ := lowerLoop_steers.1 made _ rfl
  obtain ⟨loop, member, label, has⟩ := each
  obtain ⟨loop', member', label', has'⟩ := classic
  refine ⟨⟨l, by rw [← whole]; rfl, steers, ?_⟩, ok,
    ⟨loop, member, has, lowerLoop_steers.2 8 ts ok loop member label⟩,
    loop', member', has', lowerLoop_steers.2 8 ts ok loop' member' label'⟩
  exact (Statement.forLoop.inj whole).2.symm

end Tree

end QuestScript
