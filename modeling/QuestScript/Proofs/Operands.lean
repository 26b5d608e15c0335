/-
# QuestScript.Proofs.Operands -- operands and what they hold are read back

Form by form, what the grammar reads below an expression is recognised: lists of
expressions, types, creators, primaries and suffixes, and the operators around operands.
-/
import QuestScript.Proofs.Recognition

namespace QuestScript.Grammar

open QuestScript.Tree (leaf ofRule tokensAll tokensAll_leaves withoutTrivia)
open scoped Computability

set_option autoImplicit false

namespace Form

variable {n : Nat} {L : Language Tree} {stop : List TokenKind → Prop}

/-! ## Operands and branches -/

theorem Takes.frame {body : Form} {t : Tree} {us : List Token}
    (read : body.readAt n [] (t.tokens ++ us) = .done [t] us []) :
    (Form.frame body).Takes n .empty [t] us := by
  intro frame
  rw [readAt_frame, show tokensAll [t] = t.tokens by simp [tokensAll], read]
  rfl

theorem recovers_frame {body : Form} {p : Tree → Prop} (isExpr : ∀ t, p t → t.label.isExpression)
    (reads : ∀ t, p t → Known t → size [t] < n → ∀ us, stop (kinds us) →
      body.readAt n [] (t.tokens ++ us) = .done [t] us []) :
    (Form.frame body).Recovers n p stop := by
  intro t holds ready us stops
  have node := isToken_of_isExpression (isExpr t holds)
  exact ⟨node, .frame (reads t holds (ready.known (isExpr t holds)) (ready.room node) us stops)⟩

/-- An entry is read a level deeper. -/
theorem recovers_enter {entry : Entry} {p : Tree → Prop} (isExpr : ∀ t, p t → t.label.isExpression)
    (reads : ∀ t, p t → Known t → ∀ m us, size [t] ≤ m → stop (kinds us) →
      entry.form.readAt m [] (t.tokens ++ us) = .done [t] us []) :
    (Form.frame (enter entry)).Recovers n p stop := by
  refine recovers_frame isExpr fun t holds known room us stops => ?_
  obtain ⟨m, rfl⟩ : ∃ m, n = m + 1 := ⟨n - 1, by omega⟩
  exact reads t holds known m us (by omega) stops

theorem recovers_operand :
    (Form.frame operand).Recovers n
      (fun t => t.label.isExpression ∧ Level.unary.rank ≤ t.level.rank) (Before .unary) :=
  recovers_frame (fun _ h => h.1) fun _ h known room us before =>
    known.operand h.2 n us room.le before

theorem recovers_branch :
    (Form.frame (enter .ternary)).Recovers n
      (fun t => t.label.isExpression ∧ Level.ternary.rank ≤ t.level.rank) (Before .ternary) :=
  recovers_enter (fun _ h => h.1) fun _ h known m us room before =>
    known.ternary h.2 m us room before

theorem recovers_expression :
    expression.Recovers n (fun t => t.label.isExpression) (Before .assignment) :=
  recovers_enter (fun _ h => h) fun _ _ known m us room before => known.assignment m us room before

/-- What binds more tightly than an operator is read back as its right operand. -/
theorem recovers_rightOperand (own : Precedence) :
    (Form.frame (rightOperand own)).Recovers n
      (fun t => t.label.isExpression ∧ (Level.binary own).rank < t.level.rank)
      (Before (.binary own)) := by
  refine recovers_frame (fun _ h => h.1) fun t h known room us before => ?_
  have behind : Before .unary (kinds us) := before.mono (by cases own <;> decide)
  cases tighter : own.tighter? with
  | none =>
      have tight : Level.unary.rank ≤ t.level.rank := by
        refine le_trans ?_ h.2
        cases own <;> first | decide | simp [Precedence.tighter?] at tighter
      rw [rightOperand, tighter]
      exact known.operand tight n us room.le behind
  | some q =>
      have rank := Precedence.rank_tighter? tighter
      have level : (Level.binary q).rank ≤ t.level.rank := by
        have above := h.2
        simp only [Level.rank] at above ⊢
        omega
      obtain ⟨k, -, read⟩ := known.chain (le_trans (by cases q <;> decide) level) q n us level
        room.le behind (before.mono h.2.le)
      rw [rightOperand, tighter]
      simp only
      rw [read, readAt_links]
      cases next : Precedence.ofKind? (nextKind us) with
      | none => rfl
      | some q' =>
          -- An operator may stand behind, but none that is as tight as the chain.
          have looser : (Level.binary q').rank ≤ (Level.binary own).rank := by
            rw [Before, ← nextKind_eq_kinds, mayPrecede_operator next] at before
            exact of_decide_eq_true before
          simp only [Level.rank] at looser
          simp only
          rw [if_neg (by omega)]

/-- A node over one token, which says which operator it is. -/
theorem recovers_operator {rule : Rule} {admits : TokenKind → Bool} {p : Tree → Prop}
    (isRule : ∀ t, p t → t.label = .rule rule)
    (fits : ∀ t, p t → Regular t → t.significant ∈ tokOf admits) :
    (Form.node rule (take admits)).Recovers n p anything := by
  intro t holds ready us _
  have member := fits t holds ready.regular
  obtain ⟨parts, rfl, regular, -, -, closed⟩ := ready.regular.eq_ofRule (isRule t holds)
  have tokens : ∀ part ∈ parts, Ready n part := by
    intro part inside
    refine ready_of_isToken (regular part inside) ?_
    by_cases trivia : part.isTrivia
    · exact Tree.isToken_of_isTrivia trivia
    · obtain ⟨s, only, k, label, -⟩ := id member
      have same : part ∈ (ofRule rule parts).significant :=
        List.mem_filter.mpr ⟨inside, by simpa using trivia⟩
      rw [only, List.mem_singleton] at same
      exact isToken_of_token (same ▸ label)
  have token : (take admits).Reaches n (tokOf admits) anything .empty := .token _ _
  exact ⟨rfl, .node (token parts member (capped_of_closed closed) tokens us trivial)⟩

theorem significant_of_operator {p : Precedence} {t : Tree} (h : t.operator? = some p) :
    t.significant ∈ tokOf p.admits := by
  unfold Tree.operator? at h
  split at h
  · rename_i leaf only
    obtain ⟨k, kind, same⟩ := Option.bind_eq_some_iff.mp h
    cases label : leaf.label with
    | rule r => simp [Tree.tokenKind?, label, Label.tokenKind?] at kind
    | token k' =>
        obtain rfl : k' = k := by simpa [Tree.tokenKind?, label, Label.tokenKind?] using kind
        exact ⟨leaf, only, k', label, by simp [Precedence.admits, same]⟩
  · simp at h

/-- An operator has its own kind as its word. -/
theorem word_of_operator {p : Precedence} {t : Tree} {rule : Rule} (label : t.label = .rule rule)
    (h : t.operator? = some p) : ∃ k, wordOf [t] = [k] ∧ Precedence.ofKind? k = some p := by
  obtain ⟨s, only, k, isToken, admitted⟩ := significant_of_operator h
  have same : Precedence.ofKind? k = some p := by simpa [Precedence.admits] using admitted
  refine ⟨k, ?_, same⟩
  rw [wordOf_rule label, only, wordOf_token isToken, if_neg]
  rintro trivia
  cases k <;> simp [TokenKind.isTrivia, Precedence.ofKind?] at trivia same

/-- An operator and its right operand behind the left one. -/
theorem reaches_link (least own : Precedence) :
    (link least own).Reaches n (operatorAt own * exprAbove (.binary own)) (Before (.binary own))
      (Form.close .binaryExpr >> links least) :=
  (recovers_operator (fun _ h => h.1) fun _ h _ => significant_of_operator h.2).afterTrivia
    ((recovers_rightOperand own).andThen _) leads_anything

/-- The branches of a conditional behind its condition. -/
theorem reaches_branches :
    (Form.one .question >> Form.trivia >> Form.frame (enter .ternary) >> Form.one .colon >>
      Form.trivia >> Form.frame (enter .ternary) >> Form.close .ternaryExpr).Reaches n
        (tok .question * (exprAt .ternary * (tok .colon * exprAt .ternary))) (Before .ternary)
        (Form.close .ternaryExpr) :=
  (Reaches.one .question).seq (recovers_branch.afterTrivia
    ((Reaches.one .colon).seq (recovers_branch.andThen _) leads_anything)
    (.mul (leads_tok rfl fun _ => by rfl))) leads_anything

/-- The operator and the value of an assignment behind its target. -/
theorem reaches_value :
    (Form.trivia >> Form.node .assignmentOperator (take TokenKind.isAssignment) >> Form.trivia >>
      expression >> Form.close .assignmentExpr).Reaches n (nodeOf .assignmentOperator * expr)
        (Before .assignment) (Form.close .assignmentExpr) := by
  have operator : (Form.node .assignmentOperator (take TokenKind.isAssignment)).Recovers n
      (fun t => t.label = .rule .assignmentOperator) anything :=
    recovers_operator (fun _ label => label) fun t label regular =>
      regular.fits t t.mem_nodes_self .assignmentOperator label
  exact operator.afterTrivia (recovers_expression.andThen _) leads_anything

/-! ## Lists of expressions -/

theorem recovers_arguments :
    arguments.Recovers n (fun t => t.label = .rule .arguments) anything :=
  fun _ label ready us _ => ⟨isToken_of_rule label,
    ready.arguments label n us (ready.room (isToken_of_rule label)).le⟩

theorem startsOperand_ne {k k' : TokenKind} (starts : startsOperand k)
    (differs : startsOperand k' = false) : (k == k') = false := by
  rw [beq_eq_false_iff_ne]
  rintro rfl
  simp [starts] at differs

/-- Expressions before a token that closes what they stand in. -/
theorem reaches_expressions {k : TokenKind} (closes : mayPrecede .assignment k)
    (notComma : (k == .comma) = false) :
    expressions.Reaches n (separated expr) (fun ks => ks.headD .eof = k) .empty := by
  refine .commaSeparated (by decide) recovers_expression.reaches (fun ks => by rfl)
    fun ks stop => ?_
  rw [Before, stop]
  exact ⟨closes, notComma⟩

/-- Expressions between two tokens, or nothing between them. -/
theorem reaches_between {a b : TokenKind} (closes : mayPrecede .assignment b)
    (notComma : (b == .comma) = false) (notOperand : startsOperand b = false)
    (plain : b.isTrivia = false) :
    (Form.one a >> Form.unlessNext (· == b) expressions >> Form.one b).Reaches n
      (tok a * opt (separated expr) * tok b) stop .empty := by
  rw [mul_assoc]
  refine (Reaches.one a).seq (.seq (.unlessNext (reaches_expressions closes notComma) ?_ ?_)
    (.one b) (leads_tok plain fun _ => rfl)) leads_anything
  · rintro ks rfl
    simp
  · exact .mul (leads_expr fun k ks starts => startsOperand_ne starts notOperand)

theorem reaches_arrayElements : arrayElements.Reaches n elements stop .empty :=
  reaches_between rfl rfl rfl rfl

/-- Lists of arguments are read back if the arguments are. -/
theorem arguments_takes {t : Tree} (regular : Regular t) (label : t.label = .rule .arguments)
    (ready : ∀ part ∈ t.children, Ready n part) (us : List Token) :
    arguments.Takes n empty [t] us := by
  obtain ⟨parts, rfl, -, fits, -, closed⟩ := regular.eq_ofRule label
  have between : (Form.one .lParen >> Form.unlessNext (· == .rParen) expressions >>
      Form.one .rParen).Reaches n (production .arguments) anything .empty :=
    reaches_between rfl rfl rfl rfl
  exact .node (between parts fits (capped_of_closed closed) ready us trivial)

theorem reaches_bracket :
    (Form.one .lBracket >> Form.unlessNext (· == .rBracket) (Form.trivia >> expression) >>
      Form.one .rBracket).Reaches n bracket stop .empty := by
  rw [bracket, mul_assoc]
  have inside : (Form.unlessNext (· == .rBracket) (Form.trivia >> expression)).Reaches n (opt expr)
      (fun ks => ks.headD .eof = .rBracket) .empty := by
    refine .unlessNext (recovers_expression.reaches.weaken fun ks close => ?_) (fun ks close => ?_)
      (leads_expr fun k ks starts => startsOperand_ne starts rfl)
    · rw [Before, close]
      rfl
    · rw [close]
      rfl
  exact (Reaches.one .lBracket).seq (inside.seq (.one .rBracket) (leads_tok rfl fun _ => rfl))
    leads_anything

/-- A type is read back where it cannot go on. -/
theorem recovers_typeRef : typeRef.Recovers n (fun t => t.label = .rule .typeRef) EndsType := by
  intro t label ready us ends
  obtain ⟨parts, rfl, regular, ⟨d, w, -, labels⟩, -, closed⟩ := ready.regular.eq_ofRule label
  have node : (ofRule .typeRef parts).isToken = false := rfl
  have tokens : ∀ part ∈ parts, part.isToken := by
    intro part member
    by_contra notToken
    have inside : part.label ∈ (withoutTrivia parts).map Tree.label :=
      List.mem_map_of_mem (mem_withoutTrivia member (by simpa using notToken))
    rw [labels, List.mem_map] at inside
    obtain ⟨k, -, same⟩ := inside
    simp [Tree.isToken, Tree.tokenKind?, ← same, Label.tokenKind?] at notToken
  have deep := typeWords_mono (ready.room node).le (ready.regular.typeWord label)
  obtain ⟨ts, rfl⟩ := exists_leaves tokens regular
  rw [wordOf, Tree.tokensAll_ofRule, tokensAll_leaves] at deep
  refine ⟨node, .node fun frame => ?_⟩
  obtain ⟨frame', rest, read, behind⟩ := typeParts_accepts n _ deep frame (ts ++ us) (kinds us)
    (kinds_append ts us) ends
  obtain ⟨taken, split, rfl, -, ended⟩ := typeParts_spells n _ _ _ _ _ read
  have ended' : Ended ts := by
    intro t last
    refine capped_of_closed closed (leaf t) ?_
    rw [List.getLast?_map, Option.mem_def.mp last]
    rfl
  have same : kinds ts = kinds taken := by
    have whole := congrArg kinds split
    rw [kinds_append, kinds_append, behind] at whole
    exact List.append_cancel_right whole
  obtain ⟨rfl, rfl⟩ := ended'.eq_of_kinds ended split same
  rw [tokensAll_leaves, read, readAt_empty]

/-- A type in parentheses and an operand behind it. -/
theorem reaches_cast :
    cast.Reaches n (tok .lParen * (nodeOf .typeRef * (tok .rParen * castOperand))) (Before .unary)
      (Form.close .castExpr) := by
  have operand := (recovers_operand.andThen (n := n) (Form.close .castExpr)).mono castOperand_le
  exact (Reaches.one .lParen).seq (recovers_typeRef.afterTrivia
    ((Reaches.one .rParen).seq operand leads_anything)
    (.mul (leads_tok rfl (endsType_cons (by decide))))) leads_anything

/-! ## Creators -/

theorem leads_sized {behind : List TokenKind → Prop} : Leads sized behind EndsType := by
  intro nodes member worded ks _
  rw [sized, mul_assoc] at member
  obtain ⟨_, ⟨t, rfl, label⟩, _, ⟨e, inExpr, close, -, rfl⟩, rfl⟩ := member
  obtain ⟨k, v, word, starts⟩ := beginsOn_expr e inExpr fun t inside => worded t (by simp [inside])
  rw [wordOf_append, wordOf_append, wordOf_token label, word]
  refine ⟨by simp [TokenKind.isTrivia], by simp [TokenKind.isTrivia], fun pair => ?_⟩
  obtain rfl : k = .rBracket := by simpa [TokenKind.isTrivia, eq_comm] using pair
  simp [startsOperand, isUnary, startsCastOperand] at starts

theorem leads_bracket {behind ahead : List TokenKind → Prop} (h : ∀ ks, ahead (.lBracket :: ks)) :
    Leads bracket behind ahead := .mul (.mul (leads_tok rfl h))

/-- The forms behind `new` and a type, where brackets come next. -/
def sizes : Form :=
  Form.whileNext (· == .lBracket) (Form.one .lBracket >>
    Form.unlessNext (· == .rBracket) (Form.trivia >> expression) >> Form.one .rBracket)

theorem reaches_brackets :
    Form.sizes.Reaches n (sized * bracket∗) (fun ks => (ks.headD .eof == .lBracket) = false)
      .empty := by
  have all :
      Form.sizes.Reaches n bracket∗ (fun ks => (ks.headD .eof == .lBracket) = false) .empty :=
    .whileNext (by decide) reaches_bracket (leads_bracket fun _ => rfl) (fun _ stop => stop)
      leads_anything
  exact all.mono ((mul_le_mul' sized_le le_rfl).trans mul_kstar_le_kstar)

/-- What comes behind `new` and a type. -/
def creatorTail : Form :=
  Form.ifNext (· == .lParen) (Form.trivia >> arguments)
    (Form.ifNext (· == .lBracket) (Form.sizes >> Form.whenNext (· == .lBrace) arrayElements)
      (Form.ifNext (· == .lBrace) arrayElements (refuse "(")))

theorem creator_eq : creator = (Form.one .kwNew >> Form.trivia >> typeRef >> creatorTail) := rfl

theorem leads_elements {behind ahead : List TokenKind → Prop} (h : ∀ ks, ahead (.lBrace :: ks)) :
    Leads elements behind ahead := .mul (.mul (leads_tok rfl h))

theorem leads_sizes {behind ahead : List TokenKind → Prop} (h : ∀ ks, ahead (.lBracket :: ks)) :
    Leads (sized * L) behind ahead := .mul (.mul (.mul (leads_tok rfl h)))

theorem reaches_initialized : creatorTail.Reaches n initialized stop .empty := by
  have sizes : (Form.sizes >> Form.whenNext (· == .lBrace) arrayElements).Reaches n
      (sized * bracket∗ * elements) stop .empty :=
    reaches_brackets.seq (.ifYes reaches_arrayElements (leads_elements fun _ => rfl))
      (leads_elements fun _ => rfl)
  refine .add ?_ (.add ?_ ?_)
  · exact .ifYes (recovers_arguments.reaches.weaken fun _ _ => trivial)
      (leads_arguments fun _ => rfl)
  · refine .ifNo (.ifYes sizes ?_) ?_
    · rw [mul_assoc]
      exact leads_sizes fun _ => rfl
    · rw [mul_assoc]
      exact leads_sizes fun _ => rfl
  · exact .ifNo (.ifNo (.ifYes reaches_arrayElements (leads_elements fun _ => rfl))
      (leads_elements fun _ => rfl)) (leads_elements fun _ => rfl)

/-- Neither brackets nor elements stand here. -/
def Unbracketed (ks : List TokenKind) : Prop :=
  (ks.headD .eof == .lBracket) = false ∧ (ks.headD .eof == .lBrace) = false

theorem reaches_sizes : creatorTail.Reaches n (sized * bracket∗) Unbracketed .empty := by
  have sizes : (Form.sizes >> Form.whenNext (· == .lBrace) arrayElements).Reaches n
      (sized * bracket∗ * 1) Unbracketed .empty :=
    reaches_brackets.seq (.ifNo .empty (leads_one fun _ stop => stop.2))
      (leads_one fun _ stop => stop.1)
  rw [mul_one] at sizes
  exact .ifNo (.ifYes sizes (leads_sizes fun _ => rfl)) (leads_sizes fun _ => rfl)

theorem reaches_creator (h : creatorTail.Reaches n L stop .empty) (next : Leads L stop EndsType) :
    creator.Reaches n (tok .kwNew * nodeOf .typeRef * L) stop .empty := by
  rw [creator_eq, mul_assoc]
  exact (Reaches.one .kwNew).seq (recovers_typeRef.afterTrivia h next) leads_anything

theorem reaches_sizedArray : creator.Reaches n sizedArray Unbracketed .empty :=
  reaches_creator reaches_sizes (.mul leads_sized)

theorem reaches_created :
    creator.Reaches n (tok .kwNew * nodeOf .typeRef * initialized) stop .empty := by
  have plain {k : TokenKind} (h : k ≠ .dot ∧ k ≠ .lt ∧ k ≠ .lBracket) (ks : List TokenKind) :
      EndsType (k :: ks) := endsType_cons h ks
  refine reaches_creator reaches_initialized
    (.add (leads_arguments (plain (by decide))) (.add ?_ ?_))
  · rw [mul_assoc]
    exact .mul leads_sized
  · exact leads_elements (plain (by decide))

/-! ## Primaries -/

theorem primary_atom : primary.Reaches n (tokOf isAtom) anything (Form.close .primary) := by
  refine .ifYes ((Reaches.token _ _).andThen _) (leads_tokOf ?_ fun k ks isAtom => isAtom)
  intro k isAtom
  cases k <;> first | rfl | simp [Form.isAtom] at isAtom

theorem primary_string : primary.Reaches n closedString anything (Form.close .primary) := by
  have begins {ahead : List TokenKind → Prop} (h : ∀ ks, ahead (.string :: ks)) :
      Leads closedString anything ahead := by
    rintro _ ⟨t, rfl, label, -⟩ worded
    exact leads_tok rfl h [t] ⟨t, rfl, label⟩ worded
  exact .ifNo (.ifYes ((Reaches.string _).andThen _) (begins fun _ => rfl)) (begins fun _ => rfl)

/-- A name is no call, if no arguments stand behind it. -/
theorem primary_name :
    primary.Reaches n (tok .identifier) (fun ks => (ks.headD .eof == .lParen) = false)
      (Form.close .primary) := by
  have name : (Form.one .identifier >> Form.ifNext (· == .lParen)
      (Form.trivia >> arguments >> Form.close .functionInvoke) (Form.close .primary)).Reaches n
        (tok .identifier * 1) (fun ks => (ks.headD .eof == .lParen) = false)
        (Form.close .primary) :=
    (Reaches.one .identifier).seq (.ifNo (.refl _) (leads_one fun _ stop => stop)) leads_anything
  rw [mul_one] at name
  refine .ifNo (.ifNo (.ifYes name ?_) ?_) ?_ <;> exact leads_tok rfl fun _ => rfl

theorem primary_call :
    primary.Reaches n (tok .identifier * nodeOf .arguments) anything
      (Form.close .functionInvoke) := by
  refine .ifNo (.ifNo (.ifYes ((Reaches.one .identifier).seq
    (.ifYes (recovers_arguments.andThen _) (leads_arguments fun _ => rfl)) leads_anything)
    ?_) ?_) ?_
  all_goals exact .mul (leads_tok rfl fun _ => rfl)

theorem primary_parenthesis :
    primary.Reaches n (tok .lParen * (expr * tok .rParen)) anything (Form.close .primary) := by
  refine .ifNo (.ifNo (.ifNo (.ifYes ((Reaches.one .lParen).seq (recovers_expression.afterTrivia
    ((Reaches.one .rParen).andThen _) (leads_tok rfl fun _ => by rfl)) leads_anything)
    ?_) ?_) ?_) ?_
  all_goals exact .mul (leads_tok rfl fun _ => rfl)

theorem primary_new {stop : List TokenKind → Prop}
    (h : creator.Reaches n (tok .kwNew * nodeOf .typeRef * L) stop .empty) :
    primary.Reaches n (tok .kwNew * nodeOf .typeRef * L) stop (Form.close .primary) := by
  refine .ifNo (.ifNo (.ifNo (.ifNo (.ifYes (h.andThen _) ?_) ?_) ?_) ?_) ?_
  all_goals exact .mul (.mul (leads_tok rfl fun _ => rfl))

/-! ## Suffixes -/

/-- One suffix of the operand in the frame. -/
def oneSuffix : Form :=
  Form.ifNext (· == .dot)
    (Form.one .dot >> Form.token (· == .identifier) "member name" >>
      Form.ifNext (· == .lParen) (Form.trivia >> arguments >> Form.close .methodInvoke)
        (Form.close .primary))
    (Form.ifNext (· == .lBracket)
      (Form.one .lBracket >> Form.trivia >> expression >> Form.one .rBracket >>
        Form.close .arrayAccessExpr)
      (take isIncrement >> Form.close .postfixExpr))

theorem suffix_eq : suffix = (oneSuffix >> suffixes) := rfl

theorem suffix_method :
    oneSuffix.Reaches n (tok .dot * (tok .identifier * nodeOf .arguments)) anything
      (Form.close .methodInvoke) := by
  have name : (Form.token (· == .identifier) "member name").Reaches n (tok .identifier) anything
      .empty := (Reaches.token _ _).mono (tok_le_tokOf rfl)
  refine .ifYes ((Reaches.one .dot).seq (name.seq (.ifYes (recovers_arguments.andThen _)
    (leads_arguments fun _ => rfl)) leads_anything) leads_anything) ?_
  exact .mul (leads_tok rfl fun _ => rfl)

theorem suffix_member :
    oneSuffix.Reaches n (tok .dot * tok .identifier) (fun ks => (ks.headD .eof == .lParen) = false)
      (Form.close .primary) := by
  have name : (Form.token (· == .identifier) "member name").Reaches n (tok .identifier) anything
      .empty := (Reaches.token _ _).mono (tok_le_tokOf rfl)
  have member : (Form.token (· == .identifier) "member name" >> Form.ifNext (· == .lParen)
      (Form.trivia >> arguments >> Form.close .methodInvoke) (Form.close .primary)).Reaches n
        (tok .identifier * 1) (fun ks => (ks.headD .eof == .lParen) = false)
        (Form.close .primary) :=
    name.seq (.ifNo (.refl _) (leads_one fun _ stop => stop)) leads_anything
  rw [mul_one] at member
  exact .ifYes ((Reaches.one .dot).seq member leads_anything) (.mul (leads_tok rfl fun _ => rfl))

theorem suffix_index :
    oneSuffix.Reaches n (tok .lBracket * (expr * tok .rBracket)) anything
      (Form.close .arrayAccessExpr) := by
  refine .ifNo (.ifYes ((Reaches.one .lBracket).seq (recovers_expression.afterTrivia
    ((Reaches.one .rBracket).andThen _) (leads_tok rfl fun _ => by rfl)) leads_anything) ?_) ?_
  all_goals exact .mul (leads_tok rfl fun _ => rfl)

theorem suffix_increment :
    oneSuffix.Reaches n (tokOf isIncrement) anything (Form.close .postfixExpr) := by
  have plain (k : TokenKind) (increment : isIncrement k) :
      k.isTrivia = false ∧ (k == .lBracket) = false ∧ (k == .dot) = false := by
    cases k <;> first | decide | simp [isIncrement] at increment
  refine .ifNo (.ifNo ((Reaches.token _ _).andThen _) ?_) ?_
  · exact leads_tokOf (fun k increment => (plain k increment).1) fun k ks increment =>
      (plain k increment).2.1
  · exact leads_tokOf (fun k increment => (plain k increment).1) fun k ks increment =>
      (plain k increment).2.2

end Form

end QuestScript.Grammar
