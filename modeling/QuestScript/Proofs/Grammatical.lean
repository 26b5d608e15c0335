/-
# QuestScript.Proofs.Grammatical -- what is read fits the phrases

The productions hold of every tree that is read without a report (`Form.script_shaped`).
The phrases say more of some rules, and for that it matters what was looked at on the way:
the operator that comes next binds no tighter than the expression in the frame, behind a type
in parentheses an operand begins, and no `else` comes next where none was read.

So reading is told of by triples (`Form.Turns`): from frames and next tokens of one kind to
frames and next tokens of another.  Most forms close no rule of which more is said than its
production; they keep what they find (`Form.Keeps`), and what they add is known already.
The others are gone through one by one, with the entries of the level below as hypotheses
(`Claims`), and all levels follow by induction.
-/
import QuestScript.Proofs.Phrases

namespace QuestScript

set_option autoImplicit false

namespace Grammar

open QuestScript.Tree (withoutTrivia withoutTrivia_append Dangling)
open scoped Computability

/-! ## Sound trees -/

/-- Rules of which more is said than their production. -/
def isRefined : Rule → Bool
  | .typeRef | .ifStatement | .assignmentExpr | .ternaryExpr | .binaryExpr | .prefixExpr
  | .castExpr | .postfixExpr | .arrayAccessExpr | .methodInvoke | .primary => true
  | _ => false

theorem strict_of_not_refined {rule : Rule} (h : isRefined rule = false) :
    strict rule = production rule := by
  cases rule <;> first | rfl | simp [isRefined] at h

/-- The strict phrases of the refined rules, nothing being claimed of the entries. -/
def refined : Contract where
  fits rule nodes := isRefined rule → nodes ∈ strict rule
  enters _ _ _ := True
  leaves _ _ _ _ := True

/-- The nodes of the tree fit productions and strict phrases. -/
structure Sound (t : Tree) : Prop where
  shaped : shape.Met t
  refined : refined.Met t

theorem sound_leaf (t : Token) : Sound (.leaf t) := ⟨Contract.met_leaf t, Contract.met_leaf t⟩

theorem sound_ofRule {rule : Rule} {parts : List Tree} (fits : withoutTrivia parts ∈ strict rule)
    (sound : ∀ part ∈ parts, Sound part) : Sound (.ofRule rule parts) :=
  ⟨Contract.met_ofRule.mpr ⟨phrase_le_production rule (strict_le_phrase rule fits),
    fun part member => (sound part member).shaped⟩,
    Contract.met_ofRule.mpr ⟨fun _ => fits, fun part member => (sound part member).refined⟩⟩

/-- Every node of a sound tree is an instance of its strict phrase. -/
theorem Sound.fits {t : Tree} (h : Sound t) : ∀ node ∈ t.nodes, ∀ rule, node.label = .rule rule →
    node.significant ∈ strict rule := by
  intro node member rule label
  cases isRefined' : isRefined rule with
  | true => exact h.refined node member rule label isRefined'
  | false =>
      rw [strict_of_not_refined isRefined']
      exact h.shaped node member rule label

theorem Sound.grammatical {t : Tree} (h : Sound t) : Grammatical t := by
  intro node member rule label
  have fits := h.fits node member rule label
  exact ⟨by rintro rfl; exact fits, strict_le_phrase rule fits⟩

/-! ## Triples -/

/-- Nodes of a language stand in the frame. -/
def In (L : Language Tree) : Assertion := fun nodes _ => nodes ∈ L

namespace Form

/-- Read without a report with `n` levels left, the form leads from frames and next tokens of `P`
to those of `Q`, and keeps trees sound. -/
def Turns (n : Nat) (P : Assertion) (f : Form) (Q : Assertion) : Prop :=
  ∀ frame ts frame' rest, (∀ t ∈ frame, Sound t) → P (withoutTrivia frame) (nextKind ts) →
    f.readAt n frame ts = .done frame' rest [] →
    (∀ t ∈ frame', Sound t) ∧ Q (withoutTrivia frame') (nextKind rest)

/-- The form adds words of `L` to any frame. -/
def Adds (n : Nat) (f : Form) (L : Language Tree) : Prop :=
  ∀ P : Language Tree, f.Turns n (In P) (In (P * L))

variable {n : Nat} {P P' Q Q' R : Assertion} {K L : Language Tree}
  {f first second yes no body : Form} {admits : TokenKind → Bool}

theorem Turns.mono (h : f.Turns n P Q) (pre : ∀ nodes next, P' nodes next → P nodes next)
    (post : ∀ nodes next, Q nodes next → Q' nodes next) : f.Turns n P' Q' := by
  intro frame ts frame' rest sound holds done
  obtain ⟨sound', holds'⟩ := h frame ts frame' rest sound (pre _ _ holds) done
  exact ⟨sound', post _ _ holds'⟩

theorem Turns.seq (h₁ : first.Turns n P Q) (h₂ : second.Turns n Q R) :
    (first >> second).Turns n P R := by
  intro frame ts frame' rest sound holds done
  obtain ⟨middle, between, read₁, read₂⟩ := seq_clean.mp done
  obtain ⟨sound', holds'⟩ := h₁ _ _ _ _ sound holds read₁
  exact h₂ _ _ _ _ sound' holds' read₂

theorem Turns.ifNext (h₁ : yes.Turns n (fun nodes next => P nodes next ∧ admits next) Q)
    (h₂ : no.Turns n (fun nodes next => P nodes next ∧ admits next = false) Q) :
    (Form.ifNext admits yes no).Turns n P Q := by
  intro frame ts frame' rest sound holds done
  rw [readAt_ifNext] at done
  split at done
  · rename_i admitted
    exact h₁ _ _ _ _ sound ⟨holds, admitted⟩ done
  · rename_i refused
    exact h₂ _ _ _ _ sound ⟨holds, by simpa using refused⟩ done

theorem Turns.close {rule : Rule} (h : ∀ parts next, P (withoutTrivia parts) next →
    withoutTrivia parts ∈ strict rule ∧ Q [.ofRule rule parts] next) :
    (Form.close rule).Turns n P Q := by
  intro frame ts frame' rest sound holds done
  cases done
  obtain ⟨fits, holds'⟩ := h frame _ holds
  exact ⟨by simpa using sound_ofRule fits sound, by simpa using holds'⟩

theorem Turns.empty : Form.empty.Turns n P P := by
  intro frame ts frame' rest sound holds done
  cases done
  exact ⟨sound, holds⟩

/-! ## Forms that keep what they find -/

/-- Refined nodes stay so, and none are added that are not. -/
def Keeps (n : Nat) (f : Form) : Prop :=
  ∀ frame ts frame' rest, (∀ t ∈ frame, refined.Met t) →
    f.readAt n frame ts = .done frame' rest [] → ∀ t ∈ frame', refined.Met t

/-- The form enters what begins with an empty frame. -/
def entersFresh : Form → Bool
  | .enter .statement | .enter .assignment | .enter .ternary => true
  | _ => false

/-- The form closes no refined rules itself, and enters nothing in a frame it shares but type
arguments. -/
def humble : Form → Bool
  | .close rule => !isRefined rule
  | .enter entry => entry == .typeArguments
  | .frame body => body.entersFresh || body.humble
  | .seq first second => first.humble && second.humble
  | .choose _ _ yes no => yes.humble && no.humble
  | .repeated _ _ body => body.humble
  | .recover body _ => body.humble
  | _ => true

theorem Keeps.seq (h₁ : first.Keeps n) (h₂ : second.Keeps n) : (first >> second).Keeps n := by
  intro frame ts frame' rest met done
  obtain ⟨middle, between, read₁, read₂⟩ := seq_clean.mp done
  exact h₂ _ _ _ _ (h₁ _ _ _ _ met read₁) read₂

theorem Keeps.frame (h : body.Keeps n) : (Form.frame body).Keeps n := by
  intro outer ts frame' rest met done
  obtain ⟨inner, read, rfl⟩ := Outcome.into_eq_done.mp done
  exact List.forall_mem_append.mpr ⟨met, h _ _ _ _ (by simp) read⟩

theorem Keeps.choose {look : Form} (h₁ : yes.Keeps n) (h₂ : no.Keeps n) :
    (Form.choose look admits yes no).Keeps n := by
  intro frame ts frame' rest met done
  rw [readAt_choose] at done
  split at done
  · exact h₁ _ _ _ _ met done
  · exact h₂ _ _ _ _ met done

theorem Keeps.close {rule : Rule} (h : isRefined rule = false) : (Form.close rule).Keeps n := by
  intro frame ts frame' rest met done
  cases done
  simpa using Contract.met_ofRule.mpr ⟨fun refined => by simp [h] at refined, met⟩

theorem Keeps.node {rule : Rule} (h : body.Keeps n) (plain : isRefined rule = false) :
    (Form.node rule body).Keeps n :=
  .frame (.seq h (.close plain))

theorem Keeps.recover {skip : Form} (h : body.Keeps n) : (Form.recover body skip).Keeps n := by
  intro frame ts frame' rest met done
  rcases Outcome.orElse_eq_done.mp done with read | ⟨fault, one, two, -, -, none⟩
  · exact h _ _ _ _ met read
  · simp at none

theorem keeps_repeated {look : Form} (productive : (repeated look admits body).productive)
    (h : body.Keeps n) (frame : List Tree) (ts : List Token) (frame' : List Tree)
    (rest : List Token) (met : ∀ t ∈ frame, refined.Met t)
    (done : (repeated look admits body).readAt n frame ts = .done frame' rest []) :
    ∀ t ∈ frame', refined.Met t := by
  rw [readAt_repeated productive] at done
  split at done
  · rename_i looked
    obtain ⟨middle, between, one, two, read₁, read₂, none⟩ := Outcome.andThen_eq_done.mp done
    obtain ⟨rfl, rfl⟩ := List.append_eq_nil_iff.mp none
    have shorter : Shorter between ts := shorter_of_round productive looked read₁
    exact keeps_repeated productive h _ _ _ _ (h _ _ _ _ met read₁) read₂
  · cases done
    exact met
termination_by (significant ts).length
decreasing_by exact shorter

theorem keeps_token {test : Token → Option Cause} {atEnd : Cause} {frame frame' : List Tree}
    {ts rest : List Token} (met : ∀ t ∈ frame, refined.Met t)
    (done : Reader.ofToken test atEnd frame ts = .done frame' rest []) :
    ∀ t ∈ frame', refined.Met t := by
  let anything : Assertion := fun _ _ => True
  have met' : anything (withoutTrivia frame') (nextKind rest) ∧ ∀ t ∈ frame', refined.Met t :=
    Reader.ofToken_meets met done fun _ _ _ => trivial
  exact met'.2

/-- What the entries that begin with an empty frame keep. -/
structure Fresh (n : Nat) : Prop where
  statement : (Form.frame (enter .statement)).Keeps n
  assignment : (Form.frame (enter .assignment)).Keeps n
  ternary : (Form.frame (enter .ternary)).Keeps n
  typeArguments : (enter .typeArguments).Keeps n

theorem Keeps.of_humble (fresh : Fresh n) (h : f.humble) (productive : f.productive) :
    f.Keeps n := by
  induction f with
  | empty =>
      intro frame ts frame' rest met done
      cases done
      exact met
  | trivia =>
      intro frame ts frame' rest met done
      cases done
      exact Contract.met_leaves met _
  | token admits expected => exact fun _ _ _ _ met done => keeps_token met done
  | string expected => exact fun _ _ _ _ met done => keeps_token met done
  | refuse expected =>
      intro frame ts frame' rest met done
      simp at done
  | close rule => exact .close (by simpa [humble] using h)
  | enter entry =>
      obtain rfl : entry = .typeArguments := by simpa [humble] using h
      exact fresh.typeArguments
  | seq first second ihFirst ihSecond =>
      simp only [humble, Form.productive, Bool.and_eq_true] at h productive
      exact (ihFirst h.1 productive.1).seq (ihSecond h.2 productive.2)
  | frame body ih =>
      simp only [humble, Bool.or_eq_true] at h
      rcases h with enters | h
      · unfold entersFresh at enters
        split at enters
        · exact fresh.statement
        · exact fresh.assignment
        · exact fresh.ternary
        · simp at enters
      · exact (ih h productive).frame
  | choose look admits yes no _ ihYes ihNo =>
      simp only [humble, Form.productive, Bool.and_eq_true] at h productive
      exact (ihYes h.1 productive.1.2).choose (ihNo h.2 productive.2)
  | repeated look admits body _ ihBody =>
      have parts := productive
      simp only [humble, Form.productive, Bool.and_eq_true] at h parts
      exact keeps_repeated productive (ihBody h parts.1.2)
  | recover body skip ihBody _ =>
      simp only [humble, Form.productive, Bool.and_eq_true] at h productive
      exact (ihBody h productive.1).recover

/-- What a form adds by its productions it adds soundly, if it keeps refined nodes. -/
theorem Keeps.adds (h : f.Keeps n) (productive : f.productive) (appends : f.Appends L) :
    f.Adds n L := by
  intro P frame ts frame' rest sound holds done
  obtain ⟨member, shaped⟩ := readAt_meets shape_kept productive (appends P _ _ holds)
    (fun t inFrame => (sound t inFrame).shaped) done
  exact ⟨fun t inFrame => ⟨shaped t inFrame,
    h _ _ _ _ (fun t inFrame => (sound t inFrame).refined) done t inFrame⟩, member⟩

/-! ## Types -/

theorem withoutTrivia_leaves (ts : List Token) :
    withoutTrivia (ts.map Tree.leaf) = (significant ts).map Tree.leaf := by
  simp [withoutTrivia, significant, List.filter_map, Function.comp_def]

/-- The tokens of a type spell a type. -/
theorem typeRef_keeps : typeRef.Keeps n := by
  intro outer ts frame' rest met done
  obtain ⟨inner, read, rfl⟩ := Outcome.into_eq_done.mp done
  obtain ⟨parts, between, read, closed⟩ := seq_clean.mp read
  cases closed
  obtain ⟨taken, -, rfl, word, -⟩ := typeParts_spells n _ _ _ _ _ read
  refine List.forall_mem_append.mpr ⟨met, ?_⟩
  have leaves : ∀ t ∈ taken.map Tree.leaf, refined.Met t := by
    simpa using fun t _ => Contract.met_leaf t
  have spelled : withoutTrivia (taken.map Tree.leaf) ∈ strict .typeRef :=
    ⟨n, _, word, by simp [withoutTrivia_leaves, kinds, Tree.leaf]⟩
  simpa using Contract.met_ofRule.mpr ⟨fun _ => spelled, leaves⟩

theorem typeRef_adds : typeRef.Adds n (nodeOf .typeRef) :=
  typeRef_keeps.adds (by decide) typeRef_appends

/-! ## What is claimed of entries -/

/-- A type in parentheses is ahead, and behind it what may be cast to it. -/
def CastsAhead (ts : List Token) : Prop :=
  ∃ m, ∃ w ∈ typeWords m, ∃ k ks, kinds ts = .lParen :: (w ++ .rParen :: k :: ks) ∧
    startsCastOperand k

/-- An operand of a chain of operators stands in the frame, and the next operator binds more
loosely than the chain. -/
def Chained (least : Precedence) : Assertion := fun nodes next =>
  nodes ∈ exprAt (.binary least) ∧
    ∀ q, Precedence.ofKind? next = some q → q.rank < least.rank

/-- A statement stands in the frame, and if an `else` comes next, it belongs to no `if` in it. -/
def Stated : Assertion := fun nodes next =>
  nodes ∈ stmt ∧ (next = .kwElse → nodes ∈ settled)

/-- An operand with suffixes stands in the frame, and if a bracket comes next, an index may stand
behind it. -/
def Suffixed : Assertion := fun nodes next =>
  nodes ∈ exprAt .suffixed ∧ (next = .lBracket → nodes ∈ indexable)

/-- What the entries do with `n` levels left. -/
structure Claims (n : Nat) : Prop where
  statement : (enter .statement).Turns n (In 1) Stated
  assignment : (enter .assignment).Turns n (In 1) (In expr)
  ternary : (enter .ternary).Turns n (In 1) (In (exprAt .ternary))
  unary : (enter .unary).Turns n (In 1) (In (exprAt .unary))
  cast : ∀ frame ts frame' rest, (∀ t ∈ frame, Sound t) → withoutTrivia frame = [] →
    CastsAhead ts → (enter .cast).readAt n frame ts = .done frame' rest [] →
    (∀ t ∈ frame', Sound t) ∧ withoutTrivia frame' ∈ exprAt .unary
  link : ∀ least own : Precedence, least.rank ≤ own.rank → (enter (.link least own)).Turns n
    (fun nodes next => nodes ∈ exprAt (.binary own) ∧ own.admits next) (Chained least)
  suffix : (enter .suffix).Turns n Suffixed (In (exprAt .suffixed))
  typeArguments : (enter .typeArguments).Keeps n

theorem Turns.keeps {entry : Entry} (h : (enter entry).Turns n (In 1) Q) :
    (Form.frame (enter entry)).Keeps n := by
  intro outer ts frame' rest met done
  obtain ⟨inner, read, rfl⟩ := Outcome.into_eq_done.mp done
  obtain ⟨sound, -⟩ := h [] ts inner rest (by simp) rfl read
  exact List.forall_mem_append.mpr ⟨met, fun t member => (sound t member).refined⟩

theorem Claims.fresh (claims : Claims n) : Fresh n where
  statement := claims.statement.keeps
  assignment := claims.assignment.keeps
  ternary := claims.ternary.keeps
  typeArguments := claims.typeArguments

theorem Claims.keeps (claims : Claims n) (humble : f.humble) (productive : f.productive) :
    f.Keeps n :=
  .of_humble claims.fresh humble productive

theorem Claims.adds (claims : Claims n) (humble : f.humble) (productive : f.productive)
    (appends : f.Appends L) : f.Adds n L :=
  (claims.keeps humble productive).adds productive appends

/-! ## Operands -/

theorem Turns.choose {look : Form} (h₁ : yes.Turns n P Q) (h₂ : no.Turns n P Q) :
    (Form.choose look admits yes no).Turns n P Q := by
  intro frame ts frame' rest sound holds done
  rw [readAt_choose] at done
  split at done
  · exact h₁ _ _ _ _ sound holds done
  · exact h₂ _ _ _ _ sound holds done

/-- What fits the strict phrase of a rule of expressions is closed to an expression of its level. -/
theorem Turns.closeAt {rule : Rule} {l : Level} (le : K ≤ strict rule) (isExpr : rule.isExpression)
    (level : ∀ parts, l.rank ≤ (Tree.ofRule rule parts).level.rank) :
    (Form.close rule).Turns n (In K) (In (exprAt l)) :=
  .close fun parts _ member => ⟨le member, ⟨_, rfl, isExpr, level parts⟩⟩

theorem Turns.to_le (h : f.Turns n P (In K)) (le : K ≤ L) : f.Turns n P (In L) :=
  h.mono (fun _ _ holds => holds) fun _ _ member => le member

theorem Turns.given {φ : List Tree → TokenKind → Prop} (h : f.Turns n P Q) :
    f.Turns n (fun nodes next => P nodes next ∧ φ nodes next) Q :=
  h.mono (fun _ _ holds => holds.1) fun _ _ holds => holds

theorem Adds.turns (h : f.Adds n L) : f.Turns n (In 1) (In L) := by
  simpa using h 1

/-- Behind a repetition comes what it does not go on with. -/
theorem Adds.stops (productive : (whileNext admits body).productive)
    (h : (whileNext admits body).Adds n L) (P : Language Tree) :
    (whileNext admits body).Turns n (In P)
      fun nodes next => nodes ∈ P * L ∧ admits next = false := by
  intro frame ts frame' rest sound holds done
  obtain ⟨sound', member⟩ := h P _ _ _ _ sound holds done
  have stopped := (repeated_done productive (fun _ _ => True) (fun _ _ _ _ _ _ _ _ => trivial)
    trivial done).2
  rw [leadsTo_empty] at stopped
  exact ⟨sound', member, stopped⟩

/-- Behind a type no empty brackets come next. -/
theorem typeRef_stops {frame frame' : List Tree} {ts rest : List Token}
    (done : typeRef.readAt n frame ts = .done frame' rest []) :
    ¬ [.lBracket, .rBracket] <+: kinds rest := by
  obtain ⟨inner, read, -⟩ := Outcome.into_eq_done.mp done
  obtain ⟨parts, between, read, closed⟩ := seq_clean.mp read
  cases closed
  obtain ⟨_, _, -, read⟩ := seq_clean.mp read
  obtain ⟨_, _, -, read⟩ := seq_clean.mp read
  obtain ⟨_, _, -, square⟩ := seq_clean.mp read
  have stopped := (repeated_done (by decide) (fun _ _ => True) (fun _ _ _ _ _ _ _ _ => trivial)
    trivial square).2
  rw [← leadsTo_one (n := n) (by decide), stopped]
  exact Bool.false_ne_true

/-- Brackets with a size or without. -/
def dimension : Form :=
  one .lBracket >> unlessNext (· == .rBracket) (trivia >> expression) >> one .rBracket

theorem dimension_appends : dimension.Appends bracket :=
  ((Appends.one .lBracket).seq expression_appends.afterTrivia.unlessNext).seq (.one .rBracket)

section

variable (claims : Claims n)
include claims

theorem one_adds (k : TokenKind) : (one k).Adds n (tok k) :=
  claims.adds rfl rfl (.one k)

theorem arguments_adds : (trivia >> arguments).Adds n (nodeOf .arguments) :=
  claims.adds (by decide) (by decide) arguments_appends.afterTrivia

theorem trivia_adds : Form.trivia.Adds n 1 := claims.adds rfl rfl .trivia

theorem expression_adds : expression.Adds n expr := claims.adds rfl rfl expression_appends

theorem dimensions_adds : (whileNext (· == .lBracket) dimension).Adds n bracket∗ :=
  claims.adds (by decide) (by decide) (.repeated dimension_appends)

/-- Brackets with something in them hold a size. -/
theorem dimension_given {frame frame' : List Tree} {ts rest : List Token}
    (sound : ∀ t ∈ frame, Sound t) (holds : withoutTrivia frame ∈ K)
    (noPair : ¬ [.lBracket, .rBracket] <+: kinds ts)
    (done : dimension.readAt n frame ts = .done frame' rest []) :
    (∀ t ∈ frame', Sound t) ∧ withoutTrivia frame' ∈ K * sized := by
  obtain ⟨frame₁, ts₁, opened, done⟩ := seq_clean.mp done
  obtain ⟨frame₂, ts₂, inner, closed⟩ := seq_clean.mp done
  have goesOn : (nextKind ts₁ == .rBracket) = false := by
    rw [nextKind_eq_kinds]
    rw [kinds_of_one opened] at noPair
    cases ahead : kinds ts₁ with
    | nil => rfl
    | cons k ks =>
        refine beq_eq_false_iff_ne.mpr ?_
        rintro rfl
        exact noPair ⟨ks, by rw [ahead]; rfl⟩
  rw [unlessNext, readAt_ifNext, goesOn, if_neg Bool.false_ne_true] at inner
  obtain ⟨sound₁, holds₁⟩ := one_adds claims .lBracket K _ _ _ _ sound holds opened
  obtain ⟨sound₂, holds₂⟩ :=
    ((trivia_adds claims _).seq (expression_adds claims _)) _ _ _ _ sound₁ holds₁ inner
  obtain ⟨sound', holds'⟩ := one_adds claims .rBracket _ _ _ _ _ sound₂ holds₂ closed
  exact ⟨sound', by simpa only [In, sized, mul_one, mul_assoc] using holds'⟩

/-- Behind brackets of which the first are not empty comes no other bracket. -/
theorem dimensions_given {frame frame' : List Tree} {ts rest : List Token}
    (sound : ∀ t ∈ frame, Sound t) (holds : withoutTrivia frame ∈ K)
    (next : (nextKind ts == .lBracket) = true) (noPair : ¬ [.lBracket, .rBracket] <+: kinds ts)
    (done : (whileNext (· == .lBracket) dimension).readAt n frame ts = .done frame' rest []) :
    (∀ t ∈ frame', Sound t) ∧ withoutTrivia frame' ∈ K * (sized * bracket∗) ∧
      (nextKind rest == .lBracket) = false := by
  rw [whileNext, readAt_repeated (by decide), leadsTo_empty, if_pos next] at done
  obtain ⟨middle, between, one, two, first, more, none⟩ := Outcome.andThen_eq_done.mp done
  obtain ⟨rfl, rfl⟩ := List.append_eq_nil_iff.mp none
  obtain ⟨sound₁, holds₁⟩ := dimension_given claims sound holds noPair first
  obtain ⟨sound', holds', stopped⟩ :=
    (dimensions_adds claims).stops (by decide) _ _ _ _ _ sound₁ holds₁ more
  exact ⟨sound', by rwa [mul_assoc] at holds', stopped⟩

/-- An array of given sizes that no bracket stands behind, or something else that is made. -/
def Created : Assertion := fun nodes next =>
  nodes ∈ sizedArray ∧ next ≠ .lBracket ∨ nodes ∈ tok .kwNew * nodeOf .typeRef * initialized

/-- A type takes the empty brackets behind it.  That takes two tokens to see, so the form is gone
through step by step. -/
theorem creator_turns : creator.Turns n (In 1) Created := by
  intro frame ts frame' rest sound holds done
  obtain ⟨frame₁, ts₁, read₁, done⟩ := seq_clean.mp done
  obtain ⟨frame₂, ts₂, read₂, done⟩ := seq_clean.mp done
  obtain ⟨frame₃, ts₃, read₃, done⟩ := seq_clean.mp done
  obtain ⟨sound₁, holds₁⟩ := one_adds claims .kwNew 1 _ _ _ _ sound holds read₁
  obtain ⟨sound₂, holds₂⟩ := trivia_adds claims _ _ _ _ _ sound₁ holds₁ read₂
  obtain ⟨sound₃, holds₃⟩ := typeRef_adds _ _ _ _ _ sound₂ holds₂ read₃
  have made : withoutTrivia frame₃ ∈ tok .kwNew * nodeOf .typeRef := by
    simpa only [In, one_mul, mul_one] using holds₃
  have elements : arrayElements.Adds n Grammar.elements :=
    claims.adds (by decide) (by decide) arrayElements_appends
  have within {L : Language Tree} (le : L ≤ initialized) :
      tok .kwNew * nodeOf .typeRef * L ≤ tok .kwNew * nodeOf .typeRef * initialized :=
    mul_le_mul_right le _
  rw [readAt_ifNext] at done
  split at done
  · obtain ⟨sound', called⟩ := arguments_adds claims _ _ _ _ _ sound₃ made done
    exact ⟨sound', .inr (within le_self_add called)⟩
  rw [readAt_ifNext] at done
  split at done
  · rename_i bracketed
    obtain ⟨frame₄, ts₄, sizes, done⟩ := seq_clean.mp done
    obtain ⟨sound₄, sized, stopped⟩ :=
      dimensions_given claims sound₃ made bracketed (typeRef_stops read₃) sizes
    rw [whenNext, readAt_ifNext] at done
    split at done
    · obtain ⟨sound', listed⟩ := elements _ _ _ _ _ sound₄ sized done
      rw [mul_assoc (tok .kwNew * nodeOf .typeRef)] at listed
      exact ⟨sound', .inr (within (le_self_add.trans le_add_self) listed)⟩
    · cases done
      exact ⟨sound₄, .inl ⟨sized, by simpa using stopped⟩⟩
  rw [readAt_ifNext] at done
  split at done
  · obtain ⟨sound', listed⟩ := elements _ _ _ _ _ sound₃ made done
    exact ⟨sound', .inr (within (le_add_self.trans le_add_self) listed)⟩
  · simp at done

omit claims in
/-- What does not begin with `new` is closed to an operand that an index may stand behind. -/
theorem Turns.closeSuffixed {rule : Rule} (le : K ≤ strict rule) (isExpr : rule.isExpression)
    (level : ∀ parts, Level.suffixed.rank ≤ (Tree.ofRule rule parts).level.rank)
    (plain : Starts (fun label => label ≠ .token .kwNew) K) :
    (Form.close rule).Turns n (In K) Suffixed :=
  .close fun parts _ member => ⟨le member, ⟨_, rfl, isExpr, level parts⟩, fun _ =>
    ⟨_, rfl, isExpr, level parts, not_sizedArray_of_starts plain member⟩⟩

theorem primary_turns : primary.Turns n (In 1) Suffixed := by
  have close {L : Language Tree} (le : L ≤ strict .primary)
      (plain : Starts (fun label => label ≠ .token .kwNew) L) :
      (Form.close .primary).Turns n (In L) Suffixed :=
    .closeSuffixed le rfl (fun _ => le_rfl) plain
  refine .choose ?_ (.choose ?_ (.choose ?_ (.choose ?_ (.choose ?_ ?_))))
  · refine (claims.adds rfl rfl (.token isAtom "token")).turns.seq
      (close (fun _ h => .inl (.inl (.inl (.inl (.inl h))))) (starts_tokOf ?_))
    rintro _ admitted ⟨⟩
    exact absurd admitted (by decide)
  · exact (claims.adds rfl rfl (.string "string")).turns.seq
      (close (fun _ h => .inl (.inl (.inl (.inl (.inr h)))))
        (starts_single fun _ isString => by simp [isString.1]))
  · refine (one_adds claims .identifier).turns.seq (.choose ?_
      (close (fun _ h => .inl (.inl (.inl (.inr h)))) (starts_tok (by simp))))
    exact .seq (trivia_adds claims _)
      (.seq (claims.adds (by decide) (by decide) arguments_appends _)
      (.closeSuffixed (by rw [mul_one]; exact le_rfl) rfl (fun _ => le_rfl)
        (starts_mul (starts_mul (starts_tok (by simp))))))
  · refine .seq (one_adds claims .lParen _) (.seq (trivia_adds claims _)
      (.seq (expression_adds claims _) (.seq (one_adds claims .rParen _) ?_)))
    rw [one_mul, mul_one]
    exact close (fun _ h => .inl (.inl (.inr h))) (starts_mul (starts_mul (starts_tok (by simp))))
  · refine (creator_turns claims).seq (.close ?_)
    rintro parts next (⟨array, noBracket⟩ | made)
    · exact ⟨.inl (.inr (.inl array)), ⟨_, rfl, rfl, le_rfl⟩, fun bracket => absurd bracket noBracket⟩
    · exact ⟨.inl (.inr (.inr made)), ⟨_, rfl, rfl, le_rfl⟩, fun _ =>
        ⟨_, rfl, rfl, le_rfl, not_sizedArray_of_initialized made⟩⟩
  · intro frame ts frame' rest _ _ done
    simp at done

theorem suffixes_turns : suffixes.Turns n Suffixed (In (exprAt .suffixed)) :=
  .choose claims.suffix (Turns.empty.mono (fun _ _ holds => holds) fun _ _ holds => holds.1)

theorem suffix_turns : suffix.Turns n Suffixed (In (exprAt .suffixed)) := by
  have plain {p : Tree → Prop} (isExpr : ∀ t, p t → t.label.isExpression) {L : Language Tree} :
      Starts (fun label => label ≠ .token .kwNew) (single p * L) :=
    starts_mul (starts_single fun t holds label => by
      have notToken := isExpr t holds
      simp [label, Label.isExpression] at notToken)
  have operand {f : Form} {Q : Assertion} (h : f.Turns n (In (exprAt .suffixed)) Q) :
      f.Turns n Suffixed Q := h.mono (fun _ _ holds => holds.1) fun _ _ holds => holds
  refine .seq (.choose (operand ?_) (.ifNext ?_ (.given (operand ?_)))) (suffixes_turns claims)
  · have name := claims.adds (f := token (· == .identifier) "member name") rfl rfl
      (.one .identifier)
    refine .seq (one_adds claims .dot _) (.seq (name _) (.choose ?_ (.closeSuffixed
      (fun _ h => .inr h) rfl (fun _ => le_rfl) (starts_mul (plain fun _ h => h.1)))))
    refine .seq (trivia_adds claims _) (.seq (claims.adds (by decide) (by decide)
      arguments_appends _) (.closeSuffixed ?_ rfl (fun _ => le_rfl) ?_))
    · rw [mul_one]
      exact le_rfl
    · rw [mul_one]
      exact starts_mul (starts_mul (plain fun _ h => h.1))
  · refine Turns.mono (P := In indexable) ?_ (fun nodes next holds => holds.1.2 (by
      simpa using holds.2)) fun _ _ holds => holds
    refine .seq (one_adds claims .lBracket _) (.seq (trivia_adds claims _)
      (.seq (expression_adds claims _) (.seq (one_adds claims .rBracket _)
        (.closeSuffixed ?_ rfl (fun _ => le_rfl) ?_))))
    · rw [mul_one]
      exact le_rfl
    · rw [mul_one]
      exact starts_mul (starts_mul (plain fun _ h => h.1))
  · exact .seq (claims.adds rfl rfl (.token isIncrement "token") _)
      (.closeSuffixed le_rfl rfl (fun _ => le_rfl) (plain fun _ h => h.1))

omit claims in
theorem exprAt_mono {l l' : Level} (h : l.rank ≤ l'.rank) : exprAt l' ≤ exprAt l :=
  single_mono fun _ holds => ⟨holds.1, h.trans holds.2⟩

theorem operand_turns : operand.Turns n (In 1) (In (exprAt .unary)) := by
  refine .choose claims.unary ?_
  intro frame ts frame' rest sound empty done
  rw [readAt_choose] at done
  split at done
  · rename_i looked
    obtain ⟨w, word, ahead⟩ := (castAhead_iff n ts).mp looked
    exact claims.cast frame ts frame' rest sound empty ⟨n, w, word, ahead⟩ done
  · have plain := ((primary_turns claims).seq (suffixes_turns claims)).to_le
      (exprAt_mono (l := .unary) (by decide))
    exact plain frame ts frame' rest sound empty done

omit claims in
/-- What is read in a frame of its own is added to the outer one. -/
theorem Turns.framed (h : f.Turns n (In 1) Q) (P : Language Tree) :
    (Form.frame f).Turns n (In P) fun nodes next =>
      ∃ base ∈ P, ∃ inner, nodes = base ++ inner ∧ Q inner next := by
  intro outer ts frame' rest sound holds done
  obtain ⟨inner, read, rfl⟩ := Outcome.into_eq_done.mp done
  obtain ⟨sound', holds'⟩ := h [] ts inner rest (by simp) rfl read
  exact ⟨List.forall_mem_append.mpr ⟨sound, sound'⟩, _, holds, _, withoutTrivia_append .., holds'⟩

omit claims in
theorem Turns.adds (h : f.Turns n (In 1) (In L)) : (Form.frame f).Adds n L := fun P =>
  (h.framed P).mono (fun _ _ holds => holds) fun _ _ ⟨_, inP, _, split, inL⟩ =>
    split ▸ Language.append_mem_mul inP inL

theorem unary_turns : unary.Turns n (In 1) (In (exprAt .unary)) := by
  refine .seq (claims.adds rfl rfl (.token isUnary "token") _) (.seq (trivia_adds claims _)
    (.seq ((operand_turns claims).adds _) (.closeAt ?_ rfl fun _ => le_rfl)))
  rw [one_mul, mul_one]
  exact le_rfl

omit claims in
/-- Behind the type in parentheses that was seen ahead stands what was seen there. -/
theorem kinds_behind_cast {frame frame₁ frame₂ : List Tree} {ts ts₁ ts₂ : List Token}
    (type : typeRef.readAt n frame ts = .done frame₁ ts₁ [])
    (close : (one .rParen).readAt n frame₁ ts₁ = .done frame₂ ts₂ []) {m : Nat}
    {w ks : List TokenKind} (word : w ∈ typeWords m) (ahead : kinds ts = w ++ .rParen :: ks) :
    kinds ts₂ = ks := by
  obtain ⟨inner, read, -⟩ := Outcome.into_eq_done.mp type
  obtain ⟨parts, between, read, closed⟩ := seq_clean.mp read
  cases closed
  obtain ⟨taken, rfl, -, spelled, -⟩ := typeParts_spells n _ _ _ _ _ read
  have noParen {m : Nat} {w : List TokenKind} (word : w ∈ typeWords m) : .rParen ∉ w :=
    fun member => by simpa [isTypeToken] using isTypeToken_of_mem word member
  rw [kinds_append, kinds_of_one close] at ahead
  exact (append_cons_inj ahead (noParen spelled) (noParen word)).2

/-- The operand of a cast begins with the token that was seen ahead. -/
theorem cast_sound {frame frame' : List Tree} {ts rest : List Token}
    (sound : ∀ t ∈ frame, Sound t) (empty : withoutTrivia frame = []) (ahead : CastsAhead ts)
    (done : cast.readAt n frame ts = .done frame' rest []) :
    (∀ t ∈ frame', Sound t) ∧ withoutTrivia frame' ∈ exprAt .unary := by
  obtain ⟨frame₁, ts₁, read₁, done⟩ := seq_clean.mp done
  obtain ⟨frame₂, ts₂, read₂, done⟩ := seq_clean.mp done
  obtain ⟨frame₃, ts₃, read₃, done⟩ := seq_clean.mp done
  obtain ⟨frame₄, ts₄, read₄, done⟩ := seq_clean.mp done
  obtain ⟨frame₅, ts₅, read₅, done⟩ := seq_clean.mp done
  obtain ⟨frame₆, ts₆, read₆, closed⟩ := seq_clean.mp done
  obtain ⟨inner, operand, rfl⟩ := Outcome.into_eq_done.mp read₆
  obtain ⟨sound₁, holds₁⟩ := one_adds claims .lParen 1 _ _ _ _ sound empty read₁
  obtain ⟨sound₂, holds₂⟩ := trivia_adds claims _ _ _ _ _ sound₁ holds₁ read₂
  obtain ⟨sound₃, holds₃⟩ := typeRef_adds _ _ _ _ _ sound₂ holds₂ read₃
  obtain ⟨sound₄, holds₄⟩ := one_adds claims .rParen _ _ _ _ _ sound₃ holds₃ read₄
  obtain ⟨sound₅, holds₅⟩ := trivia_adds claims _ _ _ _ _ sound₄ holds₄ read₅
  obtain ⟨soundOperand, tight⟩ := operand_turns claims [] _ _ _ (by simp) rfl operand
  -- What was seen behind the parentheses is still there when the operand is read.
  obtain ⟨m, w, word, k, ks, split, starts⟩ := ahead
  have inside : kinds ts₂ = w ++ .rParen :: k :: ks := by
    cases read₂
    rw [kinds_afterTrivia]
    exact (List.cons.inj ((kinds_of_one read₁).symm.trans split)).2
  have behind : kinds ts₅ = k :: ks := by
    cases read₅
    rw [kinds_afterTrivia]
    exact kinds_behind_cast read₃ read₄ word inside
  obtain ⟨taken, rfl, same, -, worded⟩ := operand_reads.word (by decide) operand
  obtain ⟨o, only, isExpr, level⟩ := tight
  rw [only] at same worded
  obtain ⟨k', v, first, -⟩ := ((worded o (by simp)).expression isExpr).1
  rw [kinds_append, same, first] at behind
  obtain rfl : k' = k := (List.cons.inj behind).1
  have cast : withoutTrivia inner ∈ castOperand :=
    ⟨o, only, isExpr, level, k', by simp [first], starts⟩
  have front : withoutTrivia frame₅ ∈ tok .lParen * nodeOf .typeRef * tok .rParen := by
    simpa only [In, one_mul, mul_one] using holds₅
  have parts : withoutTrivia (frame₅ ++ inner) ∈ strict .castExpr := by
    rw [withoutTrivia_append]
    exact Language.append_mem_mul front cast
  have close : (Form.close .castExpr).Turns n (In (strict .castExpr)) (In (exprAt .unary)) :=
    .closeAt le_rfl rfl fun _ => le_rfl
  exact close _ _ _ _ (List.forall_mem_append.mpr ⟨sound₅, soundOperand⟩) parts closed

/-! ## Chains of operators -/

omit claims in
theorem readAt_links_of (least : Precedence) (ps : List Precedence) (frame : List Tree)
    (ts : List Token) :
    (ps.foldr (fun p other => Form.ifNext p.admits (enter (.link least p)) other) .empty).readAt n
        frame ts =
      match Precedence.ofKind? (nextKind ts) with
      | some q => if q ∈ ps then (enter (.link least q)).readAt n frame ts else .done frame ts []
      | none => .done frame ts [] := by
  induction ps with
  | nil => cases Precedence.ofKind? (nextKind ts) <;> rfl
  | cons p ps ih =>
      rw [List.foldr_cons, readAt_ifNext, ih]
      cases next : Precedence.ofKind? (nextKind ts) with
      | none => simp [Precedence.admits, next]
      | some q =>
          by_cases same : q = p
          · subst same
            simp [Precedence.admits, next]
          · simp [Precedence.admits, next, same]

omit claims in
/-- A chain goes on where an operator of it comes next. -/
theorem readAt_links (least : Precedence) (frame : List Tree) (ts : List Token) :
    (links least).readAt n frame ts =
      match Precedence.ofKind? (nextKind ts) with
      | some q => if least.rank ≤ q.rank then (enter (.link least q)).readAt n frame ts
          else .done frame ts []
      | none => .done frame ts [] := by
  have chain := readAt_links_of (n := n) least least.upward frame ts
  simp only [Precedence.mem_upward] at chain
  exact chain

omit claims in
/-- The next operator, if the chain takes it, may have what is in the frame as its left operand. -/
def Linkable (least : Precedence) : Assertion := fun nodes next =>
  nodes ∈ exprAt (.binary least) ∧
    ∀ q, Precedence.ofKind? next = some q → least.rank ≤ q.rank → nodes ∈ exprAt (.binary q)

theorem links_turns (least : Precedence) :
    (links least).Turns n (Linkable least) (Chained least) := by
  intro frame ts frame' rest sound ⟨member, linkable⟩ done
  rw [readAt_links] at done
  cases next : Precedence.ofKind? (nextKind ts) with
  | none =>
      simp only [next] at done
      cases done
      exact ⟨sound, member, by simp [next]⟩
  | some q =>
      simp only [next] at done
      split at done
      · rename_i taken
        exact claims.link least q taken _ _ _ _ sound
          ⟨linkable q next taken, by simp [Precedence.admits, next]⟩ done
      · rename_i stopped
        cases done
        refine ⟨sound, member, fun q' same => ?_⟩
        obtain rfl : q = q' := by simpa [next] using same
        omega

theorem binary_turns (least : Precedence) : (binary least).Turns n (In 1) (Chained least) := by
  refine ((operand_turns claims).mono (fun _ _ h => h) fun nodes next member => ?_).seq
    (links_turns claims least)
  have tight (q : Precedence) : nodes ∈ exprAt (.binary q) :=
    exprAt_mono (by cases q <;> decide) member
  exact ⟨tight least, fun q _ _ => tight q⟩

/-- The right operand of an operator, behind which no tighter operator stands. -/
def Righted (own : Precedence) : Assertion := fun nodes next =>
  nodes ∈ exprAbove (.binary own) ∧
    ∀ q, Precedence.ofKind? next = some q → q.rank ≤ own.rank

omit claims in
theorem exprAt_le_above {l l' : Level} (h : l.rank < l'.rank) : exprAt l' ≤ exprAbove l :=
  single_mono fun _ holds => ⟨holds.1, h.trans_le holds.2⟩

theorem rightOperand_turns (own : Precedence) :
    (rightOperand own).Turns n (In 1) (Righted own) := by
  unfold rightOperand
  split
  · rename_i q tighter
    have above := Precedence.rank_tighter? tighter
    refine (binary_turns claims q).mono (fun _ _ h => h) fun nodes next h => ⟨?_, fun p same => ?_⟩
    · exact exprAt_le_above (by simp only [Level.rank]; omega) h.1
    · have := h.2 p same
      omega
  · rename_i tightest
    refine (operand_turns claims).mono (fun _ _ h => h) fun nodes next h => ⟨?_, fun p _ => ?_⟩
    · exact exprAt_le_above (by cases own <;> decide) h
    · cases own <;> simp [Precedence.tighter?] at tightest
      cases p <;> decide

omit claims in
/-- An operator is read into a node that holds its level. -/
theorem operator_adds (own : Precedence) :
    (node .binaryOp (take own.admits)).Adds n (operatorAt own) := by
  refine Turns.adds ?_
  intro frame ts frame' rest sound empty done
  obtain ⟨parts, between, read, closed⟩ := seq_clean.mp done
  cases closed
  obtain ⟨t, next, admitted, rfl⟩ := token_done read
  have level : Precedence.ofKind? t.kind = some own := by simpa [Precedence.admits] using admitted
  have significant : withoutTrivia (frame ++ (leadingTrivia ts).map Tree.leaf ++ [Tree.leaf t]) =
      [Tree.leaf t] := by
    rw [withoutTrivia_append, withoutTrivia_append, show withoutTrivia frame = [] from empty,
      Tree.withoutTrivia_leaves fun _ => isTrivia_of_mem_leadingTrivia,
      Tree.withoutTrivia_leaf (isTrivia_of_afterTrivia next)]
    rfl
  have leaves :
      ∀ part ∈ frame ++ (leadingTrivia ts).map Tree.leaf ++ [Tree.leaf t], Sound part := by
    simp only [List.forall_mem_append, List.forall_mem_map, List.forall_mem_singleton]
    exact ⟨⟨sound, fun u _ => sound_leaf u⟩, sound_leaf t⟩
  constructor
  · have fits : withoutTrivia (frame ++ (leadingTrivia ts).map Tree.leaf ++ [Tree.leaf t]) ∈
        strict .binaryOp := by
      rw [significant]
      exact ⟨_, rfl, t.kind, rfl, by simp [level]⟩
    simpa using sound_ofRule fits leaves
  · refine ⟨_, rfl, rfl, ?_⟩
    rw [Tree.operator?, Tree.significant_eq]
    simp only [Tree.ofRule, significant]
    simpa [Tree.leaf, Tree.tokenKind?, Label.tokenKind?] using level

omit claims in
theorem level_operation {p : Precedence} {parts : List Tree}
    (h : withoutTrivia parts ∈ operation p) :
    (Tree.ofRule .binaryExpr parts).level = .binary p := by
  obtain ⟨_, ⟨_, ⟨l, rfl, -⟩, _, ⟨op, rfl, -, level⟩, rfl⟩, _, ⟨r, rfl, -⟩, split⟩ := h
  have significant : (Tree.ofRule .binaryExpr parts).significant = [l, op, r] := split.symm
  simp only [Tree.level, significant, level]
  rfl

theorem link_turns (least own : Precedence) (le : least.rank ≤ own.rank) :
    (link least own).Turns n
      (fun nodes next => nodes ∈ exprAt (.binary own) ∧ own.admits next) (Chained least) := by
  refine Turns.given (φ := fun _ next => own.admits next) (P := In (exprAt (.binary own))) ?_
  refine .seq (trivia_adds claims _) (.seq (operator_adds own _) (.seq (trivia_adds claims _)
    (.seq ((rightOperand_turns claims own).framed _) (.seq (.close (Q := Linkable least) ?_)
      (links_turns claims least)))))
  rintro parts next ⟨base, front, inner, split, right, looser⟩
  rw [mul_one, mul_one] at front
  have member : withoutTrivia parts ∈ operation own := split ▸ Language.append_mem_mul front right
  have at' {q : Precedence} (h : q.rank ≤ own.rank) :
      [Tree.ofRule .binaryExpr parts] ∈ exprAt (.binary q) := by
    refine ⟨_, rfl, rfl, ?_⟩
    rw [level_operation member]
    simpa [Level.rank] using h
  exact ⟨⟨own, member⟩, at' le, fun q same _ => at' (looser q same)⟩

/-! ## Conditionals and assignments -/

theorem ternary_turns : ternary.Turns n (In 1) (In (exprAt .ternary)) := by
  have condition : (binary .or).Turns n (In 1) (In (exprAt (.binary .or))) :=
    (binary_turns claims .or).mono (fun _ _ h => h) fun _ _ h => h.1
  refine condition.seq (.choose ?_ (Turns.empty.to_le (exprAt_mono (by decide))))
  refine .seq (one_adds claims .question _) (.seq (trivia_adds claims _)
    (.seq (claims.ternary.adds _) (.seq (one_adds claims .colon _) (.seq (trivia_adds claims _)
      (.seq (claims.ternary.adds _) (.closeAt ?_ rfl fun _ => le_rfl))))))
  rw [mul_one, mul_one]
  exact le_rfl

theorem assignment_turns : assignment.Turns n (In 1) (In expr) := by
  refine (ternary_turns claims).seq (.choose ?_ (Turns.empty.to_le (exprAt_le _)))
  have operator := claims.adds (f := node .assignmentOperator (take TokenKind.isAssignment))
    (by decide) (by decide) (.node (.token _ _))
  refine .seq (trivia_adds claims _) (.seq (operator _) (.seq (trivia_adds claims _)
    (.seq (expression_adds claims _) ?_)))
  rw [mul_one, mul_one]
  have close : (Form.close .assignmentExpr).Turns n (In (strict .assignmentExpr))
      (In (exprAt .assignment)) := .closeAt le_rfl rfl fun _ => Nat.zero_le _
  exact close.to_le (exprAt_le _)

/-! ## Statements -/

omit claims in
/-- A statement that ends with one that an `else` may stand behind is another such. -/
theorem settled_of_last {rule : Rule} {parts : List Tree} {K : Language Tree}
    (isStmt : rule.isStatement) (ends : withoutTrivia parts ∈ K * settled)
    (isElse : rule = .ifStatement → ∃ child ∈ withoutTrivia parts, child.label = .token .kwElse) :
    [Tree.ofRule rule parts] ∈ settled := by
  refine ⟨_, rfl, isStmt, fun dangling => ?_⟩
  obtain ⟨k, -, _, ⟨last, rfl, -, notDangling⟩, split⟩ := ends
  cases dangling with
  | noElse _ isIf noElse =>
      obtain ⟨child, member, label⟩ := isElse (by simpa [Tree.ofRule] using isIf)
      exact noElse child member label
  | last _ child _ final below =>
      rw [show (Tree.ofRule rule parts).significant = k ++ [last] from split.symm] at final
      obtain rfl : last = child := by simpa using final
      exact notDangling below

omit claims in
/-- A statement that ends with a token may stand before an `else`. -/
theorem settled_of_ends {rule : Rule} (isStmt : rule.isStatement) (notIf : rule ≠ .ifStatement)
    (ends : Ends (fun label => ∃ k, label = .token k) (production rule)) {t : Tree}
    (sound : Sound t) (label : t.label = .rule rule) : [t] ∈ settled := by
  refine ⟨t, rfl, by rw [label]; exact isStmt, fun dangling => ?_⟩
  obtain ⟨init, last, split, k, token⟩ := ends _ (sound.shaped t t.mem_nodes_self rule label)
  cases dangling with
  | noElse _ isIf _ => exact notIf (by simpa [label] using isIf)
  | last _ child _ final below =>
      rw [split] at final
      obtain rfl : last = child := by simpa using final
      cases below with
      | noElse _ isIf _ => simp [token] at isIf
      | last _ _ isStmt _ _ => simp [token, Label.isStatement] at isStmt

/-- A statement at the end of another, with what may stand behind it. -/
def StatedBehind (K : Language Tree) : Assertion := fun nodes next =>
  nodes ∈ K * stmt ∧ (next = .kwElse → nodes ∈ K * settled)

theorem statement_turns (P : Language Tree) : statement.Turns n (In P) (StatedBehind P) :=
  (claims.statement.framed P).mono (fun _ _ holds => holds)
    fun _ _ ⟨_, inP, _, split, isStmt, isSettled⟩ =>
      ⟨split ▸ Language.append_mem_mul inP isStmt, fun isElse =>
        split ▸ Language.append_mem_mul inP (isSettled isElse)⟩

omit claims in
/-- A statement that is known by its production to end with a token. -/
theorem Adds.stated {rule : Rule} (h : f.Adds n (nodeOf rule)) (isStmt : rule.isStatement)
    (notIf : rule ≠ .ifStatement)
    (ends : Ends (fun label => ∃ k, label = .token k) (production rule)) :
    f.Turns n (In 1) Stated := by
  intro frame ts frame' rest sound empty done
  obtain ⟨sound', t, only, label⟩ := h.turns frame ts frame' rest sound empty done
  have isSound : Sound t := by
    refine sound' t ?_
    have inside : t ∈ withoutTrivia frame' := by simp [only]
    exact (List.mem_filter.mp inside).1
  have settles : [t] ∈ settled := settled_of_ends isStmt notIf ends isSound label
  rw [only]
  exact ⟨sound', settled_le settles, fun _ => settles⟩

omit claims in
/-- A node of its own over what leads to a statement. -/
theorem Turns.stated {rule : Rule} (h : f.Turns n (In 1) Q)
    (close : ∀ parts next, Q (withoutTrivia parts) next → withoutTrivia parts ∈ strict rule ∧
      Stated [.ofRule rule parts] next) : (node rule f).Turns n (In 1) Stated := by
  refine ((h.seq (.close close)).framed 1).mono (fun _ _ holds => holds) ?_
  rintro _ _ ⟨_, rfl, _, rfl, holds⟩
  exact holds

omit claims in
theorem stated_of_last {rule : Rule} {parts : List Tree} {next : TokenKind}
    (le : K * stmt ≤ strict rule) (isStmt : rule.isStatement) (notIf : rule ≠ .ifStatement)
    (holds : StatedBehind K (withoutTrivia parts) next) :
    withoutTrivia parts ∈ strict rule ∧ Stated [.ofRule rule parts] next :=
  ⟨le holds.1, ⟨_, rfl, isStmt⟩, fun isElse =>
    settled_of_last isStmt (holds.2 isElse) fun isIf => absurd isIf notIf⟩

theorem condition_adds : condition.Adds n (tok .lParen * expr * tok .rParen) :=
  claims.adds (by decide) (by decide) condition_appends

theorem whileStatement_turns : whileStatement.Turns n (In 1) Stated := by
  have parts := Turns.seq (one_adds claims .kwWhile 1) (.seq (condition_adds claims _)
    (.seq (trivia_adds claims _) (statement_turns claims _)))
  refine parts.stated fun _ _ => stated_of_last ?_ rfl (by decide)
  rw [one_mul, mul_one]
  exact le_rfl

theorem ifStatement_turns : ifStatement.Turns n (In 1) Stated := by
  -- Either an `else` was read, or none comes next.
  have branches (K : Language Tree) :
      (trivia >> statement >> whenNext (· == .kwElse) (one .kwElse >> trivia >> statement)).Turns n
        (In K) fun nodes next => StatedBehind (K * settled * tok .kwElse) nodes next ∨
          nodes ∈ K * stmt ∧ next ≠ .kwElse := by
    refine .seq (trivia_adds claims _) (.seq (statement_turns claims _) (.ifNext ?_ ?_))
    · have isElse : (one .kwElse >> trivia >> statement).Turns n (In (K * settled)) _ :=
        .seq (one_adds claims .kwElse _) (.seq (trivia_adds claims _) (statement_turns claims _))
      rw [mul_one] at isElse ⊢
      refine isElse.mono (fun nodes next ⟨holds, isElse⟩ => holds.2 (by simpa using isElse))
        fun _ _ holds => .inl holds
    · rw [mul_one]
      exact Turns.empty.mono
        (fun nodes next ⟨holds, noElse⟩ => .inr ⟨holds.1, by simpa using noElse⟩)
        fun _ _ holds => holds
  have whole := Turns.seq (one_adds claims .kwIf 1) (.seq (condition_adds claims _) (branches _))
  rw [one_mul] at whole
  refine whole.stated fun parts next holds => ?_
  have fits (L : Language Tree) (le : L ≤ stmt + settled * (tok .kwElse * stmt)) :
      tok .kwIf * (tok .lParen * expr * tok .rParen) * L ≤ strict .ifStatement :=
    mul_le_mul_right le _
  rcases holds with ⟨member, settles⟩ | ⟨member, noElse⟩
  · refine ⟨?_, ⟨_, rfl, rfl⟩, fun isElse => settled_of_last rfl (settles isElse) fun _ => ?_⟩
    · rw [mul_assoc _ settled, mul_assoc, mul_assoc settled] at member
      exact fits _ le_add_self member
    · obtain ⟨_, ⟨k, -, _, ⟨t, rfl, label⟩, rfl⟩, s, -, split⟩ := member
      exact ⟨t, by simp [← split], label⟩
  · exact ⟨fits _ le_self_add member, ⟨_, rfl, rfl⟩, fun isElse => absurd isElse noElse⟩

theorem declarators_keeps : declarators.Keeps n :=
  typeRef_keeps.seq (claims.keeps (by decide) (by decide))

theorem variableStatement_keeps : variableStatement.Keeps n :=
  .node ((declarators_keeps claims).seq (claims.keeps rfl rfl)) rfl

theorem header_keeps :
    (choose (typeParts >> one .identifier) (· == .colon) eachHeader classicHeader).Keeps n := by
  have humble {f : Form} (h : f.humble) (productive : f.productive) := claims.keeps h productive
  refine .choose ?_ ?_
  · exact (humble rfl rfl).seq ((Keeps.node (typeRef_keeps.seq (humble rfl rfl)) rfl).seq
      (humble (by decide) (by decide)))
  · refine .seq (.choose (humble rfl rfl) (.seq (humble rfl rfl) (.node (.choose
      (declarators_keeps claims) (humble (by decide) (by decide))) rfl)))
      (humble (by decide) (by decide))

theorem forStatement_turns : forStatement.Turns n (In 1) Stated := by
  have header := (header_keeps claims).adds (by decide) clauses_append
  have parts := Turns.seq (one_adds claims .kwFor 1) (.seq (one_adds claims .lParen _)
    (.seq (header _) (.seq (one_adds claims .rParen _) (.seq (trivia_adds claims _)
      (statement_turns claims _)))))
  refine parts.stated fun _ _ => stated_of_last ?_ rfl (by decide)
  rw [one_mul, mul_one]
  exact le_rfl

theorem anyStatement_turns : anyStatement.Turns n (In 1) Stated := by
  have token {K : Language Tree} {k : TokenKind} :
      Ends (fun label => ∃ k, label = .token k) (K * tok k) := ends_mul (ends_tok ⟨k, rfl⟩)
  refine .choose ?_ (.choose ?_ (.choose ?_ (.choose ?_ (.choose ?_ (.choose ?_ ?_)))))
  · exact (claims.adds (by decide) (by decide) block_appends).stated rfl (by decide) token
  · exact ifStatement_turns claims
  · exact forStatement_turns claims
  · exact whileStatement_turns claims
  · exact (claims.adds (by decide) (by decide) returnStatement_appends).stated rfl (by decide) token
  · exact ((variableStatement_keeps claims).adds (by decide) variableStatement_appends).stated rfl
      (by decide) token
  · exact (claims.adds (by decide) (by decide) expressionStatement_appends).stated rfl (by decide)
      token

end

/-! ## All levels -/

theorem typeArguments_keep (claims : Claims n) : typeArguments.Keeps n :=
  claims.keeps (by decide) (by decide)

/-- What is claimed of entries holds with any number of levels left. -/
theorem claims_hold (n : Nat) : Claims n := by
  induction n with
  | zero =>
      constructor
      case cast => exact fun _ _ _ _ _ _ _ done => by simp at done
      case link => exact fun _ _ _ _ _ _ _ _ _ done => by simp at done
      case typeArguments => exact fun _ _ _ _ _ done => by simp at done
      all_goals exact fun _ _ _ _ _ _ done => by simp at done
  | succ n claims =>
      exact {
        statement := anyStatement_turns claims
        assignment := assignment_turns claims
        ternary := ternary_turns claims
        unary := unary_turns claims
        cast := fun _ _ _ _ => cast_sound claims
        link := link_turns claims
        suffix := suffix_turns claims
        typeArguments := typeArguments_keep claims }

/-- The only refined nodes of items that are closed in no entry are the types of parameters. -/
theorem function_keeps (claims : Claims n) : function.Keeps n := by
  have humble {f : Form} (h : f.humble) (productive : f.productive) := claims.keeps h productive
  have parameter : (trivia >> typeRef >> one .identifier).Keeps n :=
    (humble rfl rfl).seq (typeRef_keeps.seq (humble rfl rfl))
  have parameters : parameters.Keeps n :=
    .node (parameter.seq (keeps_repeated (by decide) ((humble rfl rfl).seq parameter))) rfl
  exact .node (.seq (humble rfl rfl) (.seq (humble rfl rfl) (.seq (humble rfl rfl)
    (.seq (.choose (humble rfl rfl) (.seq (humble rfl rfl) parameters))
      (humble (by decide) (by decide)))))) rfl

theorem script_keeps (n : Nat) : script.Keeps n := by
  have humble {f : Form} (h : f.humble) (productive : f.productive) :=
    (claims_hold n).keeps h productive
  have item : item.Keeps n :=
    .choose (humble rfl rfl) (.choose (humble (by decide) (by decide)) (.choose
      (humble (by decide) (by decide)) (.choose (function_keeps (claims_hold n))
        (humble (by decide) (by decide)))))
  exact (humble rfl rfl).seq (keeps_repeated (by decide) (item.recover.seq (humble rfl rfl)))

/-- **Soundness.**  A script that is read without a report is made of items, and all nodes in it are
instances of their phrases. -/
theorem script_sound {ts rest : List Token} {parts : List Tree}
    (done : script.readAt n [] ts = .done parts rest []) :
    withoutTrivia parts ∈ strict .script ∧ ∀ part ∈ parts, Sound part := by
  obtain ⟨sound, member⟩ := ((script_keeps n).adds script_productive script_appends).turns [] ts
    parts rest (by simp) rfl done
  exact ⟨member, sound⟩

end Form

end Grammar

namespace Parsed

open Grammar (Grammatical Form)

/-- **Grammar soundness.**  In the tree of a script in order every node is an instance of its
phrase, and no tokens are skipped. -/
theorem ofTokens_grammatical {limit : Nat} {ts : List Token} (ok : (ofTokens limit ts).isOk) :
    (ofTokens limit ts).root.label = .rule .script ∧ Grammatical (ofTokens limit ts).root := by
  obtain ⟨parts, reported, done, whole⟩ := ofTokens_eq limit ts
  rw [isOk_iff, whole, List.map_eq_nil_iff] at ok
  subst ok
  obtain ⟨fits, sound⟩ := Form.script_sound done
  rw [whole]
  cases parts with
  | nil =>
      refine ⟨rfl, fun node member rule label => ?_⟩
      obtain rfl : node = rootOf (endSpan ts) [] := by
        simpa [rootOf, Tree.nodes, Tree.nodesAll] using member
      obtain rfl : Rule.script = rule := by simpa [rootOf] using label
      exact ⟨by decide, fits⟩
  | cons part parts =>
      rw [rootOf_cons]
      exact ⟨rfl, (Grammar.sound_ofRule fits sound).grammatical⟩

/-- A script with operators of several levels and an `else`. -/
theorem ofTokens_grammatical_branches :
    let ts := Token.ofText "process p { if (a) b = -c + d; else e(); }".toList
    (ofTokens 6 ts).isOk = true ∧ (ofTokens 6 ts).root.label = .rule .script ∧
      Grammatical (ofTokens 6 ts).root := by
  intro ts
  have ok : (ofTokens 6 ts).isOk = true := by decide +kernel
  exact ⟨ok, ofTokens_grammatical ok⟩

end Parsed

end QuestScript
