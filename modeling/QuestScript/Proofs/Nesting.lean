/-
# QuestScript.Proofs.Nesting -- how deep trees are under a limit on nesting

Levels of nesting are charged in two ways.  Statements, operators before an operand and casts
are read one level deeper from beginning to end.  The links of a chain of operators or of
suffixes are charged one by one and given back where the chain ends; but a link is put around
an operand that has been read, and the levels of that operand are given back by then.

`Form.weigh` computes from the levels left how many counted nodes a form puts around what is
in the frame, and how many stand on a path in what it adds.  What it says of an entry is given
by a `Gauge`; a gauge is `Kept` if the grammar keeps to it, and then it is right for whatever
is read (`Form.readAt_weighs`).  One gauge counts what is read one level deeper from beginning
to end: there are no more such nodes on a path than the limit, and one for the body of a
process.  The other counts links as well, and the bound is quadratic (`Parsed.ofTokens_nesting`).
-/
import Mathlib.Order.Lattice
import QuestScript.Proofs.Completion

namespace QuestScript

set_option autoImplicit false

namespace Tree

/-! ## Paths -/

mutual

/-- The labels from the root to each leaf. -/
def paths : Tree → List (List Label)
  | ⟨label, _, children, _⟩ =>
      if children.isEmpty then [[label]] else (pathsAll children).map (label :: ·)

/-- The paths of several trees. -/
def pathsAll : List Tree → List (List Label)
  | [] => []
  | t :: ts => t.paths ++ pathsAll ts

end

/-- The label is of a rule that is counted. -/
def isCounted (counts : Rule → Bool) : Label → Bool
  | .token _ => false
  | .rule rule => counts rule

mutual

/-- The most counted nodes on a path from the root to a leaf. -/
def load (counts : Rule → Bool) : Tree → Nat
  | ⟨label, _, children, _⟩ => loadAll counts children + (isCounted counts label).toNat

/-- The most counted nodes on a path in several trees. -/
def loadAll (counts : Rule → Bool) : List Tree → Nat
  | [] => 0
  | t :: ts => max (t.load counts) (loadAll counts ts)

end

variable {counts : Rule → Bool}

mutual

theorem countP_le_load : (t : Tree) → (path : List Label) → path ∈ t.paths →
    path.countP (isCounted counts) ≤ t.load counts
  | ⟨label, span, children, text⟩, path, member => by
      have below := countP_le_loadAll children
      rw [paths] at member
      rw [load]
      split at member
      · obtain rfl := List.mem_singleton.mp member
        simp only [List.countP_singleton]
        cases isCounted counts label <;> simp
      · obtain ⟨rest, inside, rfl⟩ := List.mem_map.mp member
        have := below rest inside
        rw [List.countP_cons]
        cases isCounted counts label <;> simp <;> omega

theorem countP_le_loadAll : (ts : List Tree) → (path : List Label) → path ∈ pathsAll ts →
    path.countP (isCounted counts) ≤ loadAll counts ts
  | [], path, member => by simp [pathsAll] at member
  | t :: ts, path, member => by
      rw [loadAll]
      rcases List.mem_append.mp member with first | later
      · exact Nat.le_trans (countP_le_load t path first) (Nat.le_max_left ..)
      · exact Nat.le_trans (countP_le_loadAll ts path later) (Nat.le_max_right ..)

end

@[simp] theorem loadAll_append (ts us : List Tree) :
    loadAll counts (ts ++ us) = max (loadAll counts ts) (loadAll counts us) := by
  induction ts with
  | nil => simp [loadAll]
  | cons t ts ih => rw [List.cons_append, loadAll, loadAll, ih, Nat.max_assoc]

@[simp] theorem loadAll_leaves (ts : List Token) : loadAll counts (ts.map leaf) = 0 := by
  induction ts with
  | nil => rfl
  | cons t ts ih => simp [loadAll, ih, leaf, load, isCounted]

@[simp] theorem loadAll_ofRule (rule : Rule) (parts : List Tree) :
    loadAll counts [ofRule rule parts] = loadAll counts parts + (counts rule).toNat := by
  simp [loadAll, ofRule, load, isCounted]

end Tree

namespace Grammar

open QuestScript.Tree (loadAll)

/-! ## Weights -/

/-- What a form does to a frame: the nodes it puts around what is there, and the nodes on a path
in what it adds, those around it included. -/
structure Weight where
  lift : Nat
  height : Nat
deriving DecidableEq, Repr

namespace Weight

/-- Nothing is added. -/
def zero : Weight := ⟨0, 0⟩

/-- The nodes on a path in the frame, where there were `load` before. -/
def on (w : Weight) (load : Nat) : Nat := max (load + w.lift) w.height

/-- One after the other. -/
def andThen (w v : Weight) : Weight := ⟨w.lift + v.lift, v.on w.height⟩

/-- Either of the two. -/
def join (w v : Weight) : Weight := ⟨max w.lift v.lift, max w.height v.height⟩

/-- The first weighs no more than the second. -/
structure Le (w v : Weight) : Prop where
  lift : w.lift ≤ v.lift
  height : w.height ≤ v.height

instance (w v : Weight) : Decidable (w.Le v) :=
  decidable_of_iff (w.lift ≤ v.lift ∧ w.height ≤ v.height)
    ⟨fun ⟨l, h⟩ => ⟨l, h⟩, fun ⟨l, h⟩ => ⟨l, h⟩⟩

variable {w v : Weight}

theorem Le.on_le (h : w.Le v) (load : Nat) : w.on load ≤ v.on load := by
  have := h.lift
  have := h.height
  simp only [on]
  omega

theorem on_andThen (w v : Weight) (load : Nat) : (w.andThen v).on load = v.on (w.on load) := by
  simp only [on, andThen]
  omega

theorem le_join_left (w v : Weight) : w.Le (w.join v) :=
  ⟨Nat.le_max_left .., Nat.le_max_left ..⟩

theorem le_join_right (w v : Weight) : v.Le (w.join v) :=
  ⟨Nat.le_max_right .., Nat.le_max_right ..⟩

theorem on_mono (w : Weight) {m n : Nat} (h : m ≤ n) : w.on m ≤ w.on n := by
  simp only [on]
  omega

theorem Le.trans {x : Weight} (h : w.Le v) (h' : v.Le x) : w.Le x :=
  ⟨Nat.le_trans h.lift h'.lift, Nat.le_trans h.height h'.height⟩

theorem Le.andThen (h : w.Le v) (x : Weight) : (w.andThen x).Le (v.andThen x) where
  lift := Nat.add_le_add_right h.lift _
  height := x.on_mono h.height

theorem le_of_height {m n : Nat} (around k : Nat) (h : m ≤ n) :
    (Weight.mk around (m + k)).Le ⟨around, n + k⟩ :=
  ⟨Nat.le_refl _, Nat.add_le_add_right h k⟩

theorem andThen_assoc (w v x : Weight) :
    (w.andThen v).andThen x = w.andThen (v.andThen x) := by
  simp only [Weight.andThen, on, mk.injEq]
  omega

theorem le_andThen (w v : Weight) : w.Le (w.andThen v) where
  lift := Nat.le_add_right ..
  height := (Nat.le_add_right ..).trans (Nat.le_max_left ..)

/-- Nodes are added to the frame, with as many counted ones on a path. -/
def added (height : Nat) : Weight := ⟨0, height⟩

@[simp] theorem added_zero : added 0 = zero := rfl

@[simp] theorem andThen_zero (w : Weight) : w.andThen zero = w := by
  simp [andThen, zero, on]

@[simp] theorem zero_andThen_added (m : Nat) : zero.andThen (added m) = added m := by
  simp [andThen, zero, added, on]

@[simp] theorem added_andThen_added (m n : Nat) :
    (added m).andThen (added n) = added (max m n) := by
  simp [andThen, added, on]

@[simp] theorem added_join_added (m n : Nat) : (added m).join (added n) = added (max m n) := by
  simp [join, added]

@[simp] theorem zero_join (w : Weight) : zero.join w = w := by
  simp [join, zero]

@[simp] theorem join_zero (w : Weight) : w.join zero = w := by
  simp [join, zero]

@[simp] theorem join_self (w : Weight) : w.join w = w := by
  simp [join]

@[simp] theorem added_on_zero (m : Nat) : (added m).on 0 = m := by
  simp [added, on]

@[simp] theorem zero_on_zero : zero.on 0 = 0 := rfl

end Weight

/-! ## Gauges -/

namespace Gauge

/-- Nodes that are read one level deeper from beginning to end. -/
def isNested : Rule → Bool
  | .prefixExpr | .castExpr => true
  | rule => rule.isStatement

/-- Nodes over the links of a chain, of operators or of suffixes. -/
def isLink : Rule → Bool
  | .binaryExpr | .postfixExpr | .arrayAccessExpr | .methodInvoke => true
  | _ => false

/-- Nodes that a level of nesting is charged for. -/
def isCharged (rule : Rule) : Bool := isNested rule || isLink rule

end Gauge

/-- What each kind of entry weighs with some levels left inside it, links of chains counted or
not. -/
structure Gauge where
  chains : Bool
  /-- The counted nodes on a path in a statement. -/
  statement : (levels : Nat) → Nat
  expression : (levels : Nat) → Weight
  /-- An operand, with the operators before and the suffixes behind it. -/
  operand : (levels : Nat) → Weight
  /-- An operator before its operand, or a cast, and the operand. -/
  operator : (levels : Nat) → Weight
  link : (levels : Nat) → Weight
  suffix : (levels : Nat) → Weight

namespace Gauge

variable (G : Gauge)

/-- The nodes that are counted. -/
def counts (rule : Rule) : Bool := isNested rule || G.chains && isLink rule

/-- What an entry weighs with some levels left inside it. -/
def within (levels : Nat) : Entry → Weight
  | .statement => .added (G.statement levels)
  | .assignment | .ternary => G.expression levels
  | .unary | .cast => G.operator levels
  | .link _ _ => G.link levels
  | .suffix => G.suffix levels
  | .typeArguments => .zero

/-- What an entry weighs with some levels left before it. -/
def enter : (levels : Nat) → Entry → Weight
  | 0, _ => .zero
  | levels + 1, entry => G.within levels entry

/-- The counted nodes on a path in an entry with a frame of its own. -/
def alone (levels : Nat) (entry : Entry) : Nat := (G.enter levels entry).on 0

theorem counts_free {rule : Rule} (free : isCharged rule = false) : G.counts rule = false := by
  simp only [isCharged, Bool.or_eq_false_iff] at free
  simp [counts, free]

theorem counts_nested {rule : Rule} (nested : isNested rule = true) : G.counts rule = true := by
  simp [counts, nested]

theorem counts_link {rule : Rule} (nested : isNested rule = false) (link : isLink rule = true) :
    G.counts rule = G.chains := by
  simp [counts, nested, link]

end Gauge

namespace Form

/-- What a form weighs with some levels left. -/
def weigh (G : Gauge) (levels : Nat) : Form → Weight
  | .empty | .trivia | .token _ _ | .string _ | .refuse _ => .zero
  | .seq first second => (first.weigh G levels).andThen (second.weigh G levels)
  | .frame body => .added ((body.weigh G levels).on 0)
  | .close rule => ⟨(G.counts rule).toNat, 0⟩
  | .choose _ _ yes no => (yes.weigh G levels).join (no.weigh G levels)
  | .repeated _ _ body => body.weigh G levels
  | .enter entry => G.enter levels entry
  | .recover body skip => (body.weigh G levels).join (skip.weigh G levels)

/-- The form adds to the frame and leaves what is there as it is. -/
def appends : Form → Bool
  | .close _ => false
  | .enter entry => entry == .typeArguments
  | .seq first second => first.appends && second.appends
  | .choose _ _ yes no => yes.appends && no.appends
  | .repeated _ _ body => body.appends
  | .recover body skip => body.appends && skip.appends
  | _ => true

/-- Repetitions only add to the frame. -/
def growing : Form → Bool
  | .seq first second => first.growing && second.growing
  | .frame body => body.growing
  | .choose _ _ yes no => yes.growing && no.growing
  | .repeated _ _ body => body.appends && body.growing
  | .recover body skip => body.growing && skip.growing
  | _ => true

end Form

theorem Entry.form_growing (entry : Entry) : entry.form.growing := by
  cases entry with
  | link least own => cases least <;> cases own <;> decide
  | _ => decide

theorem Form.script_growing : script.growing := by decide

/-- The grammar keeps to what the gauge says of its entries. -/
def Gauge.Kept (G : Gauge) : Prop :=
  ∀ levels (entry : Entry), (entry.form.weigh G levels).Le (G.within levels entry)

namespace Form

variable {G : Gauge}

/-- What only adds to the frame puts no node around what is there. -/
theorem lift_of_appends {f : Form} (appends : f.appends) (levels : Nat) :
    (f.weigh G levels).lift = 0 := by
  induction f with
  | close rule => simp [Form.appends] at appends
  | enter entry =>
      obtain rfl : entry = .typeArguments := by simpa [Form.appends] using appends
      cases levels <;> rfl
  | seq first second ihFirst ihSecond =>
      simp only [Form.appends, Bool.and_eq_true] at appends
      simp [weigh, Weight.andThen, ihFirst appends.1, ihSecond appends.2]
  | choose look admits yes no _ ihYes ihNo =>
      simp only [Form.appends, Bool.and_eq_true] at appends
      simp [weigh, Weight.join, ihYes appends.1, ihNo appends.2]
  | recover body skip ihBody ihSkip =>
      simp only [Form.appends, Bool.and_eq_true] at appends
      simp [weigh, Weight.join, ihBody appends.1, ihSkip appends.2]
  | repeated look admits body _ ihBody => exact ihBody appends
  | _ => rfl

theorem ofToken_loads {counts : Rule → Bool} {test : Token → Option Cause}
    {atEnd : Cause} {frame frame' : List Tree} {ts rest : List Token} {reported : List Fault}
    (done : Reader.ofToken test atEnd frame ts = .done frame' rest reported) :
    loadAll counts frame' = loadAll counts frame := by
  rcases Reader.ofToken_cases test atEnd frame ts with ⟨cause, failed⟩ | ⟨t, left, -, -, read⟩
  · simp [failed] at done
  · rw [read] at done
    cases done
    have leaf : loadAll counts [Tree.leaf t] = 0 := Tree.loadAll_leaves [t]
    simp [leaf]

theorem weighs_inductive (kept : G.Kept) : Inductive fun n f frame ts => f.growing →
    ∀ frame' rest reported, f.readAt n frame ts = .done frame' rest reported →
      loadAll G.counts frame' ≤ (f.weigh G n).on (loadAll G.counts frame) where
  empty n frame ts _ frame' rest reported done := by
    cases done
    exact Nat.le_max_left ..
  trivia n frame ts _ frame' rest reported done := by
    cases done
    simp [weigh, Weight.on, Weight.zero]
  token n admits expected frame ts _ frame' rest reported done := by
    rw [ofToken_loads done]
    exact Nat.le_max_left ..
  string n expected frame ts _ frame' rest reported done := by
    rw [ofToken_loads done]
    exact Nat.le_max_left ..
  refuse n expected frame ts _ frame' rest reported done := by simp at done
  close n rule frame ts _ frame' rest reported done := by
    cases done
    rw [Tree.loadAll_ofRule]
    exact Nat.le_max_left ..
  seq n first second frame ts ihFirst ihSecond growing frame' rest reported done := by
    simp only [Form.growing, Bool.and_eq_true] at growing
    obtain ⟨middle, between, one, two, read₁, read₂, -⟩ := seq_done.mp done
    have before := ihFirst growing.1 _ _ _ read₁
    have behind := ihSecond _ _ _ read₁ growing.2 _ _ _ read₂
    rw [weigh, Weight.on_andThen]
    exact behind.trans (Weight.on_mono _ before)
  frame n body outer ts ih growing frame' rest reported done := by
    obtain ⟨inner, read, rfl⟩ := Outcome.into_eq_done.mp done
    have inside := ih growing _ _ _ read
    rw [Tree.loadAll_append]
    simp only [weigh, Weight.added, Weight.on, loadAll] at inside ⊢
    omega
  choose n look admits yes no frame ts _ ihYes ihNo growing frame' rest reported done := by
    simp only [Form.growing, Bool.and_eq_true] at growing
    rw [readAt_choose] at done
    split at done
    · rename_i looked
      exact (ihYes looked growing.1 _ _ _ done).trans ((Weight.le_join_left _ _).on_le _)
    · rename_i failed
      exact (ihNo (by simpa using failed) growing.2 _ _ _ done).trans
        ((Weight.le_join_right _ _).on_le _)
  stop n look admits body frame ts productive _ stopped _ frame' rest reported done := by
    simp only [readAt_repeated productive, stopped, Bool.false_eq_true, if_false] at done
    cases done
    simp only [Weight.on]
    omega
  round n look admits body frame ts productive _ looked ihBody ihRest growing frame' rest reported
      done := by
    have parts := growing
    simp only [Form.growing, Bool.and_eq_true] at parts
    have flat := lift_of_appends (G := G) parts.1 n
    rw [readAt_repeated productive, if_pos looked] at done
    obtain ⟨middle, between, one, two, read₁, read₂, -⟩ := Outcome.andThen_eq_done.mp done
    have once := ihBody parts.2 _ _ _ read₁
    have again := ihRest _ _ _ read₁ growing _ _ _ read₂
    simp only [weigh, Weight.on, flat] at once again ⊢
    omega
  tooDeep entry frame ts _ frame' rest reported done := by simp at done
  enter n entry frame ts ih _ frame' rest reported done :=
    (ih entry.form_growing _ _ _ done).trans ((kept n entry).on_le _)
  recover n body skip frame ts ihBody ihSkip growing frame' rest reported done := by
    simp only [Form.growing, Bool.and_eq_true] at growing
    rcases Outcome.orElse_eq_done.mp done with read | ⟨fault, one, two, failed, read, -⟩
    · exact (ihBody growing.1 _ _ _ read).trans ((Weight.le_join_left _ _).on_le _)
    · exact (ihSkip _ _ failed growing.2 _ _ _ read).trans ((Weight.le_join_right _ _).on_le _)

/-- **Reading adds what a form weighs**, and no more, whatever is read and reported. -/
theorem readAt_weighs (kept : G.Kept) {f : Form} (productive : f.productive) (growing : f.growing)
    {n : Nat} {frame frame' : List Tree} {ts rest : List Token} {reported : List Fault}
    (done : f.readAt n frame ts = .done frame' rest reported) :
    loadAll G.counts frame' ≤ (f.weigh G n).on (loadAll G.counts frame) :=
  readAt_induct (weighs_inductive kept) n productive frame ts growing frame' rest reported done

end Form

/-! ## What the forms of the grammar weigh -/

namespace Form

open Weight (added zero)

variable (G : Gauge) (levels : Nat)

@[simp] theorem weigh_empty : empty.weigh G levels = zero := rfl

@[simp] theorem weigh_trivia : trivia.weigh G levels = zero := rfl

@[simp] theorem weigh_token (admits : TokenKind → Bool) (expected : String) :
    (token admits expected).weigh G levels = zero := rfl

@[simp] theorem weigh_one (kind : TokenKind) : (one kind).weigh G levels = zero := rfl

@[simp] theorem weigh_take (admits : TokenKind → Bool) : (take admits).weigh G levels = zero := rfl

@[simp] theorem weigh_takeWhile (admits : TokenKind → Bool) :
    (takeWhile admits).weigh G levels = zero := rfl

@[simp] theorem weigh_string (expected : String) :
    (string expected).weigh G levels = zero := rfl

@[simp] theorem weigh_refuse (expected : String) :
    (refuse expected).weigh G levels = zero := rfl

@[simp] theorem weigh_enter (entry : Entry) :
    (enter entry).weigh G levels = G.enter levels entry := rfl

@[simp] theorem weigh_seq (first second : Form) : (first >> second).weigh G levels =
    (first.weigh G levels).andThen (second.weigh G levels) := rfl

@[simp] theorem weigh_frame (body : Form) :
    (frame body).weigh G levels = added ((body.weigh G levels).on 0) := rfl

@[simp] theorem weigh_node (rule : Rule) (body : Form) : (node rule body).weigh G levels =
    added ((body.weigh G levels).on 0 + (G.counts rule).toNat) := by
  rw [node, weigh_frame, weigh_seq, Weight.on_andThen]
  simp [Weight.on, weigh]

@[simp] theorem weigh_choose (look : Form) (admits : TokenKind → Bool) (yes no : Form) :
    (choose look admits yes no).weigh G levels =
      (yes.weigh G levels).join (no.weigh G levels) := rfl

@[simp] theorem weigh_ifNext (admits : TokenKind → Bool) (yes no : Form) :
    (ifNext admits yes no).weigh G levels = (yes.weigh G levels).join (no.weigh G levels) := rfl

@[simp] theorem weigh_whenNext (admits : TokenKind → Bool) (body : Form) :
    (whenNext admits body).weigh G levels = (body.weigh G levels).join zero := rfl

@[simp] theorem weigh_unlessNext (admits : TokenKind → Bool) (body : Form) :
    (unlessNext admits body).weigh G levels = zero.join (body.weigh G levels) := rfl

@[simp] theorem weigh_repeated (look : Form) (admits : TokenKind → Bool) (body : Form) :
    (repeated look admits body).weigh G levels = body.weigh G levels := rfl

@[simp] theorem weigh_whileNext (admits : TokenKind → Bool) (body : Form) :
    (whileNext admits body).weigh G levels = body.weigh G levels := rfl

@[simp] theorem weigh_recover (body skip : Form) : (recover body skip).weigh G levels =
    (body.weigh G levels).join (skip.weigh G levels) := rfl

@[simp] theorem weigh_expression :
    expression.weigh G levels = added (G.alone levels .assignment) := rfl

@[simp] theorem weigh_statement :
    statement.weigh G levels = added (G.alone levels .statement) := rfl

theorem weigh_typeParts : typeParts.weigh G levels = zero := by
  have types : G.enter levels .typeArguments = zero := by cases levels <;> rfl
  simp [typeParts, types]

theorem weigh_typeRef : typeRef.weigh G levels = zero := by
  simp +decide [typeRef, weigh_typeParts, Gauge.counts_free]

theorem weigh_close {rule : Rule} (free : Gauge.isCharged rule = false) :
    (close rule).weigh G levels = zero := by
  rw [weigh, G.counts_free free]
  rfl

theorem weigh_arguments : arguments.weigh G levels = added (G.alone levels .assignment) := by
  simp +decide [arguments, expressions, commaSeparated, Gauge.counts_free]

theorem weigh_creator : creator.weigh G levels = added (G.alone levels .assignment) := by
  simp [creator, arrayElements, expressions, commaSeparated, weigh_typeRef,
    weigh_arguments]

/-- No node of a primary is counted but those of the expressions in it. -/
theorem weigh_primary : primary.weigh G levels = added (G.alone levels .assignment) := by
  simp +decide [primary, weigh_arguments, weigh_creator, weigh_close]

/-- A statement is counted itself, and holds expressions and statements. -/
theorem weigh_anyStatement : anyStatement.weigh G levels =
    added (max (G.alone levels .assignment) (G.alone levels .statement) + 1) := by
  simp +decide [anyStatement, block, statements, ifStatement, forStatement, whileStatement,
    returnStatement, ifDeclaration, variableStatement, expressionStatement, condition,
    skippedStatement, eachHeader, classicHeader, forInit, declarators, declarator,
    expressions, commaSeparated, weigh_typeRef, Gauge.counts_nested, Gauge.counts_free]

theorem weigh_script : script.weigh G levels = added (G.alone levels .statement + 1) := by
  simp +decide [script, items, item, skippedItem, kindDeclaration, businessHeader, businessName,
    process, function, requirement, itemName, parameters, block, statements, skippedStatement,
    commaSeparated, weigh_typeRef, Gauge.counts_nested, Gauge.counts_free]

theorem weigh_operand : operand.weigh G levels =
    (G.enter levels .unary).join ((G.enter levels .cast).join
      ((added (G.alone levels .assignment)).andThen (G.enter levels .suffix))) := by
  simp [operand, suffixes, weigh_primary]

theorem weigh_links (least : Precedence) :
    (links least).weigh G levels = G.enter levels (.link .or .or) := by
  have same (own : Precedence) :
      G.enter levels (.link least own) = G.enter levels (.link .or .or) := by
    cases levels <;> rfl
  cases least <;>
    simp [links, Precedence.upward, Precedence.all, Precedence.rank, same]

/-- What an operand and a chain of operators behind it weigh. -/
theorem weigh_binary (least : Precedence) : (binary least).weigh G levels =
    (operand.weigh G levels).andThen (G.enter levels (.link .or .or)) := by
  rw [binary, weigh_seq, weigh_links]

theorem weigh_rightOperand (own : Precedence) : ((rightOperand own).weigh G levels).Le
    ((operand.weigh G levels).andThen (G.enter levels (.link .or .or))) := by
  unfold rightOperand
  split
  · rw [weigh_binary]
    exact ⟨Nat.le_refl _, Nat.le_refl _⟩
  · exact Weight.le_andThen _ _

theorem weigh_ternary : ternary.weigh G levels =
    ((operand.weigh G levels).andThen (G.enter levels (.link .or .or))).andThen
      (added (G.alone levels .ternary)) := by
  simp [ternary, weigh_binary, weigh_close, Gauge.isCharged, Gauge.isNested, Gauge.isLink,
    Rule.isStatement, Gauge.alone]

theorem weigh_assignment : assignment.weigh G levels =
    (ternary.weigh G levels).andThen (added (G.alone levels .assignment)) := by
  simp [assignment, weigh_close, Gauge.counts, Gauge.isCharged, Gauge.isNested, Gauge.isLink,
    Rule.isStatement]

/-- An operator or a cast is counted itself, and its operand has a frame of its own. -/
theorem weigh_operator : (unary.weigh G levels).Le ⟨1, (operand.weigh G levels).on 0 + 1⟩ ∧
    (cast.weigh G levels).Le ⟨1, (operand.weigh G levels).on 0 + 1⟩ := by
  have counted : G.counts .prefixExpr = true ∧ G.counts .castExpr = true :=
    ⟨G.counts_nested rfl, G.counts_nested rfl⟩
  constructor <;> constructor <;>
    simp [unary, cast, weigh_typeRef, weigh, counted, Weight.andThen, Weight.added, Weight.zero,
      Weight.on]

/-- A link of a chain of operators goes around what is in the frame and around its right
operand, and more links around both. -/
theorem weigh_link (least own : Precedence) :
    let operands := (operand.weigh G levels).andThen (G.enter levels (.link .or .or))
    ((link least own).weigh G levels).Le
      ((Weight.mk G.chains.toNat (operands.on 0 + G.chains.toNat)).andThen
        (G.enter levels (.link .or .or))) := by
  intro operands
  have right : ((rightOperand own).weigh G levels).on 0 ≤ operands.on 0 :=
    (weigh_rightOperand G levels own).on_le 0
  clear_value operands
  have counted : G.counts .binaryExpr = G.chains := G.counts_link rfl rfl
  have operator : G.counts .binaryOp = false := G.counts_free rfl
  simp only [link, weigh_seq, weigh_links, ← Weight.andThen_assoc]
  refine Weight.Le.andThen ?_ _
  constructor
  · simp [weigh, counted, Weight.andThen, Weight.added, Weight.zero]
  · simpa [weigh, counted, operator, Weight.andThen, Weight.added, Weight.zero, Weight.on]
      using right

/-- A suffix goes around what is in the frame, and more suffixes around it. -/
theorem weigh_suffix : (suffix.weigh G levels).Le
    ((Weight.mk G.chains.toNat (G.alone levels .assignment + G.chains.toNat)).andThen
      (G.enter levels .suffix)) := by
  have method : G.counts .methodInvoke = G.chains := G.counts_link rfl rfl
  have access : G.counts .arrayAccessExpr = G.chains := G.counts_link rfl rfl
  have increment : G.counts .postfixExpr = G.chains := G.counts_link rfl rfl
  have member : G.counts .primary = false := G.counts_free rfl
  have more : suffixes.weigh G levels = G.enter levels .suffix := by simp [suffixes]
  rw [suffix, weigh_seq, more]
  refine Weight.Le.andThen ?_ _
  constructor <;>
    simp [weigh_arguments, weigh, method, access, increment, member, Weight.join,
      Weight.andThen, Weight.added, Weight.zero, Weight.on]

end Form

/-! ## When a gauge is kept -/

namespace Gauge

variable {G : Gauge}

/-- What the gauge says of an entry covers what it says of what is inside, with one level less. -/
structure Balanced (G : Gauge) : Prop where
  operand : ∀ n, ((G.enter n .unary).join ((G.enter n .cast).join
    ((Weight.added (G.alone n .assignment)).andThen (G.enter n .suffix)))).Le (G.operand n)
  statement : ∀ n, max (G.alone n .assignment) (G.alone n .statement) + 1 ≤ G.statement n
  expression : ∀ n, (((G.operand n).andThen (G.enter n (.link .or .or))).andThen
    (.added (G.alone n .assignment))).Le (G.expression n)
  operator : ∀ n, (Weight.mk 1 ((G.operand n).on 0 + 1)).Le (G.operator n)
  link : ∀ n, ((Weight.mk G.chains.toNat
    (((G.operand n).andThen (G.enter n (.link .or .or))).on 0 + G.chains.toNat)).andThen
      (G.enter n (.link .or .or))).Le (G.link n)
  suffix : ∀ n, ((Weight.mk G.chains.toNat (G.alone n .assignment + G.chains.toNat)).andThen
    (G.enter n .suffix)).Le (G.suffix n)

theorem Balanced.kept (balanced : G.Balanced) : G.Kept := by
  intro n entry
  have operand : (Form.operand.weigh G n).Le (G.operand n) := by
    rw [Form.weigh_operand]
    exact balanced.operand n
  have branch : G.alone n .ternary = G.alone n .assignment := by cases n <;> rfl
  have chain := operand.andThen (G.enter n (.link .or .or))
  have ternary : (Form.ternary.weigh G n).Le (G.expression n) := by
    rw [Form.weigh_ternary, branch]
    exact (chain.andThen _).trans (balanced.expression n)
  have operator : (Weight.mk 1 ((Form.operand.weigh G n).on 0 + 1)).Le (G.operator n) :=
    (Weight.le_of_height 1 1 (operand.on_le 0)).trans (balanced.operator n)
  cases entry with
  | statement =>
      rw [Entry.form, Form.weigh_anyStatement]
      exact ⟨Nat.le_refl _, balanced.statement n⟩
  | assignment =>
      rw [Entry.form, Form.weigh_assignment, Form.weigh_ternary, branch, Weight.andThen_assoc,
        Weight.added_andThen_added, Nat.max_self]
      exact (chain.andThen _).trans (balanced.expression n)
  | ternary => exact ternary
  | unary => exact (Form.weigh_operator G n).1.trans operator
  | cast => exact (Form.weigh_operator G n).2.trans operator
  | link least own =>
      have around := Weight.le_of_height G.chains.toNat G.chains.toNat (chain.on_le 0)
      exact (Form.weigh_link G n least own).trans ((around.andThen _).trans (balanced.link n))
  | suffix => exact (Form.weigh_suffix G n).trans (balanced.suffix n)
  | typeArguments =>
      have none : Form.typeArguments.weigh G n = .zero := by
        simp [Form.typeArguments, Form.typeArgument, Form.commaSeparated, Form.weigh_typeParts]
      rw [Entry.form, none]
      exact ⟨Nat.le_refl _, Nat.le_refl _⟩

/-! ## Two gauges -/

/-- Only what is read one level deeper from beginning to end is counted: there is no more of it
on a path than levels are left. -/
def nested : Gauge where
  chains := false
  statement levels := levels + 1
  expression levels := ⟨levels, levels⟩
  operand levels := ⟨levels, levels⟩
  operator levels := ⟨1, levels + 1⟩
  link levels := ⟨0, levels⟩
  suffix levels := ⟨0, levels⟩

/-- The most charged nodes on a path in a statement, where each level may hold a chain. -/
def statementCap : Nat → Nat
  | 0 => 1
  | levels + 1 => 1 + max (levels * levels + levels) (statementCap levels)

/-- Links of chains are counted too: each level may hold a chain, and each link of a chain takes
one level, which is given back behind the chain. -/
def charged : Gauge where
  chains := true
  statement := statementCap
  expression levels := ⟨2 * levels, levels * levels + levels⟩
  operand levels := ⟨levels, levels * levels⟩
  operator levels := ⟨1, levels * levels + 1⟩
  link levels := ⟨levels + 1, levels * levels + 2 * levels + 1⟩
  suffix levels := ⟨levels + 1, levels * levels + 1⟩

theorem nested_balanced : nested.Balanced := by
  constructor <;> rintro (_ | n)
  case statement.succ => simp [nested, enter, within, alone, Weight.added, Weight.on]
  all_goals first
    | decide
    | constructor <;>
        simp [nested, enter, within, alone, Weight.join, Weight.andThen, Weight.added, Weight.on]

theorem charged_balanced : charged.Balanced := by
  constructor <;> rintro (_ | n)
  all_goals first
    | decide
    | skip
  case statement.succ =>
    have square := Nat.le_mul_self n
    simp only [charged, statementCap, enter, within, alone, Weight.added, Weight.on]
    omega
  all_goals
    have square := Nat.le_mul_self n
    constructor <;>
      simp only [charged, enter, within, alone, Weight.join, Weight.andThen, Weight.added,
        Weight.on, Bool.toNat_true, Nat.add_mul, Nat.mul_add, Nat.mul_one, Nat.one_mul] <;>
      omega

theorem counts_of_chains (rule : Rule) :
    nested.counts rule = isNested rule ∧ charged.counts rule = isCharged rule := by
  simp [counts, nested, charged, isCharged]

theorem statementCap_eq (levels : Nat) :
    statementCap levels = levels + 1 + levels * (levels - 2) := by
  induction levels with
  | zero => rfl
  | succ n ih =>
      rw [statementCap, ih]
      rcases n with _ | _ | n
      · rfl
      · rfl
      · simp only [show n + 1 + 1 - 2 = n by omega, show n + 1 + 1 + 1 - 2 = n + 1 by omega,
          Nat.add_mul, Nat.mul_add]
        omega

end Gauge

end Grammar

/-! ## Scripts -/

namespace Parsed

open Grammar (Form Gauge)
open QuestScript.Tree (isCounted)

theorem load_rootOf (counts : Rule → Bool) (free : counts .script = false) (scriptEnd : Text.Span)
    (parts : List Tree) : (rootOf scriptEnd parts).load counts = Tree.loadAll counts parts := by
  cases parts <;> simp [rootOf, Tree.ofRule, Tree.load, isCounted, free]

/-- No more nodes are counted on a path of a script than its gauge says of a statement, and one
for the body of a process or function. -/
theorem countP_le (limit : Nat) (ts : List Token) {G : Gauge} (kept : G.Kept) {path : List Label}
    (member : path ∈ (ofTokens limit ts).root.paths) :
    path.countP (isCounted G.counts) ≤ G.alone limit .statement + 1 := by
  obtain ⟨parts, reported, done, whole⟩ := ofTokens_eq limit ts
  have weighs := Form.readAt_weighs kept Form.script_productive Form.script_growing done
  rw [Form.weigh_script] at weighs
  refine (Tree.countP_le_load _ path member).trans ?_
  rw [whole, load_rootOf _ (G.counts_free rfl)]
  simpa [Grammar.Weight.on, Grammar.Weight.added, Tree.loadAll] using weighs

/-- **What a limit on nesting bounds.**  On no path from the root of a script to a leaf are there
more statements, operators before an operand and casts than the limit, and one for the body of a
process or function.  If links of chains are counted as well, there are no more than that and
a product of two numbers smaller than the limit, for what stands on either side of a link was
charged before it. -/
theorem ofTokens_nesting (limit : Nat) (ts : List Token) :
    ∀ path ∈ (ofTokens limit ts).root.paths,
      path.countP (isCounted Gauge.isNested) ≤ limit + 1 ∧
        path.countP (isCounted Gauge.isCharged) ≤ limit + 1 + (limit - 1) * (limit - 3) := by
  intro path member
  have few := countP_le limit ts Gauge.nested_balanced.kept member
  have many := countP_le limit ts Gauge.charged_balanced.kept member
  rw [funext fun rule => (Gauge.counts_of_chains rule).1] at few
  rw [funext fun rule => (Gauge.counts_of_chains rule).2] at many
  cases limit with
  | zero => exact ⟨few, many⟩
  | succ levels =>
      refine ⟨by simpa [Gauge.alone, Gauge.enter, Gauge.within, Gauge.nested,
        Grammar.Weight.on, Grammar.Weight.added] using few, ?_⟩
      have cap : Gauge.charged.alone (levels + 1) .statement = Gauge.statementCap levels := by
        simp [Gauge.alone, Gauge.enter, Gauge.within, Gauge.charged]
      rw [cap, Gauge.statementCap_eq] at many
      simp only [Nat.add_sub_cancel, show levels + 1 - 3 = levels - 2 by omega]
      omega

/-- The path to the name that is negated, in a sum with a method call. -/
theorem ofTokens_nesting_negation :
    let ts := Token.ofText "process p \x7b !a + b.c(); \x7d".toList
    let path : List Label := [.rule .script, .rule .processDecl, .rule .block,
      .rule .expressionStatement, .rule .binaryExpr, .rule .prefixExpr, .rule .primary,
      .token .identifier]
    path ∈ (ofTokens 4 ts).root.paths ∧
      path.countP (isCounted Gauge.isNested) ≤ 4 + 1 ∧
        path.countP (isCounted Gauge.isCharged) ≤ 4 + 1 + (4 - 1) * (4 - 3) := by
  intro ts path
  have member : path ∈ (ofTokens 4 ts).root.paths := by decide +kernel
  exact ⟨member, ofTokens_nesting 4 ts path member⟩

/-- With four levels as many nodes are charged on one path as may be at all: eight. -/
example : ∃ path ∈ (ofText 4 "process p \x7b (!a + b).f().g() + c + d; \x7d").root.paths,
    path.countP (isCounted Gauge.isCharged) = 8 := by
  decide +kernel

/-- The levels of an operand are given back before the links of the chain around it are charged,
so a script that is in order may have more charged nodes on a path than levels, and one: here a
block, a statement, two sums and two negations with four levels. -/
theorem ofText_chain_around_operators :
    let p := ofText 4 "process p \x7b !!a+b+c; \x7d"
    p.isOk = true ∧ ∃ path ∈ p.root.paths,
      ¬ path.countP (isCounted Gauge.isCharged) ≤ 4 + 1 := by
  decide +kernel

end Parsed

end QuestScript
