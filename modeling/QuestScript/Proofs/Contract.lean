/-
# QuestScript.Proofs.Contract -- what may be claimed of the nodes that are read

A contract says of every rule which nodes may stand under it, and of every entry of the
grammar what must stand in the frame where it is entered and what stands there behind it
(`Contract`).  Trivia is left out of account: what is told of is the significant nodes of
a frame, and the kind of the next token.

`Form.before` computes from what is to hold behind a form what must hold before it, nodes
that are closed on the way fitting their rules.  A contract is kept if each entry leads
from what it is entered with to what it promises (`Contract.Kept`), which is a matter of
the grammar alone.  Then every tree that is read without a report fits the contract
through and through: `Form.readAt_meets`.
-/
import QuestScript.Proofs.Faultless

namespace QuestScript

set_option autoImplicit false

namespace Tree

/-- Some nodes without the trivia among them. -/
def withoutTrivia (ts : List Tree) : List Tree := ts.filter fun t => !t.isTrivia

@[simp] theorem withoutTrivia_nil : withoutTrivia [] = [] := rfl

@[simp] theorem withoutTrivia_append (ts us : List Tree) :
    withoutTrivia (ts ++ us) = withoutTrivia ts ++ withoutTrivia us := List.filter_append ..

@[simp] theorem withoutTrivia_ofRule (rule : Rule) (parts : List Tree) :
    withoutTrivia [ofRule rule parts] = [ofRule rule parts] := rfl

theorem withoutTrivia_leaf {t : Token} (h : t.isTrivia = false) :
    withoutTrivia [leaf t] = [leaf t] := by
  simp [withoutTrivia, h]

theorem withoutTrivia_leaves {ts : List Token} (h : ∀ t ∈ ts, t.isTrivia) :
    withoutTrivia (ts.map leaf) = [] := by
  simpa [withoutTrivia] using h

theorem significant_eq (t : Tree) : t.significant = withoutTrivia t.children := rfl

end Tree

namespace Grammar

open QuestScript.Tree (withoutTrivia withoutTrivia_append withoutTrivia_nil)

/-- A property of the significant nodes in a frame and of the kind of the next token. -/
abbrev Assertion := List Tree → TokenKind → Prop

/-- What is claimed of the nodes of a tree and of the entries of the grammar. -/
structure Contract where
  /-- The nodes may stand under the rule. -/
  fits : Rule → List Tree → Prop
  /-- What must hold where the grammar recurs. -/
  enters : Entry → Assertion
  /-- What holds behind an entry, given the frame before it. -/
  leaves : Entry → List Tree → Assertion

variable {C : Contract}

/-- Every node of the tree fits its rule. -/
def Contract.Met (C : Contract) (t : Tree) : Prop :=
  ∀ node ∈ t.nodes, ∀ rule, node.label = .rule rule → C.fits rule node.significant

namespace Form

/-- What must hold before a form, so that `post` holds behind it if nothing is reported. -/
def before (C : Contract) : Form → Assertion → Assertion
  | .empty, post | .trivia, post => post
  | .token admits _, post => fun nodes next =>
      admits next → ∀ t : Token, t.kind = next → ∀ next', post (nodes ++ [.leaf t]) next'
  | .string _, post => fun nodes _ =>
      ∀ t : Token, t.kind = .string → closesQuote t.text → ∀ next', post (nodes ++ [.leaf t]) next'
  | .refuse _, _ => fun _ _ => True
  | .seq first second, post => first.before C (second.before C post)
  | .frame body, post => fun nodes next =>
      body.before C (fun inner next' => post (nodes ++ inner) next') [] next
  | .close rule, post => fun nodes next =>
      C.fits rule nodes ∧ ∀ parts, withoutTrivia parts = nodes → post [.ofRule rule parts] next
  | .choose look admits yes no, post => fun nodes next =>
      ((look.isEmpty → admits next) → yes.before C post nodes next) ∧
        ((look.isEmpty → admits next = false) → no.before C post nodes next)
  | .repeated look admits body, post => fun nodes next =>
      ∃ keeps : Assertion, keeps nodes next ∧
        (∀ nodes next, keeps nodes next → (look.isEmpty → admits next) →
          body.before C keeps nodes next) ∧
        ∀ nodes next, keeps nodes next → (look.isEmpty → admits next = false) → post nodes next
  | .enter entry, post => fun nodes next =>
      C.enters entry nodes next ∧ ∀ nodes' next', C.leaves entry nodes nodes' next' →
        post nodes' next'
  | .recover body _, post => body.before C post

end Form

/-- Every entry of the grammar leads from what it is entered with to what it promises. -/
def Contract.Kept (C : Contract) : Prop :=
  ∀ entry nodes next, C.enters entry nodes next →
    entry.form.before C (C.leaves entry nodes) nodes next

theorem Contract.met_leaf (t : Token) : C.Met (Tree.leaf t) := by
  intro node member rule label
  obtain rfl : node = Tree.leaf t := by simpa using member
  simp [Tree.leaf] at label

theorem Contract.met_ofRule {rule : Rule} {parts : List Tree} :
    C.Met (.ofRule rule parts) ↔
      C.fits rule (withoutTrivia parts) ∧ ∀ part ∈ parts, C.Met part := by
  simp only [Met, Tree.nodes_ofRule, List.forall_mem_cons, Tree.mem_nodesAll]
  refine and_congr ?_ ⟨fun h part member node inside => ?_, fun h node inside => ?_⟩
  · simp [Tree.ofRule, Tree.significant_eq]
  · exact h node ⟨part, member, inside⟩
  · obtain ⟨part, member, inside⟩ := inside
    exact h part member node inside

theorem Contract.met_leaves {frame : List Tree} (h : ∀ part ∈ frame, C.Met part)
    (ts : List Token) : ∀ part ∈ frame ++ ts.map Tree.leaf, C.Met part := by
  intro part member
  rcases List.mem_append.mp member with member | member
  · exact h part member
  · obtain ⟨t, -, rfl⟩ := List.mem_map.mp member
    exact met_leaf t

/-- Reading a token adds its leaf to the significant nodes. -/
theorem Reader.ofToken_meets {test : Token → Option Cause} {atEnd : Cause}
    {frame frame' : List Tree} {ts rest : List Token} {reported : List Fault} {post : Assertion}
    (met : ∀ part ∈ frame, C.Met part)
    (done : ofToken test atEnd frame ts = .done frame' rest reported)
    (holds : ∀ t : Token, t.kind = nextKind ts → test t = none →
      post (withoutTrivia frame ++ [.leaf t]) (nextKind rest)) :
    post (withoutTrivia frame') (nextKind rest) ∧ ∀ part ∈ frame', C.Met part := by
  rcases ofToken_cases test atEnd frame ts with
    ⟨cause, failed⟩ | ⟨t, left, next, passes, read⟩
  · simp [failed] at done
  · rw [read] at done
    cases done
    refine ⟨?_, by simpa using Contract.met_leaves met (leadingTrivia ts ++ [t])⟩
    simpa [Tree.withoutTrivia_leaves fun _ => isTrivia_of_mem_leadingTrivia,
      Tree.withoutTrivia_leaf (isTrivia_of_afterTrivia next)] using
      holds t (nextKind_of_afterTrivia next).symm passes

namespace Form

theorem meets_inductive (kept : C.Kept) : Inductive fun n f frame ts =>
    ∀ post : Assertion, f.before C post (withoutTrivia frame) (nextKind ts) →
      (∀ part ∈ frame, C.Met part) → ∀ frame' rest, f.readAt n frame ts = .done frame' rest [] →
        post (withoutTrivia frame') (nextKind rest) ∧ ∀ part ∈ frame', C.Met part where
  empty n frame ts post holds met frame' rest done := by
    cases done
    exact ⟨holds, met⟩
  trivia n frame ts post holds met frame' rest done := by
    cases done
    refine ⟨?_, Contract.met_leaves met _⟩
    have same : post (withoutTrivia frame) (nextKind ts) := holds
    simpa [Tree.withoutTrivia_leaves fun _ => isTrivia_of_mem_leadingTrivia] using same
  token n admits expected frame ts post holds met frame' rest done :=
    Reader.ofToken_meets met done fun t kind passes =>
      holds (by simpa [← kind] using passes) t kind _
  string n expected frame ts post holds met frame' rest done := by
    refine Reader.ofToken_meets met done fun t _ passes => ?_
    by_cases isString : t.kind = .string
    · exact holds t isString (by simpa [isString] using passes) _
    · simp [isString] at passes
  refuse n expected frame ts post holds met frame' rest done := by simp at done
  close n rule frame ts post holds met frame' rest done := by
    cases done
    exact ⟨by simpa using holds.2 frame rfl, by
      simpa using Contract.met_ofRule.mpr ⟨holds.1, met⟩⟩
  seq n first second frame ts ihFirst ihSecond post holds met frame' rest done := by
    obtain ⟨middle, between, one, two, read₁, read₂, none⟩ := seq_done.mp done
    obtain ⟨rfl, rfl⟩ := List.append_eq_nil_iff.mp none
    obtain ⟨holds', met'⟩ := ihFirst _ holds met _ _ read₁
    exact ihSecond _ _ _ read₁ post holds' met' _ _ read₂
  frame n body outer ts ih post holds met frame' rest done := by
    obtain ⟨inner, read, rfl⟩ := Outcome.into_eq_done.mp done
    obtain ⟨holds', met'⟩ := ih _ holds (by simp) _ _ read
    refine ⟨by simpa using holds', fun part member => ?_⟩
    rcases List.mem_append.mp member with member | member
    · exact met part member
    · exact met' part member
  choose n look admits yes no frame ts _ ihYes ihNo post holds met frame' rest done := by
    rw [readAt_choose] at done
    split at done
    · rename_i looked
      refine ihYes looked post (holds.1 fun empty => ?_) met _ _ done
      rwa [eq_empty_of_isEmpty empty, leadsTo_empty] at looked
    · rename_i failed
      refine ihNo (by simpa using failed) post (holds.2 fun empty => ?_) met _ _ done
      simpa only [eq_empty_of_isEmpty empty, leadsTo_empty, Bool.not_eq_true] using failed
  stop n look admits body frame ts productive _ stopped post holds met frame' rest done := by
    simp only [readAt_repeated productive, stopped, Bool.false_eq_true, if_false] at done
    cases done
    obtain ⟨keeps, start, -, leave⟩ := holds
    refine ⟨leave _ _ start fun empty => ?_, met⟩
    rwa [eq_empty_of_isEmpty empty, leadsTo_empty] at stopped
  round n look admits body frame ts productive _ looked ihBody ihRest post holds met frame' rest
      done := by
    rw [readAt_repeated productive, if_pos looked] at done
    obtain ⟨middle, between, one, two, read₁, read₂, none⟩ := Outcome.andThen_eq_done.mp done
    obtain ⟨rfl, rfl⟩ := List.append_eq_nil_iff.mp none
    obtain ⟨keeps, start, again, leave⟩ := holds
    have holds' := again _ _ start fun empty => by
      rwa [eq_empty_of_isEmpty empty, leadsTo_empty] at looked
    obtain ⟨kept', met'⟩ := ihBody keeps holds' met _ _ read₁
    exact ihRest _ _ _ read₁ post ⟨keeps, kept', again, leave⟩ met' _ _ read₂
  tooDeep entry frame ts post holds met frame' rest done := by simp at done
  enter n entry frame ts ih post holds met frame' rest done := by
    obtain ⟨entered, then'⟩ := holds
    obtain ⟨left, met'⟩ := ih _ (kept entry _ _ entered) met _ _ done
    exact ⟨then' _ _ left, met'⟩
  recover n body skip frame ts ihBody ihSkip post holds met frame' rest done := by
    rcases Outcome.orElse_eq_done.mp done with read | ⟨fault, one, two, -, -, none⟩
    · exact ihBody post holds met _ _ read
    · simp at none

/-- **Contracts.**  If a contract is kept, what is read without a report fits it, and what was
to hold behind the form holds. -/
theorem readAt_meets (kept : C.Kept) {f : Form} (productive : f.productive) {n : Nat}
    {frame frame' : List Tree} {ts rest : List Token} {post : Assertion}
    (holds : f.before C post (withoutTrivia frame) (nextKind ts))
    (met : ∀ part ∈ frame, C.Met part) (done : f.readAt n frame ts = .done frame' rest []) :
    post (withoutTrivia frame') (nextKind rest) ∧ ∀ part ∈ frame', C.Met part :=
  readAt_induct (meets_inductive kept) n productive frame ts post holds met frame' rest done

/-- What holds before a form to some end holds before it to any weaker one. -/
theorem before_mono {f : Form} {post post' : Assertion} {nodes : List Tree} {next : TokenKind}
    (h : f.before C post nodes next) (weaker : ∀ nodes next, post nodes next → post' nodes next) :
    f.before C post' nodes next := by
  induction f generalizing post post' nodes next with
  | empty | trivia => exact weaker _ _ h
  | token admits expected => exact fun admitted t kind next' => weaker _ _ (h admitted t kind next')
  | string expected => exact fun t kind closed next' => weaker _ _ (h t kind closed next')
  | refuse expected => trivial
  | seq first second ihFirst ihSecond => exact ihFirst h fun _ _ h' => ihSecond h' weaker
  | frame body ih => exact ih h fun _ _ => weaker _ _
  | close rule => exact ⟨h.1, fun parts same => weaker _ _ (h.2 parts same)⟩
  | choose look admits yes no _ ihYes ihNo =>
      exact ⟨fun looked => ihYes (h.1 looked) weaker, fun failed => ihNo (h.2 failed) weaker⟩
  | repeated look admits body =>
      obtain ⟨keeps, start, again, leave⟩ := h
      exact ⟨keeps, start, again, fun _ _ kept stopped => weaker _ _ (leave _ _ kept stopped)⟩
  | enter entry => exact ⟨h.1, fun _ _ left => weaker _ _ (h.2 _ _ left)⟩
  | recover body skip ihBody _ => exact ihBody h weaker

end Form

end Grammar

end QuestScript
