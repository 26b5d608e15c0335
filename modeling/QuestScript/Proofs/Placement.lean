/-
# QuestScript.Proofs.Placement -- trivia stands between nodes, never at their edges

Reading hands trivia to the rule that is being read when the next significant token is
taken.  A rule must therefore be entered with no trivia pending, and be closed right
behind a significant token.  No check in the reading enforces that: it is a convention
between the forms, and this module proves that the grammar keeps it.

The proof is an abstract run.  A `Footing` is what is known of the frame and of the
tokens while a form is read: whether the frame's first and last nodes are significant,
and whether trivia is pending.  `Form.place` computes from the footing before a form the
footing behind it, and refuses where a node would be closed over trivia at one of its
edges; `Form.place_sound` says that the computation is right.  It succeeds on the whole
grammar, which is decided, and so every tree that is read is `Tree.Tidy`
(`Form.script_tidy`): made of leaves and rules alone, the nodes of every rule but those
over skipped tokens beginning and ending with significant nodes.
-/
import QuestScript.Proofs.Progress

namespace QuestScript

set_option autoImplicit false

namespace Tree

/-- The first of some nodes is there and is not trivia. -/
def Opened (parts : List Tree) : Prop :=
  ∃ first rest, parts = first :: rest ∧ first.isTrivia = false

/-- The last of some nodes is there and is not trivia. -/
def Closed (parts : List Tree) : Prop :=
  ∃ init last, parts = init ++ [last] ∧ last.isTrivia = false

/-- A tree of leaves and of rules that neither begin nor end with trivia. -/
inductive Tidy : Tree → Prop where
  | leaf (t : Token) : Tidy (leaf t)
  | node (rule : Rule) (parts : List Tree) (tidy : ∀ part ∈ parts, Tidy part)
      (flanked : rule ≠ .error → Opened parts ∧ Closed parts) : Tidy (ofRule rule parts)

theorem tidy_ofRule {rule : Rule} {parts : List Tree} :
    (ofRule rule parts).Tidy ↔
      (∀ part ∈ parts, part.Tidy) ∧ (rule ≠ .error → Opened parts ∧ Closed parts) := by
  refine ⟨fun h => ?_, fun ⟨tidy, flanked⟩ => .node rule parts tidy flanked⟩
  generalize whole : ofRule rule parts = t at h
  cases h with
  | leaf t => simp [ofRule, Tree.leaf] at whole
  | node rule' parts' tidy flanked =>
      obtain ⟨rfl, -, rfl⟩ : rule = rule' ∧ cover parts = cover parts' ∧ parts = parts' := by
        simpa [ofRule] using whole
      exact ⟨tidy, flanked⟩

theorem Tidy.eq_ofRule {t : Tree} {rule : Rule} (h : t.Tidy) (label : t.label = .rule rule) :
    ∃ parts, t = ofRule rule parts := by
  cases h with
  | leaf t => simp [Tree.leaf] at label
  | node rule' parts =>
      obtain rfl : rule' = rule := by simpa [ofRule] using label
      exact ⟨parts, rfl⟩

end Tree

namespace Grammar

open QuestScript.Tree (Opened Closed Tidy)

/-! ## What is known while reading -/

/-- What is known of the first node of a frame. -/
inductive Front where
  | absent
  | significant
  /-- Significant, or absent with no trivia pending, so that it will be significant. -/
  | clean
  | unknown
deriving DecidableEq, Repr

/-- What is known of a frame and of the tokens to be read. -/
inductive Footing where
  /-- Reading does not come here. -/
  | never
  /-- `closed` says that the frame's last node is significant, `flushed` that no trivia is
  pending. -/
  | known (front : Front) (closed flushed : Bool)
deriving DecidableEq, Repr

/-- No trivia is pending. -/
def Flushed (ts : List Token) : Prop := afterTrivia ts = ts

namespace Front

def Holds (frame : List Tree) (ts : List Token) : Front → Prop
  | .absent => frame = []
  | .significant => Opened frame
  | .clean => Opened frame ∨ frame = [] ∧ Flushed ts
  | .unknown => True

/-- The front is clean, if no trivia is pending. -/
def isClean (flushed : Bool) : Front → Bool
  | .absent => flushed
  | .significant | .clean => true
  | .unknown => false

/-- Behind trivia that may have been pending. -/
def trivia : Front → Front
  | .absent => .unknown
  | front => front

/-- Behind the next token. -/
def token (flushed : Bool) (front : Front) : Front :=
  if front.isClean flushed then .significant else .unknown

/-- Behind a frame of its own, which began where nothing else is known of the tokens. -/
def append : Front → (inner : Front) → Front
  | .absent, inner => inner
  | .significant, _ | .clean, .significant => .significant
  | _, _ => .unknown

end Front

namespace Footing

def Holds (frame : List Tree) (ts : List Token) : Footing → Prop
  | .never => False
  | .known front closed flushed =>
      front.Holds frame ts ∧ (closed → Closed frame) ∧ (flushed → Flushed ts)

/-- What both footings say. -/
def join : Footing → Footing → Footing
  | .never, b => b
  | a, .never => a
  | .known front closed flushed, .known front' closed' flushed' =>
      .known
        (if front = front' then front
          else if front.isClean flushed && front'.isClean flushed' then .clean else .unknown)
        (closed && closed') (flushed && flushed')

/-- The first footing says all that the second one does. -/
def covers (a b : Footing) : Bool := b.join a = b

/-- Behind the trivia that comes next. -/
def trivia : Footing → Footing
  | .known front _ false => .known front.trivia false true
  | s => s

/-- Behind the next token. -/
def token : Footing → Footing
  | .never => .never
  | .known front _ flushed => .known (front.token flushed) true false

/-- Behind a node over all of the frame, if it may be closed. -/
def close (rule : Rule) : Footing → Option Footing
  | .never => some .never
  | .known front closed flushed =>
      if rule = .error ∨ (front = .significant ∨ front = .clean) ∧ closed then
        some (.known .significant true flushed)
      else none

/-- In a frame of its own. -/
def inner : Footing → Footing
  | .never => .never
  | .known _ _ flushed => .known .absent false flushed

/-- Behind a frame of its own with the footing `inner` at its end. -/
def append : Footing → (inner : Footing) → Footing
  | .known front closed _, .known front' closed' flushed' =>
      .known (front.append front') (if front' = .absent then closed else closed') flushed'
  | _, _ => .never

/-- Where a form has given up: the frame is as before, and anything may be next. -/
def unsettled : Footing → Footing
  | .never => .never
  | .known .clean closed _ => .known .unknown closed false
  | .known front closed _ => .known front closed false

end Footing

/-! ## The abstract run -/

namespace Entry

/-- What an entry asks for. -/
def entryFooting : Entry → Footing
  | .statement | .assignment | .ternary | .unary | .cast => .known .absent false true
  | .link _ _ | .suffix => .known .significant true false
  | .typeArguments => .known .significant false false

/-- What holds behind every entry. -/
def exitFooting : Footing := .known .significant true false

end Entry

namespace Form

/-- The footing behind a form, if no node is closed over trivia at its edges. -/
def place : Form → Footing → Option Footing
  | .empty, s => some s
  | .trivia, s => some s.trivia
  | .token _ _, s | .string _, s => some s.token
  | .refuse _, _ => some .never
  | .seq first second, s => (first.place s).bind second.place
  | .frame body, s => (body.place s.inner).map s.append
  | .close rule, s => s.close rule
  | .choose _ _ yes no, s => (yes.place s).bind fun a => (no.place s).map a.join
  | .repeated _ _ body, s =>
      (body.place s).bind fun once =>
        (body.place (s.join once)).bind fun again =>
          if again.covers (s.join once) then some (s.join once) else none
  | .enter entry, s => if s.covers entry.entryFooting then some Entry.exitFooting else none
  | .recover body skip, s =>
      (body.place s).bind fun a => (skip.place s.unsettled).map a.join

end Form

theorem Entry.place_form (entry : Entry) :
    (entry.form.place entry.entryFooting).any (·.covers exitFooting) := by
  cases entry with
  | link least own => cases least <;> cases own <;> decide
  | _ => decide

theorem Form.place_script : (script.place (.known .absent false false)).isSome := by decide

/-! ## The abstract run is right -/

theorem leadingTrivia_of_flushed {ts : List Token} (h : Flushed ts) : leadingTrivia ts = [] := by
  have whole := leadingTrivia_append_afterTrivia ts
  rw [h] at whole
  simpa using whole

theorem flushed_afterTrivia (ts : List Token) : Flushed (afterTrivia ts) :=
  afterTrivia_afterTrivia ts

namespace Front

variable {front inner : Front} {frame outer : List Tree} {ts : List Token}

theorem Holds.isClean {flushed : Bool} (h : front.Holds frame ts) (hf : flushed → Flushed ts)
    (clean : front.isClean flushed) : Opened frame ∨ frame = [] ∧ Flushed ts := by
  cases front with
  | absent => exact .inr ⟨h, hf clean⟩
  | significant => exact .inl h
  | clean => exact h
  | unknown => simp [Front.isClean] at clean

theorem Holds.append {rest : List Token} (ho : front.Holds outer ts)
    (hi : inner.Holds frame rest) : (front.append inner).Holds (outer ++ frame) rest := by
  cases front with
  | absent => obtain rfl : outer = [] := ho; exact hi
  | significant =>
      obtain ⟨first, others, rfl, hfirst⟩ := ho
      exact ⟨first, others ++ frame, rfl, hfirst⟩
  | clean =>
      cases inner with
      | significant =>
          rcases ho with ⟨first, others, rfl, hfirst⟩ | ⟨rfl, -⟩
          · exact ⟨first, others ++ frame, rfl, hfirst⟩
          · exact hi
      | _ => trivial
  | unknown => cases inner <;> trivial

end Front

namespace Footing

variable {s t : Footing} {frame : List Tree} {ts : List Token}

theorem Holds.join_left (h : s.Holds frame ts) (t : Footing) : (s.join t).Holds frame ts := by
  cases s with
  | never => exact h.elim
  | known front closed flushed =>
      cases t with
      | never => exact h
      | known front' closed' flushed' =>
          obtain ⟨hfront, hclosed, hflushed⟩ := h
          refine ⟨?_, by simp_all, by simp_all⟩
          split
          · exact hfront
          · split
            · rename_i clean
              exact hfront.isClean hflushed (by simp_all)
            · trivial

theorem Holds.join_right (h : t.Holds frame ts) (s : Footing) : (s.join t).Holds frame ts := by
  cases t with
  | never => exact h.elim
  | known front' closed' flushed' =>
      cases s with
      | never => exact h
      | known front closed flushed =>
          obtain ⟨hfront, hclosed, hflushed⟩ := h
          refine ⟨?_, by simp_all, by simp_all⟩
          split
          · rename_i same
            exact same ▸ hfront
          · split
            · rename_i clean
              exact hfront.isClean hflushed (by simp_all)
            · trivial

theorem Holds.of_covers (h : s.Holds frame ts) (covers : s.covers t) : t.Holds frame ts := by
  have same : t.join s = t := by simpa [Footing.covers] using covers
  exact same ▸ h.join_right t

theorem Holds.trivia (h : s.Holds frame ts) :
    s.trivia.Holds (frame ++ (leadingTrivia ts).map Tree.leaf) (afterTrivia ts) := by
  cases s with
  | never => exact h.elim
  | known front closed flushed =>
      obtain ⟨hfront, hclosed, hflushed⟩ := h
      cases flushed with
      | true =>
          have none := leadingTrivia_of_flushed (hflushed rfl)
          have same : afterTrivia ts = ts := hflushed rfl
          rw [none, same, List.map_nil, List.append_nil]
          exact ⟨hfront, hclosed, hflushed⟩
      | false =>
          refine ⟨?_, by simp, fun _ => flushed_afterTrivia ts⟩
          cases front with
          | absent => trivial
          | significant =>
              obtain ⟨first, others, rfl, hfirst⟩ := hfront
              exact ⟨first, _, rfl, hfirst⟩
          | clean =>
              rcases hfront with ⟨first, others, rfl, hfirst⟩ | ⟨rfl, flushed⟩
              · exact .inl ⟨first, _, rfl, hfirst⟩
              · exact .inr ⟨by simp [leadingTrivia_of_flushed flushed], flushed_afterTrivia ts⟩
          | unknown => trivial

theorem Holds.token {t : Token} {rest : List Token} (h : s.Holds frame ts)
    (next : afterTrivia ts = t :: rest) :
    s.token.Holds (frame ++ (leadingTrivia ts).map Tree.leaf ++ [Tree.leaf t]) rest := by
  have significant : (Tree.leaf t).isTrivia = false := isTrivia_of_afterTrivia next
  cases s with
  | never => exact h.elim
  | known front closed flushed =>
      obtain ⟨hfront, -, hflushed⟩ := h
      refine ⟨?_, fun _ => ⟨_, Tree.leaf t, rfl, significant⟩, by simp⟩
      unfold Front.token
      split
      · rename_i clean
        rcases hfront.isClean hflushed clean with ⟨first, others, rfl, hfirst⟩ | ⟨rfl, none⟩
        · exact ⟨first, _, rfl, hfirst⟩
        · exact ⟨Tree.leaf t, [], by simp [leadingTrivia_of_flushed none], significant⟩
      · trivial

/-- A footing that allows to close a node says what the node asks for. -/
theorem Holds.flanked {rule : Rule} {t : Footing} (h : s.Holds frame ts)
    (closes : s.close rule = some t) (notError : rule ≠ .error) :
    Opened frame ∧ Closed frame := by
  cases s with
  | never => exact h.elim
  | known front closed flushed =>
      obtain ⟨hfront, hclosed, -⟩ := h
      simp only [Footing.close, notError, false_or, Option.ite_none_right_eq_some] at closes
      obtain ⟨⟨hclean, isClosed⟩, -⟩ := closes
      have last := hclosed isClosed
      refine ⟨?_, last⟩
      rcases hclean with rfl | rfl
      · exact hfront
      · rcases hfront with opened | ⟨rfl, -⟩
        · exact opened
        · obtain ⟨init, last, empty, -⟩ := last
          simp at empty

theorem Holds.close {rule : Rule} {t : Footing} (h : s.Holds frame ts)
    (closes : s.close rule = some t) : t.Holds [Tree.ofRule rule frame] ts := by
  cases s with
  | never => exact h.elim
  | known front closed flushed =>
      simp only [Footing.close, Option.ite_none_right_eq_some, Option.some.injEq] at closes
      obtain ⟨-, rfl⟩ := closes
      exact ⟨⟨_, [], rfl, rfl⟩, fun _ => ⟨[], _, rfl, rfl⟩, h.2.2⟩

theorem Holds.inner (h : s.Holds frame ts) : s.inner.Holds [] ts := by
  cases s with
  | never => exact h.elim
  | known front closed flushed => exact ⟨rfl, by simp, h.2.2⟩

theorem Holds.append {inner : List Tree} {rest : List Token} (h : s.Holds frame ts)
    (hi : t.Holds inner rest) : (s.append t).Holds (frame ++ inner) rest := by
  cases s with
  | never => exact h.elim
  | known front closed flushed =>
      cases t with
      | never => exact hi.elim
      | known front' closed' flushed' =>
          refine ⟨h.1.append hi.1, fun isClosed => ?_, hi.2.2⟩
          split at isClosed
          · rename_i absent
            subst absent
            obtain rfl : inner = [] := hi.1
            simpa using h.2.1 isClosed
          · obtain ⟨init, last, rfl, hlast⟩ := hi.2.1 isClosed
            exact ⟨frame ++ init, last, by simp, hlast⟩

theorem Holds.unsettled (h : s.Holds frame ts) (rest : List Token) :
    s.unsettled.Holds frame rest := by
  cases s with
  | never => exact h.elim
  | known front closed flushed =>
      obtain ⟨hfront, hclosed, -⟩ := h
      cases front with
      | absent => exact ⟨hfront, hclosed, by simp⟩
      | significant => exact ⟨hfront, hclosed, by simp⟩
      | clean => exact ⟨trivial, hclosed, by simp⟩
      | unknown => exact ⟨trivial, hclosed, by simp⟩

end Footing

/-- What the abstract run says of an outcome. -/
def Outcome.Stands (after : Option Footing) (o : Outcome) : Prop :=
  ∀ s, after = some s → ∀ frame rest reported, o = .done frame rest reported →
    s.Holds frame rest ∧ ∀ part ∈ frame, part.Tidy

theorem Outcome.Stands.join_left {a b : Option Footing} {o : Outcome} (h : o.Stands a) :
    o.Stands (a.bind fun a => b.map a.join) := by
  intro s after frame rest reported done
  obtain ⟨s₁, ha, after⟩ := Option.bind_eq_some_iff.mp after
  obtain ⟨s₂, -, rfl⟩ := Option.map_eq_some_iff.mp after
  obtain ⟨holds, tidy⟩ := h s₁ ha frame rest reported done
  exact ⟨holds.join_left s₂, tidy⟩

theorem Outcome.Stands.join_right {a b : Option Footing} {o : Outcome} (h : o.Stands b) :
    o.Stands (a.bind fun a => b.map a.join) := by
  intro s after frame rest reported done
  obtain ⟨s₁, -, after⟩ := Option.bind_eq_some_iff.mp after
  obtain ⟨s₂, hb, rfl⟩ := Option.map_eq_some_iff.mp after
  obtain ⟨holds, tidy⟩ := h s₂ hb frame rest reported done
  exact ⟨holds.join_right s₁, tidy⟩

namespace Form

theorem tidy_leaves {frame : List Tree} (tidy : ∀ part ∈ frame, part.Tidy) (ts : List Token) :
    ∀ part ∈ frame ++ ts.map Tree.leaf, part.Tidy := by
  intro part member
  rcases List.mem_append.mp member with member | member
  · exact tidy part member
  · obtain ⟨t, -, rfl⟩ := List.mem_map.mp member
    exact .leaf t

theorem place_token (test : Token → Option Cause) (atEnd : Cause) {s : Footing}
    {frame : List Tree} {ts : List Token} (holds : s.Holds frame ts)
    (tidy : ∀ part ∈ frame, part.Tidy) :
    (Reader.ofToken test atEnd frame ts).Stands (some s.token) := by
  intro _ after frame' rest reported done
  cases after
  rcases Reader.ofToken_cases test atEnd frame ts with
    ⟨cause, failed⟩ | ⟨t, left, next, -, read⟩
  · simp [failed] at done
  · rw [read] at done
    cases done
    refine ⟨holds.token next, ?_⟩
    simpa using tidy_leaves tidy (leadingTrivia ts ++ [t])

/-- The footing behind a repetition is one that its rounds keep. -/
theorem place_repeated {look body : Form} {admits : TokenKind → Bool} {s t : Footing}
    (after : (repeated look admits body).place s = some t) :
    (∀ {frame ts}, s.Holds frame ts → t.Holds frame ts) ∧
      (∃ again, body.place t = some again ∧ again.covers t) ∧
      (repeated look admits body).place t = some t := by
  obtain ⟨once, honce, after⟩ := Option.bind_eq_some_iff.mp after
  obtain ⟨again, hagain, after⟩ := Option.bind_eq_some_iff.mp after
  obtain ⟨covers, same⟩ := Option.ite_none_right_eq_some.mp after
  cases same
  refine ⟨fun holds => holds.join_left once, ⟨again, hagain, covers⟩, ?_⟩
  have same : (s.join once).join again = s.join once := by simpa [Footing.covers] using covers
  simp [place, hagain, same, covers]

/-- The abstract run is right about every reading. -/
theorem place_sound : Inductive fun n f frame ts =>
    ∀ s : Footing, s.Holds frame ts → (∀ part ∈ frame, part.Tidy) →
      (f.readAt n frame ts).Stands (f.place s) where
  empty n frame ts s holds tidy := by
    intro _ after _ _ _ done
    cases after
    cases done
    exact ⟨holds, tidy⟩
  trivia n frame ts s holds tidy := by
    intro _ after _ _ _ done
    cases after
    cases done
    exact ⟨holds.trivia, tidy_leaves tidy _⟩
  token n admits expected frame ts s holds tidy := place_token _ _ holds tidy
  string n expected frame ts s holds tidy := place_token _ _ holds tidy
  refuse n expected frame ts s holds tidy := by
    intro _ _ _ _ _ done
    simp at done
  close n rule frame ts s holds tidy := by
    intro t after _ _ _ done
    cases done
    refine ⟨holds.close after, ?_⟩
    simpa using Tree.Tidy.node rule frame tidy fun notError => holds.flanked after notError
  seq n first second frame ts ihFirst ihSecond s holds tidy := by
    intro t after frame' rest reported done
    obtain ⟨between, hfirst, hsecond⟩ := Option.bind_eq_some_iff.mp after
    obtain ⟨middle, mid, one, two, read₁, read₂, -⟩ := seq_done.mp done
    obtain ⟨holds₁, tidy₁⟩ := ihFirst s holds tidy between hfirst _ _ _ read₁
    exact ihSecond _ _ _ read₁ between holds₁ tidy₁ t hsecond _ _ _ read₂
  frame n body outer ts ih s holds tidy := by
    intro t after frame' rest reported done
    obtain ⟨inside, hinside, rfl⟩ := Option.map_eq_some_iff.mp after
    obtain ⟨inner, read, rfl⟩ := Outcome.into_eq_done.mp done
    obtain ⟨holds', tidy'⟩ := ih s.inner holds.inner (by simp) inside hinside _ _ _ read
    refine ⟨holds.append holds', fun part member => ?_⟩
    exact (List.mem_append.mp member).elim (tidy part) (tidy' part)
  choose n look admits yes no frame ts _ ihYes ihNo s holds tidy := by
    rw [readAt_choose]
    split
    · rename_i looked
      exact (ihYes looked s holds tidy).join_left
    · rename_i failed
      exact (ihNo (by simpa using failed) s holds tidy).join_right
  stop n look admits body frame ts productive _ stopped s holds tidy := by
    intro t after frame' rest reported done
    simp only [readAt_repeated productive, stopped, Bool.false_eq_true, if_false] at done
    cases done
    exact ⟨(place_repeated after).1 holds, tidy⟩
  round n look admits body frame ts productive _ looked ihBody ihRest s holds tidy := by
    intro t after frame' rest reported done
    obtain ⟨widen, ⟨again, hagain, covers⟩, fixed⟩ := place_repeated after
    rw [readAt_repeated productive, if_pos looked] at done
    obtain ⟨middle, mid, one, two, read₁, read₂, -⟩ := Outcome.andThen_eq_done.mp done
    obtain ⟨holds₁, tidy₁⟩ := ihBody t (widen holds) tidy again hagain _ _ _ read₁
    exact ihRest _ _ _ read₁ t (holds₁.of_covers covers) tidy₁ t fixed _ _ _ read₂
  tooDeep entry frame ts s holds tidy := by
    intro _ _ _ _ _ done
    simp at done
  enter n entry frame ts ih s holds tidy := by
    intro t after frame' rest reported done
    obtain ⟨covers, exitIs⟩ := Option.ite_none_right_eq_some.mp after
    cases exitIs
    obtain ⟨exit, placed, exits⟩ := (Option.any_eq_true _ _).mp entry.place_form
    obtain ⟨holds', tidy'⟩ := ih _ (holds.of_covers covers) tidy exit placed _ _ _ done
    exact ⟨holds'.of_covers exits, tidy'⟩
  recover n body skip frame ts ihBody ihSkip s holds tidy := by
    intro t after frame' rest reported done
    rcases Outcome.orElse_eq_done.mp done with read | ⟨fault, one, two, failed, read, -⟩
    · exact (ihBody s holds tidy).join_left t after _ _ _ read
    · exact (ihSkip _ _ failed s.unsettled (holds.unsettled _) tidy).join_right t after _ _ _ read

/-- Every tree that is read in a script is tidy, whatever is wrong with the script. -/
theorem script_tidy {n : Nat} {ts rest : List Token} {parts : List Tree} {reported : List Fault}
    (done : script.readAt n [] ts = .done parts rest reported) : ∀ part ∈ parts, part.Tidy := by
  obtain ⟨t, placed⟩ := Option.isSome_iff_exists.mp place_script
  have start : Footing.Holds [] ts (.known .absent false false) := ⟨rfl, by simp, by simp⟩
  exact (readAt_induct place_sound n script_productive [] ts _ start (by simp) t placed _ _ _
    done).2

end Form

end Grammar

end QuestScript
