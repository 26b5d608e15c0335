/-
# QuestScript.Proofs.Faultless -- no skipped tokens without a diagnostic

Tokens that no rule could use are put under an error node, and only where a form
recovers.  There the fault it recovers from is reported, so what is read without a
report holds no error node (`Form.script_faultless`).
-/
import QuestScript.Proofs.Progress

namespace QuestScript

set_option autoImplicit false

namespace Tree

/-! ## The nodes of a tree -/

@[simp] theorem nodes_leaf (t : Token) : (leaf t).nodes = [leaf t] := rfl

@[simp] theorem nodes_ofRule (rule : Rule) (parts : List Tree) :
    (ofRule rule parts).nodes = ofRule rule parts :: nodesAll parts := rfl

theorem mem_nodes_self (t : Tree) : t ∈ t.nodes := by
  obtain ⟨label, span, children, text⟩ := t
  simp [nodes]

theorem mem_nodesAll {node : Tree} {ts : List Tree} :
    node ∈ nodesAll ts ↔ ∃ t ∈ ts, node ∈ t.nodes := by
  induction ts with
  | nil => simp [nodesAll]
  | cons t ts ih => simp [nodesAll, ih]

/-- No node of the tree holds skipped tokens. -/
def Faultless (t : Tree) : Prop := ∀ node ∈ t.nodes, node.label ≠ .rule .error

theorem faultless_leaf (t : Token) : (leaf t).Faultless := by
  intro node member
  obtain rfl : node = leaf t := by simpa using member
  simp [leaf]

theorem faultless_ofRule {rule : Rule} {parts : List Tree} :
    (ofRule rule parts).Faultless ↔ rule ≠ .error ∧ ∀ part ∈ parts, part.Faultless := by
  simp only [Faultless, nodes_ofRule, List.forall_mem_cons, mem_nodesAll]
  refine and_congr (by simp [ofRule]) ⟨fun h part member node inside => ?_, fun h node inside => ?_⟩
  · exact h node ⟨part, member, inside⟩
  · obtain ⟨part, member, inside⟩ := inside
    exact h part member node inside

end Tree

namespace Grammar

open QuestScript.Tree (Faultless)

namespace Form

/-- The form builds error nodes only where it recovers. -/
def blameless : Form → Bool
  | .close rule => rule != .error
  | .seq first second => first.blameless && second.blameless
  | .frame body => body.blameless
  | .choose _ _ yes no => yes.blameless && no.blameless
  | .repeated _ _ body => body.blameless
  | .recover body _ => body.blameless
  | _ => true

end Form

theorem Entry.form_blameless (entry : Entry) : entry.form.blameless := by
  cases entry with
  | link least own => cases least <;> cases own <;> decide
  | _ => decide

namespace Form

theorem faultless_leaves {frame : List Tree} (h : ∀ part ∈ frame, part.Faultless)
    (ts : List Token) : ∀ part ∈ frame ++ ts.map Tree.leaf, part.Faultless := by
  intro part member
  rcases List.mem_append.mp member with member | member
  · exact h part member
  · obtain ⟨t, -, rfl⟩ := List.mem_map.mp member
    exact Tree.faultless_leaf t

theorem faultless_token (test : Token → Option Cause) (atEnd : Cause) {frame frame' : List Tree}
    {ts rest : List Token} {reported : List Fault} (h : ∀ part ∈ frame, part.Faultless)
    (done : Reader.ofToken test atEnd frame ts = .done frame' rest reported) :
    ∀ part ∈ frame', part.Faultless := by
  rcases Reader.ofToken_cases test atEnd frame ts with
    ⟨cause, failed⟩ | ⟨t, left, next, -, read⟩
  · simp [failed] at done
  · rw [read] at done
    cases done
    simpa using faultless_leaves h (leadingTrivia ts ++ [t])

/-- What is read without a report is without skipped tokens. -/
theorem faultless_inductive : Inductive fun n f frame ts =>
    f.blameless → (∀ part ∈ frame, part.Faultless) → ∀ frame' rest,
      f.readAt n frame ts = .done frame' rest [] → ∀ part ∈ frame', part.Faultless where
  empty n frame ts _ h frame' rest done := by
    cases done
    exact h
  trivia n frame ts _ h frame' rest done := by
    cases done
    exact faultless_leaves h _
  token n admits expected frame ts _ h frame' rest done := faultless_token _ _ h done
  string n expected frame ts _ h frame' rest done := faultless_token _ _ h done
  refuse n expected frame ts _ h frame' rest done := by simp at done
  close n rule frame ts blameless h frame' rest done := by
    cases done
    simpa using Tree.faultless_ofRule.mpr ⟨by simpa [Form.blameless] using blameless, h⟩
  seq n first second frame ts ihFirst ihSecond blameless h frame' rest done := by
    simp only [Form.blameless, Bool.and_eq_true] at blameless
    obtain ⟨middle, between, one, two, read₁, read₂, none⟩ := seq_done.mp done
    obtain ⟨rfl, rfl⟩ := List.append_eq_nil_iff.mp none
    exact ihSecond _ _ _ read₁ blameless.2 (ihFirst blameless.1 h _ _ read₁) _ _ read₂
  frame n body outer ts ih blameless h frame' rest done := by
    obtain ⟨inner, read, rfl⟩ := Outcome.into_eq_done.mp done
    intro part member
    rcases List.mem_append.mp member with member | member
    · exact h part member
    · exact ih blameless (by simp) _ _ read part member
  choose n look admits yes no frame ts _ ihYes ihNo blameless h frame' rest done := by
    simp only [Form.blameless, Bool.and_eq_true] at blameless
    rw [readAt_choose] at done
    split at done
    · rename_i looked
      exact ihYes looked blameless.1 h _ _ done
    · rename_i failed
      exact ihNo (by simpa using failed) blameless.2 h _ _ done
  stop n look admits body frame ts productive _ stopped _ h frame' rest done := by
    simp only [readAt_repeated productive, stopped, Bool.false_eq_true, if_false] at done
    cases done
    exact h
  round n look admits body frame ts productive _ looked ihBody ihRest blameless h frame' rest
      done := by
    rw [readAt_repeated productive, if_pos looked] at done
    obtain ⟨middle, between, one, two, read₁, read₂, none⟩ := Outcome.andThen_eq_done.mp done
    obtain ⟨rfl, rfl⟩ := List.append_eq_nil_iff.mp none
    exact ihRest _ _ _ read₁ blameless (ihBody blameless h _ _ read₁) _ _ read₂
  tooDeep entry frame ts _ h frame' rest done := by simp at done
  enter n entry frame ts ih _ h frame' rest done := ih entry.form_blameless h _ _ done
  recover n body skip frame ts ihBody ihSkip blameless h frame' rest done := by
    rcases Outcome.orElse_eq_done.mp done with read | ⟨fault, one, two, -, -, none⟩
    · exact ihBody blameless h _ _ read
    · simp at none

/-- Without a report the trees of a script are without skipped tokens. -/
theorem script_faultless {n : Nat} {ts rest : List Token} {parts : List Tree}
    (done : script.readAt n [] ts = .done parts rest []) : ∀ part ∈ parts, part.Faultless :=
  readAt_induct faultless_inductive n script_productive [] ts (by decide) (by simp) _ _ done

end Form

end Grammar

end QuestScript
