/-
# QuestScript.Proofs.Items -- a script is read item by item

A script is trivia, an item or what is skipped in its place, and a script again
(`Form.script_round`), up to the end (`Form.script_end`).  What has been read stands in the
frame, and it does not matter to what comes: a form that only adds to the frame adds the same
to any other (`Form.readAt_into`).
-/
import QuestScript.Proofs.Nesting

namespace QuestScript.Grammar

set_option autoImplicit false

/-! ## Frames -/

namespace Outcome

variable {o : Outcome} {outer inner : List Tree}

theorem into_into (o : Outcome) (outer inner : List Tree) :
    (o.into inner).into outer = o.into (outer ++ inner) := by
  cases o <;> simp [into]

theorem into_andThen {next : Reader} (h : ∀ frame rest reported, o = .done frame rest reported →
    next (outer ++ frame) rest = (next frame rest).into outer) :
    (o.into outer).andThen next = (o.andThen next).into outer := by
  cases o with
  | failed fault reported => rfl
  | done frame rest reported =>
      simp only [into, andThen, h frame rest reported rfl]
      cases next frame rest <;> rfl

theorem into_orElse {skip skip' : List Token → Outcome}
    (h : ∀ fault reported, o = .failed fault reported →
      skip' fault.rest = (skip fault.rest).into outer) :
    (o.into outer).orElse skip' = (o.orElse skip).into outer := by
  cases o with
  | done frame rest reported => rfl
  | failed fault reported =>
      simp only [into, orElse, h fault reported rfl]
      cases skip fault.rest <;> rfl

theorem andThen_assoc (o : Outcome) (first second : Reader) :
    (o.andThen first).andThen second =
      o.andThen fun frame rest => (first frame rest).andThen second := by
  cases o with
  | failed fault reported => rfl
  | done frame rest one =>
      simp only [andThen]
      cases first frame rest with
      | failed fault two => rfl
      | done middle between two =>
          simp only
          cases second middle between <;> simp

end Outcome

theorem Reader.ofToken_into (test : Token → Option Cause) (atEnd : Cause) (outer frame : List Tree)
    (ts : List Token) :
    ofToken test atEnd (outer ++ frame) ts = (ofToken test atEnd frame ts).into outer := by
  unfold ofToken
  cases afterTrivia ts with
  | nil => rfl
  | cons t rest => cases h : test t <;> simp [h, Outcome.into]

theorem Entry.typeArguments_appends : Entry.typeArguments.form.appends := by decide

namespace Form

theorem into_inductive : Inductive fun n f frame ts => f.appends → ∀ outer,
    f.readAt n (outer ++ frame) ts = (f.readAt n frame ts).into outer where
  empty n frame ts _ outer := rfl
  trivia n frame ts _ outer := by simp [Outcome.into]
  token n admits expected frame ts _ outer := Reader.ofToken_into _ _ outer frame ts
  string n expected frame ts _ outer := Reader.ofToken_into _ _ outer frame ts
  refuse n expected frame ts _ outer := rfl
  close n rule frame ts appends outer := by simp [Form.appends] at appends
  seq n first second frame ts ihFirst ihSecond appends outer := by
    simp only [Form.appends, Bool.and_eq_true] at appends
    simp only [readAt_seq, ihFirst appends.1 outer]
    exact Outcome.into_andThen fun frame' rest reported done =>
      ihSecond frame' rest reported done appends.2 outer
  frame n body inner ts ih _ outer := by
    rw [readAt_frame, readAt_frame, Outcome.into_into]
  choose n look admits yes no frame ts _ ihYes ihNo appends outer := by
    simp only [Form.appends, Bool.and_eq_true] at appends
    rw [readAt_choose, readAt_choose]
    split
    · rename_i looked
      exact ihYes looked appends.1 outer
    · rename_i failed
      exact ihNo (by simpa using failed) appends.2 outer
  stop n look admits body frame ts productive _ stopped _ outer := by
    rw [readAt_repeated productive, readAt_repeated productive, stopped]
    rfl
  round n look admits body frame ts productive _ looked ihBody ihRest appends outer := by
    rw [readAt_repeated productive, readAt_repeated productive, if_pos looked, if_pos looked,
      ihBody appends outer]
    exact Outcome.into_andThen fun frame' rest reported done =>
      ihRest frame' rest reported done appends outer
  tooDeep entry frame ts _ outer := rfl
  enter n entry frame ts ih appends outer := by
    obtain rfl : entry = .typeArguments := by simpa [Form.appends] using appends
    exact ih Entry.typeArguments_appends outer
  recover n body skip frame ts ihBody ihSkip appends outer := by
    simp only [Form.appends, Bool.and_eq_true] at appends
    simp only [readAt_recover, ihBody appends.1 outer]
    exact Outcome.into_orElse fun fault reported failed =>
      ihSkip fault reported failed appends.2 outer

/-- What only adds to the frame adds the same to any frame. -/
theorem readAt_into {f : Form} (productive : f.productive) (appends : f.appends) (n : Nat)
    (outer frame : List Tree) (ts : List Token) :
    f.readAt n (outer ++ frame) ts = (f.readAt n frame ts).into outer :=
  readAt_induct into_inductive n productive frame ts appends outer

theorem prefix_of_appends {f : Form} (productive : f.productive) (appends : f.appends) {n : Nat}
    {frame frame' : List Tree} {ts rest : List Token} {reported : List Fault}
    (done : f.readAt n frame ts = .done frame' rest reported) : frame <+: frame' := by
  have same := readAt_into productive appends n frame [] ts
  rw [List.append_nil, done] at same
  obtain ⟨inner, -, whole⟩ := Outcome.into_eq_done.mp same.symm
  exact ⟨inner, whole⟩

end Form

/-! ## Tokens in front of others -/

section

variable {ts rest : List Token} {t : Token}

theorem afterTrivia_append (next : afterTrivia ts = t :: rest) (us : List Token) :
    afterTrivia (ts ++ us) = t :: (rest ++ us) := by
  rw [afterTrivia] at next ⊢
  rw [List.dropWhile_append, next]
  rfl

theorem leadingTrivia_append (next : afterTrivia ts = t :: rest) (us : List Token) :
    leadingTrivia (ts ++ us) = leadingTrivia ts := by
  have whole := leadingTrivia_append_afterTrivia (ts ++ us)
  rw [afterTrivia_append next, ← List.cons_append, ← next, ← List.append_assoc,
    List.append_cancel_right_eq] at whole
  exact List.append_cancel_right (whole.trans (leadingTrivia_append_afterTrivia ts).symm)

/-- Where there is nothing but trivia it comes before what follows. -/
theorem trivia_append (none : afterTrivia ts = []) (us : List Token) :
    leadingTrivia (ts ++ us) = ts ++ leadingTrivia us ∧
      afterTrivia (ts ++ us) = afterTrivia us := by
  have trivia : ∀ t ∈ ts, t.isTrivia = true := List.dropWhile_eq_nil_iff.mp none
  exact ⟨List.takeWhile_append_of_pos trivia, List.dropWhile_append_of_pos trivia⟩

end

/-! ## Item by item -/

namespace Form

variable {n : Nat} {frame : List Tree} {ts : List Token}

theorem readAt_script (n : Nat) (frame : List Tree) (ts : List Token) :
    script.readAt n frame ts =
      items.readAt n (frame ++ (leadingTrivia ts).map Tree.leaf) (afterTrivia ts) := by
  have read : script.readAt n frame ts =
      (trivia.readAt n frame ts).andThen (items.readAt n) := rfl
  rw [read, readAt_trivia, Outcome.done_andThen]

/-- At the end of the tokens a script is only the trivia there. -/
theorem script_end (next : nextKind ts = .eof) :
    script.readAt n frame ts =
      .done (frame ++ (leadingTrivia ts).map Tree.leaf) (afterTrivia ts) [] := by
  rw [readAt_script, items, whileNext, readAt_repeated (by decide), leadsTo_empty,
    nextKind_afterTrivia, next]
  rfl

/-- Before the end a script is trivia, an item or what is skipped instead, and a script. -/
theorem script_round (next : nextKind ts ≠ .eof) :
    script.readAt n frame ts =
      ((recover item skippedItem).readAt n (frame ++ (leadingTrivia ts).map Tree.leaf)
        (afterTrivia ts)).andThen (script.readAt n) := by
  rw [readAt_script, items, whileNext, readAt_repeated (by decide), leadsTo_empty,
    nextKind_afterTrivia, if_pos (by simpa using next)]
  exact Outcome.andThen_assoc _ (trivia.readAt n) (items.readAt n)

/-- Behind what is in the frame a script is read as the same parts. -/
theorem script_framed {own : List Tree} {rest : List Token} {reported : List Fault}
    (alone : script.readAt n [] ts = .done own rest reported) (frame : List Tree) :
    script.readAt n frame ts = .done (frame ++ own) rest reported := by
  have same := readAt_into script_productive (by decide) n frame [] ts
  rwa [List.append_nil, alone] at same

/-- An item, or what is skipped instead, takes a token. -/
theorem shorter_of_item {frame' : List Tree} {rest : List Token} {reported : List Fault}
    (next : nextKind ts ≠ .eof)
    (done : (recover item skippedItem).readAt n frame ts = .done frame' rest reported) :
    Shorter rest ts := by
  have advanced := readAt_advances n (recover item skippedItem) frame ts
  have reads : ∀ kind, kind ≠ .eof → (recover item skippedItem).idles kind = false := by
    intro kind
    cases kind <;> decide
  rw [done] at advanced
  rcases advanced with shorter | ⟨-, idle⟩
  · exact shorter
  · simp [reads _ next] at idle

/-- A script behind trivia is the trivia and the script. -/
theorem script_trivia (none : afterTrivia ts = []) (us : List Token) :
    script.readAt n frame (ts ++ us) = script.readAt n (frame ++ ts.map Tree.leaf) us := by
  rw [readAt_script, readAt_script, (trivia_append none us).1, (trivia_append none us).2,
    List.map_append, List.append_assoc]

end Form

end QuestScript.Grammar
