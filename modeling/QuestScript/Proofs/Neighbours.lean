/-
# QuestScript.Proofs.Neighbours -- a statement and what stands behind it

The last token of a statement is a `;` or a `}`, and no look ahead goes past it.  So what was
read in front of some tokens is read in front of any others (`Form.readAt_elsewhere`).  Only one
look ahead comes after the last token of a statement, the one for an `else`, and it is all that a
statement can see of what stands behind (`Form.statement_apart_all`).

The lines of a block are its statements with the trivia between them (`Form.lines`).  Lines in
order stay as they are when other lines are put in place of the closing brace, as long as these
do not begin with an `else` (`Form.lines_adjoin`).
-/
import QuestScript.Proofs.Adjoining

namespace QuestScript.Grammar

open QuestScript.Tree (leaf ofRule)

set_option autoImplicit false

/-! ## Other tokens behind -/

variable {stops : TokenKind → Bool} {a us : List Token}

/-- A place before a landmark, with more tokens behind the landmark. -/
theorem suffix_before {ts left : List Token} (inside : a ++ us <:+ left)
    (ends : left <:+ ts ++ us) : ∃ own, left = own ++ us ∧ a <:+ own ∧ own <:+ ts := by
  obtain ⟨before, rfl⟩ := inside
  rw [← List.append_assoc] at ends ⊢
  exact ⟨before ++ a, rfl, List.suffix_append before a,
    ((List.suffix_append_inj_of_length_eq rfl).mp ends).1⟩

namespace Form

/-- A look ahead that stands before a landmark has the same result with fewer tokens behind. -/
theorem leadsTo_shrinks {look : Form} {own : List Token} (bounds : Bounds stops)
    (landmark : Landmark stops a) (us : List Token) (n : Nat) (admits : TokenKind → Bool)
    (productive : look.productive) (shuns : look.shuns stops (· == .typeArguments))
    (cautious : look.cautious stops) (ahead : a <:+ own) :
    (look.readAt n [] own).leadsTo admits = (look.readAt n [] (own ++ us)).leadsTo admits :=
  (leadsTo_behind admits bounds landmark productive shuns ahead
    (readAt_behind productive cautious bounds landmark us)).symm

/-- What was read up to a place before a landmark is read with anything behind the landmark. -/
theorem readAt_elsewhere {f : Form} (productive : f.productive) (cautious : f.cautious stops)
    (bounds : Bounds stops) (landmark : Landmark stops a) {n : Nat} {frame frame' : List Tree}
    {ts own : List Token} (ahead : a <:+ own)
    (done : f.readAt n frame (ts ++ us) = .done frame' (own ++ us) []) (vs : List Token) :
    f.readAt n frame (ts ++ vs) = .done frame' (own ++ vs) [] := by
  have inside : a ++ us <:+ (f.readAt n frame (ts ++ us)).rest := by
    rw [done]
    exact (List.suffix_append_inj_of_length_eq rfl).mpr ⟨ahead, rfl⟩
  have shrunk := readAt_shrinks productive cautious bounds landmark inside
  rw [done] at shrunk
  cases alone : f.readAt n frame ts with
  | failed fault reported => simp [alone, Outcome.behind] at shrunk
  | done middle between reported =>
      simp only [alone, Outcome.behind, Outcome.done.injEq, List.append_cancel_right_eq,
        List.nil_eq, List.map_eq_nil_iff] at shrunk
      obtain ⟨rfl, rfl, rfl⟩ := shrunk
      rw [readAt_behind productive cautious bounds landmark vs (by rwa [alone]), alone]
      rfl

end Form

/-! ## Statements apart from each other -/

namespace Form

/-- The form comes to its end behind a token that ends a statement, and it is read the same with
anything else behind, but for an `else` that was not there. -/
def Apart (n : Nat) (f : Form) : Prop :=
  ∀ frame frame' ts rest us, f.readAt n frame (ts ++ us) = .done frame' (rest ++ us) [] →
    (∃ t, Landmark endsItem (t :: rest) ∧ t :: rest <:+ ts) ∧
    ∀ vs, (nextKind (rest ++ vs) = .kwElse → nextKind (rest ++ us) = .kwElse) →
      f.readAt n frame (ts ++ vs) = .done frame' (rest ++ vs) []

variable {n : Nat} {first second look yes no : Form} {admits : TokenKind → Bool}

theorem Apart.token {expected : String}
    (ends : TokenKind.all.all fun k => !admits k || endsItem k) :
    (Form.token admits expected).Apart n := by
  intro frame frame' ts rest us done
  obtain ⟨t, next, admitted, rfl⟩ := token_clean.mp done
  have stop : endsItem t.kind := by
    have := List.all_eq_true.mp ends t.kind (TokenKind.mem_all t.kind)
    simpa [admitted] using this
  have landmark : Landmark endsItem (t :: rest) := ⟨isTrivia_of_afterTrivia next, stop⟩
  have ahead : t :: rest <:+ ts := by
    have inside := afterTrivia_suffix (ts ++ us)
    rw [next, ← List.cons_append] at inside
    exact ((List.suffix_append_inj_of_length_eq rfl).mp inside).1
  refine ⟨⟨t, landmark, ahead⟩, fun vs _ => ?_⟩
  obtain ⟨t', rest', next'⟩ := landmark.next ahead
  obtain ⟨rfl, same⟩ := List.cons.inj ((afterTrivia_append next' us).symm.trans next)
  obtain rfl : rest' = rest := List.append_cancel_right same
  refine token_clean.mpr ⟨t', afterTrivia_append next' vs, admitted, ?_⟩
  rw [leadingTrivia_append next', leadingTrivia_append next']

theorem Apart.seq (productive : (first.seq second).productive) (cautious : first.cautious endsItem)
    (h : second.Apart n) : (first.seq second).Apart n := by
  intro frame frame' ts rest us done
  simp only [Form.productive, Bool.and_eq_true] at productive
  obtain ⟨middle, between, read, later⟩ := seq_clean.mp done
  have inside := readAt_suffix productive.2 n middle between
  have ends := readAt_suffix productive.1 n frame (ts ++ us)
  rw [later] at inside
  rw [read] at ends
  obtain ⟨own, rfl, -, within⟩ := suffix_before inside ends
  obtain ⟨⟨t, landmark, ahead⟩, again⟩ := h middle frame' own rest us later
  refine ⟨⟨t, landmark, ahead.trans within⟩, fun vs same => ?_⟩
  exact seq_clean.mpr ⟨middle, own ++ vs,
    readAt_elsewhere productive.1 cautious endsItem_bounds landmark ahead read vs, again vs same⟩

theorem Apart.close {rule : Rule} (h : first.Apart n) : (first.seq (.close rule)).Apart n := by
  intro frame frame' ts rest us done
  obtain ⟨middle, between, read, closed⟩ := seq_clean.mp done
  cases closed
  obtain ⟨landmark, again⟩ := h _ _ _ _ _ read
  exact ⟨landmark, fun vs same => seq_clean.mpr ⟨middle, rest ++ vs, again vs same, rfl⟩⟩

theorem Apart.frame (h : first.Apart n) : (Form.frame first).Apart n := by
  intro outer frame' ts rest us done
  obtain ⟨inner, read, rfl⟩ := Outcome.into_eq_done.mp done
  obtain ⟨landmark, again⟩ := h _ _ _ _ _ read
  exact ⟨landmark, fun vs same => Outcome.into_eq_done.mpr ⟨inner, again vs same, rfl⟩⟩

theorem Apart.node {rule : Rule} (h : first.Apart n) : (Form.node rule first).Apart n :=
  .frame (.close h)

theorem Apart.choose (productive : look.productive)
    (shuns : look.shuns endsItem (· == .typeArguments)) (cautious : look.cautious endsItem)
    (hYes : yes.Apart n) (hNo : no.Apart n) : (Form.choose look admits yes no).Apart n := by
  intro frame frame' ts rest us done
  -- The look ahead stands before the token that ends the statement.
  have same {t : Token} (landmark : Landmark endsItem (t :: rest)) (ahead : t :: rest <:+ ts)
      (vs : List Token) : (look.readAt n [] (ts ++ vs)).leadsTo admits =
        (look.readAt n [] ts).leadsTo admits :=
    (leadsTo_shrinks endsItem_bounds landmark vs n admits productive shuns cautious ahead).symm
  rw [readAt_choose] at done
  split at done
  · rename_i looked
    obtain ⟨⟨t, landmark, ahead⟩, again⟩ := hYes _ _ _ _ _ done
    refine ⟨⟨t, landmark, ahead⟩, fun vs alike => ?_⟩
    rw [readAt_choose, same landmark ahead vs, ← same landmark ahead us, if_pos looked]
    exact again vs alike
  · rename_i failed
    obtain ⟨⟨t, landmark, ahead⟩, again⟩ := hNo _ _ _ _ _ done
    refine ⟨⟨t, landmark, ahead⟩, fun vs alike => ?_⟩
    rw [readAt_choose, same landmark ahead vs, ← same landmark ahead us, if_neg failed]
    exact again vs alike

theorem Apart.ifNext (hYes : yes.Apart n) (hNo : no.Apart n) :
    (Form.ifNext admits yes no).Apart n :=
  .choose rfl rfl rfl hYes hNo

/-- An `else` belongs to the statement before it. -/
theorem Apart.orElse (productive : (first.seq (whenNext (· == .kwElse) yes)).productive)
    (h : first.Apart n) (hYes : yes.Apart n) :
    (first.seq (whenNext (· == .kwElse) yes)).Apart n := by
  intro frame frame' ts rest us done
  simp only [Form.productive, whenNext, Form.ifNext, Bool.and_eq_true] at productive
  obtain ⟨middle, between, read, later⟩ := seq_clean.mp done
  rw [whenNext, Form.ifNext, readAt_choose, leadsTo_empty] at later
  split at later
  · rename_i isElse
    have inside := readAt_suffix productive.2.1.2 n middle between
    have ends := readAt_suffix productive.1 n frame (ts ++ us)
    rw [later] at inside
    rw [read] at ends
    obtain ⟨own, rfl, -, within⟩ := suffix_before inside ends
    obtain ⟨⟨t, landmark, ahead⟩, again⟩ := hYes _ _ _ _ _ later
    refine ⟨⟨t, landmark, ahead.trans within⟩, fun vs same => ?_⟩
    have first' := (h _ _ _ _ _ read).2 vs fun _ => by simpa using isElse
    refine seq_clean.mpr ⟨middle, own ++ vs, first', ?_⟩
    rw [whenNext, Form.ifNext, readAt_choose, leadsTo_empty, landmark.nextKind_append ahead,
      ← landmark.nextKind_append ahead us, if_pos isElse]
    exact again vs same
  · rename_i other
    cases later
    obtain ⟨landmark, again⟩ := h _ _ _ _ _ read
    refine ⟨landmark, fun vs same => seq_clean.mpr ⟨frame', rest ++ vs, again vs same, ?_⟩⟩
    rw [whenNext, Form.ifNext, readAt_choose, leadsTo_empty, if_neg]
    · rfl
    · intro isElse
      exact other (by simpa using same (by simpa using isElse))

/-- A statement stands apart if what it may be does, one level deeper. -/
theorem statement_apart (deeper : ∀ m, n = m + 1 → anyStatement.Apart m) : statement.Apart n := by
  refine .frame fun frame frame' ts rest us done => ?_
  cases n with
  | zero => cases done
  | succ m => exact deeper m rfl frame frame' ts rest us done

/-- Every statement ends with the token that ends it or with another statement. -/
theorem anyStatement_apart_of (inner : statement.Apart n) : anyStatement.Apart n := by
  have semi : (one .semi).Apart n := .token (by decide)
  refine .ifNext ?isBlock (.ifNext ?isIf (.ifNext ?isFor (.ifNext ?isWhile (.ifNext ?isReturn
    (.choose (by decide) (by decide) (by decide) ?isVariable ?isExpression)))))
  case isBlock =>
    exact .node (.seq (by decide) (by decide) (.seq (by decide) (by decide)
      (.seq (by decide) (by decide) (.token (by decide)))))
  case isIf =>
    exact .node (.seq (by decide) (by decide) (.seq (by decide) (by decide)
      (.seq (by decide) (by decide) (.orElse (by decide) inner
        (.seq (by decide) (by decide) (.seq (by decide) (by decide) inner))))))
  case isFor =>
    exact .node (.seq (by decide) (by decide) (.seq (by decide) (by decide)
      (.seq (by decide) (by decide) (.seq (by decide) (by decide)
        (.seq (by decide) (by decide) inner)))))
  case isWhile =>
    exact .node (.seq (by decide) (by decide) (.seq (by decide) (by decide)
      (.seq (by decide) (by decide) inner)))
  case isReturn =>
    exact .node (.seq (by decide) (by decide) (.seq (by decide) (by decide) semi))
  case isVariable => exact .node (.seq (by decide) (by decide) semi)
  case isExpression => exact .node (.seq (by decide) (by decide) semi)

/-- **A statement is read the same whatever stands behind it**, but for an `else`. -/
theorem statement_apart_all (n : Nat) : statement.Apart n := by
  induction n with
  | zero => exact statement_apart fun m next => by omega
  | succ n ih =>
      refine statement_apart fun m next => ?_
      obtain rfl : n = m := by omega
      exact anyStatement_apart_of ih

/-! ## Statement by statement -/

/-- What stands in a block behind its opening brace. -/
def lines : Form := Form.trivia >> statements

variable {frame frame' : List Tree} {ts rest : List Token} {reported : List Fault}

theorem readAt_lines (n : Nat) (frame : List Tree) (ts : List Token) :
    lines.readAt n frame ts =
      statements.readAt n (frame ++ (leadingTrivia ts).map leaf) (afterTrivia ts) := by
  have read : lines.readAt n frame ts =
      (trivia.readAt n frame ts).andThen (statements.readAt n) := rfl
  rw [read, readAt_trivia, Outcome.done_andThen]

/-- Where the block ends only the trivia before that is read. -/
theorem lines_end (ends : endsBlock (nextKind ts)) :
    lines.readAt n frame ts =
      .done (frame ++ (leadingTrivia ts).map leaf) (afterTrivia ts) [] := by
  rw [readAt_lines, statements, whileNext, readAt_repeated (by decide), leadsTo_empty,
    nextKind_afterTrivia, ends]
  rfl

/-- Before that there is trivia, a statement or what is skipped instead, and more lines. -/
theorem lines_round (goesOn : endsBlock (nextKind ts) = false) :
    lines.readAt n frame ts =
      ((recover statement skippedStatement).readAt n (frame ++ (leadingTrivia ts).map leaf)
        (afterTrivia ts)).andThen (lines.readAt n) := by
  rw [readAt_lines, statements, whileNext, readAt_repeated (by decide), leadsTo_empty,
    nextKind_afterTrivia, if_pos (by simp [goesOn])]
  exact Outcome.andThen_assoc _ (trivia.readAt n) (statements.readAt n)

/-- Lines behind trivia are the trivia and the lines. -/
theorem lines_trivia (none : afterTrivia ts = []) (us : List Token) :
    lines.readAt n frame (ts ++ us) = lines.readAt n (frame ++ ts.map leaf) us := by
  rw [readAt_lines, readAt_lines, (trivia_append none us).1, (trivia_append none us).2,
    List.map_append, List.append_assoc]

/-- Behind what is in the frame the same lines are read. -/
theorem lines_framed (n : Nat) (frame : List Tree) (ts : List Token) :
    lines.readAt n frame ts = (lines.readAt n [] ts).into frame := by
  have same := readAt_into (by decide : lines.productive) (by decide) n frame [] ts
  rwa [List.append_nil] at same

theorem shorter_of_statement (done : statement.readAt n frame ts = .done frame' rest reported) :
    Shorter rest ts := by
  have advanced := readAt_advances n statement frame ts
  rw [done] at advanced
  exact advanced.resolve_right fun ⟨_, idle⟩ => by cases idle

/-- An `else` that does not stand in front of the tokens behind stands before them, whatever they
are. -/
theorem kwElse_inside {own us vs : List Token} (other : nextKind us ≠ .kwElse)
    (isElse : nextKind (own ++ us) = .kwElse) : nextKind (own ++ vs) = .kwElse := by
  cases next : afterTrivia own with
  | nil =>
      rw [← nextKind_afterTrivia, (trivia_append next us).2, nextKind_afterTrivia] at isElse
      exact absurd isElse other
  | cons t rest =>
      rwa [nextKind_of_afterTrivia (afterTrivia_append next us),
        ← nextKind_of_afterTrivia (afterTrivia_append next vs)] at isElse

/-- **Lines are read one apart from the other.**  Lines that come to an end in front of a closing
brace are read the same with other lines there, if these do not begin with an `else`. -/
theorem lines_adjoin {frame frame' : List Tree} {ts us after : List Token} {closing : Token}
    (closes : closing.kind = .rBrace)
    (done : lines.readAt n frame (ts ++ closing :: after) = .done frame' (closing :: after) [])
    (other : nextKind us ≠ .kwElse) :
    lines.readAt n frame (ts ++ us) = lines.readAt n frame' us := by
  -- By induction on the significant tokens: a round is one statement, and leaves fewer.
  cases first : afterTrivia ts with
  | nil =>
      have plain : closing.isTrivia = false := isTrivia_of_kind closes rfl
      have last : nextKind (closing :: after) = .rBrace := (nextKind_cons plain after).trans closes
      rw [lines_trivia first, lines_end (by simp [last, endsBlock])] at done
      obtain ⟨rfl, -, -⟩ := Outcome.done.inj done
      rw [lines_trivia first, leadingTrivia_cons plain, List.map_nil, List.append_nil]
  | cons t more =>
      have begins (vs : List Token) : nextKind (ts ++ vs) = t.kind :=
        nextKind_of_afterTrivia (afterTrivia_append first vs)
      cases ends : endsBlock t.kind with
      | true =>
          rw [lines_end (by rw [begins, ends]), afterTrivia_append first] at done
          have := congrArg List.length (Outcome.done.inj done).2.1
          simp at this
          omega
      | false =>
          rw [lines_round (by rw [begins, ends]), leadingTrivia_append first,
            afterTrivia_append first, andThen_clean] at done
          obtain ⟨middle, between, read, later⟩ := done
          have inside := readAt_suffix (by decide : lines.productive) n middle between
          rw [later] at inside
          have within : between <:+ t :: more ++ closing :: after := by
            have := readAt_suffix (by decide : statement.productive) n
              (frame ++ (leadingTrivia ts).map leaf) (t :: more ++ closing :: after)
            rwa [List.cons_append, recover_clean.mp read] at this
          obtain ⟨own, rfl, -, -⟩ := suffix_before (a := []) inside within
          -- The statement saw nothing of what stood behind it but an `else`, and there is none.
          have again := (statement_apart_all n _ _ (t :: more) own (closing :: after)
            (recover_clean.mp read)).2 us (kwElse_inside other)
          have shorter : Shorter own ts := by
            have := shorter_of_statement (recover_clean.mp read)
            rw [Shorter, ← List.cons_append, ← first] at this
            simpa [Shorter] using this
          rw [lines_round (by rw [begins, ends]), leadingTrivia_append first,
            afterTrivia_append first, ← List.cons_append, recover_clean.mpr again,
            Outcome.done_andThen]
          exact lines_adjoin closes later other
termination_by (significant ts).length
decreasing_by exact shorter

end Form

end QuestScript.Grammar
