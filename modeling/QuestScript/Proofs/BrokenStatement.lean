/-
# QuestScript.Proofs.BrokenStatement -- one bad statement costs one error

Tokens up to a semicolon, without braces, `for`, `else` or the beginning of an item among them,
are one statement or none: a statement that reads the semicolon ends there, and any other gives
up before it, with nothing reported on the way (`Form.statement_staysWithin`).  In place of a
statement that gave up everything is skipped up to the semicolon, and that too
(`Form.skippedStatement_semi`).  So the lines before a bad statement stay as they are, those
behind it are read afresh, and one error is reported, at a token that was skipped
(`Form.lines_around_broken`, `Parsed.one_error_of_broken_statement`).
-/
import QuestScript.Proofs.LookAhead
import QuestScript.Proofs.ProcessBody

namespace QuestScript

open QuestScript.Tree (leaf ofRule)

set_option autoImplicit false

namespace Grammar

/-! ## Up to a semicolon -/

/-- Neither a semicolon or a brace, nor a keyword behind which more than one may stand, nor the
beginning of an item, nor the end. -/
def runsOn (kind : TokenKind) : Bool :=
  kind != .semi && kind != .lBrace && kind != .rBrace && kind != .kwFor && kind != .kwElse &&
    kind != .eof && !kind.startsItem

/-- Up to and including the semicolon `s` everything is read, or reading gave up before it; and
nothing was reported. -/
def Outcome.Within (s : Token) : Outcome → Prop
  | .done _ rest reported => rest = [] ∧ reported = []
  | .failed fault reported => [s] <:+ fault.rest ∧ reported = []

namespace Form

/-- Of tokens up to their only semicolon the form reads all, or it gives up before the last. -/
def StaysWithin (n : Nat) (f : Form) : Prop :=
  ∀ frame ts s, (∀ t ∈ ts, runsOn t.kind) → s.kind = .semi →
    (f.readAt n frame (ts ++ [s])).Within s

/-- No statement is entered. -/
def isExpression (entry : Entry) : Bool := entry != .statement

/-- Below a statement no semicolon is read and nothing is recovered from. -/
theorem expression_allowed (entry : Entry) (is : isExpression entry) :
    entry.form.shuns (· == .semi) isExpression ∧ entry.form.mute isExpression := by
  cases entry with
  | statement => cases is
  | link least own => cases least <;> cases own <;> decide
  | _ => decide

section

variable {n : Nat} {first second look yes no : Form} {admits : TokenKind → Bool}
  {ts : List Token} {s : Token}

theorem landmark_semi (isSemi : s.kind = .semi) (us : List Token) :
    Landmark (· == .semi) (s :: us) :=
  ⟨isTrivia_of_kind isSemi rfl, by simp [isSemi]⟩

theorem nextKind_semi (plain : ∀ t ∈ ts, runsOn t.kind) (isSemi : s.kind = .semi)
    (us : List Token) :
    runsOn (nextKind (ts ++ s :: us)) ∨ nextKind (ts ++ s :: us) = .semi := by
  cases next : afterTrivia ts with
  | nil =>
      refine .inr ?_
      rw [← nextKind_afterTrivia, (trivia_append next _).2, nextKind_afterTrivia,
        nextKind_cons (isTrivia_of_kind isSemi rfl), isSemi]
  | cons t rest =>
      rw [nextKind_of_afterTrivia (afterTrivia_append next _)]
      exact .inl (plain t ((afterTrivia_suffix ts).subset (by simp [next])))

theorem StaysWithin.semi : (one .semi).StaysWithin n := by
  intro frame ts s plain isSemi
  rcases Reader.ofToken_cases (fun t => if t.kind == .semi then none else
      some (.expected TokenKind.semi.display)) (.expected TokenKind.semi.display) frame
      (ts ++ [s]) with ⟨cause, failed⟩ | ⟨t, rest, next, passes, done⟩
  · have read : (one .semi).readAt n frame (ts ++ [s]) = _ := failed
    rw [read]
    exact ⟨List.suffix_append ts [s], rfl⟩
  · have read : (one .semi).readAt n frame (ts ++ [s]) = _ := done
    rw [read]
    refine ⟨?_, rfl⟩
    -- The semicolon that was read is the last token: there is no other.
    have ahead := (landmark_semi isSemi []).suffix_afterTrivia (List.suffix_append ts [s])
    rw [next, List.suffix_cons_iff] at ahead
    rcases ahead with last | ⟨own, rfl⟩
    · exact (List.cons.inj last).2.symm
    · have inside := afterTrivia_suffix (ts ++ [s])
      rw [next, ← List.cons_append] at inside
      have plain' := plain t (((List.suffix_append_inj_of_length_eq rfl).mp inside).1.subset
        List.mem_cons_self)
      have other : t.kind ≠ .semi := by
        intro same
        simp [runsOn, same] at plain'
      simp [other] at passes

theorem StaysWithin.seq (productive : (first.seq second).productive)
    (shuns : first.shuns (· == .semi) isExpression) (mute : first.mute isExpression)
    (h : second.StaysWithin n) : (first.seq second).StaysWithin n := by
  intro frame ts s plain isSemi
  simp only [Form.productive, Bool.and_eq_true] at productive
  have stands := readAt_shuns productive.1 (landmark_semi isSemi [])
    (fun entry is => (expression_allowed entry is).1) shuns n frame (List.suffix_append ts [s])
  have quiet := readAt_mute productive.1 (fun entry is => (expression_allowed entry is).2) mute n
    frame (ts ++ [s])
  have ends := readAt_suffix productive.1 n frame (ts ++ [s])
  rw [readAt_seq]
  cases read : first.readAt n frame (ts ++ [s]) with
  | failed fault reported =>
      rw [read] at stands quiet
      exact ⟨stands _ List.mem_cons_self, quiet⟩
  | done middle between reported =>
      rw [read] at stands quiet ends
      obtain rfl : reported = [] := quiet
      obtain ⟨own, rfl, -, inside⟩ :=
        suffix_before (a := []) (stands _ List.mem_cons_self) ends
      rw [Outcome.done_andThen]
      exact h middle own s (fun t member => plain t (inside.subset member)) isSemi

/-- What reads nothing at the end may come behind. -/
theorem StaysWithin.andThenNothing (h : first.StaysWithin n)
    (idle : ∀ frame, ∃ frame', second.readAt n frame [] = .done frame' [] []) :
    (first.seq second).StaysWithin n := by
  intro frame ts s plain isSemi
  have within := h frame ts s plain isSemi
  rw [readAt_seq]
  cases read : first.readAt n frame (ts ++ [s]) with
  | failed fault reported =>
      rw [read] at within
      exact within
  | done middle rest reported =>
      rw [read] at within
      obtain ⟨rfl, rfl⟩ := within
      obtain ⟨frame', nothing⟩ := idle middle
      rw [Outcome.done_andThen, nothing]
      exact ⟨rfl, rfl⟩

theorem StaysWithin.close {rule : Rule} (h : first.StaysWithin n) :
    (first.seq (.close rule)).StaysWithin n := h.andThenNothing fun _ => ⟨_, rfl⟩

theorem StaysWithin.frame (h : first.StaysWithin n) : (Form.frame first).StaysWithin n := by
  intro frame ts s plain isSemi
  have within := h [] ts s plain isSemi
  rw [readAt_frame]
  cases read : first.readAt n [] (ts ++ [s]) <;> rw [read] at within <;> exact within

theorem StaysWithin.node {rule : Rule} (h : first.StaysWithin n) :
    (Form.node rule first).StaysWithin n := .frame (.close h)

theorem StaysWithin.choose (hYes : yes.StaysWithin n) (hNo : no.StaysWithin n) :
    (Form.choose look admits yes no).StaysWithin n := by
  intro frame ts s plain isSemi
  rw [readAt_choose]
  split
  · exact hYes frame ts s plain isSemi
  · exact hNo frame ts s plain isSemi

/-- A form for a token that does not come is not read. -/
theorem StaysWithin.otherwise
    (never : TokenKind.all.all fun k => !(admits k && (runsOn k || k == .semi)))
    (hNo : no.StaysWithin n) : (ifNext admits yes no).StaysWithin n := by
  intro frame ts s plain isSemi
  have refused : admits (nextKind (ts ++ [s])) = false := by
    have := List.all_eq_true.mp never _ (TokenKind.mem_all (nextKind (ts ++ [s])))
    rcases nextKind_semi plain isSemi [] with run | isSemi
    · simpa [run] using this
    · simpa [isSemi] using this
  rw [ifNext, readAt_choose, leadsTo_empty, if_neg (by simp [refused])]
  exact hNo frame ts s plain isSemi

/-- Behind the semicolon nothing comes, and so no `else`. -/
theorem StaysWithin.orElse (h : first.StaysWithin n) :
    (first.seq (whenNext (· == .kwElse) yes)).StaysWithin n :=
  h.andThenNothing fun frame => ⟨frame, rfl⟩

theorem statement_staysWithin_of (deeper : ∀ m, n = m + 1 → anyStatement.StaysWithin m) :
    statement.StaysWithin n := by
  refine .frame fun frame ts s plain isSemi => ?_
  cases n with
  | zero => exact ⟨List.suffix_append ts [s], rfl⟩
  | succ m => exact deeper m rfl frame ts s plain isSemi

theorem anyStatement_staysWithin_of (inner : statement.StaysWithin n) :
    anyStatement.StaysWithin n := by
  refine .otherwise (by decide) (.choose ?isIf (.otherwise (by decide) (.choose ?isWhile
    (.choose ?isReturn (.choose ?isVariable ?isExpression)))))
  case isIf =>
    exact .node (.seq (by decide) (by decide) (by decide) (.seq (by decide) (by decide) (by decide)
      (.seq (by decide) (by decide) (by decide) (.orElse inner))))
  case isWhile =>
    exact .node (.seq (by decide) (by decide) (by decide) (.seq (by decide) (by decide) (by decide)
      (.seq (by decide) (by decide) (by decide) inner)))
  case isReturn =>
    exact .node (.seq (by decide) (by decide) (by decide)
      (.seq (by decide) (by decide) (by decide) .semi))
  case isVariable => exact .node (.seq (by decide) (by decide) (by decide) .semi)
  case isExpression => exact .node (.seq (by decide) (by decide) (by decide) .semi)

/-- **A statement does not go on behind its semicolon.** -/
theorem statement_staysWithin (n : Nat) : statement.StaysWithin n := by
  induction n with
  | zero => exact statement_staysWithin_of fun m next => by omega
  | succ n ih =>
      refine statement_staysWithin_of fun m next => ?_
      obtain rfl : n = m := by omega
      exact anyStatement_staysWithin_of ih

/-! ## What is skipped -/

/-- With a semicolon next, that is the only token of its kind, it is read. -/
theorem semi_next (plain : ∀ t ∈ ts, runsOn t.kind) (isSemi : s.kind = .semi) {us : List Token}
    (next : nextKind (ts ++ s :: us) = .semi) : afterTrivia (ts ++ s :: us) = s :: us := by
  cases first : afterTrivia ts with
  | nil =>
      rw [(trivia_append first _).2]
      exact afterTrivia_cons (isTrivia_of_kind isSemi rfl) us
  | cons t rest =>
      rw [nextKind_of_afterTrivia (afterTrivia_append first _)] at next
      have := plain t ((afterTrivia_suffix ts).subset (by simp [first]))
      simp [runsOn, next] at this

/-- A block does not end before the semicolon. -/
theorem goesOn_to_semi (plain : ∀ t ∈ ts, runsOn t.kind) (isSemi : s.kind = .semi)
    (us : List Token) : endsBlock (nextKind (ts ++ s :: us)) = false := by
  rcases nextKind_semi plain isSemi us with run | isSemi
  · revert run
    cases nextKind (ts ++ s :: us) <;> decide
  · rw [isSemi]; rfl

/-- Skipping stops in front of the semicolon. -/
theorem skipped_to_semi (plain : ∀ t ∈ ts, runsOn t.kind) (isSemi : s.kind = .semi) (n : Nat)
    (us : List Token) :
    ∃ middle own, (takeWhile fun kind => !endsBlock kind && kind != .semi).readAt n []
        (ts ++ s :: us) = .done middle (own ++ s :: us) [] ∧
      (∀ t ∈ own, runsOn t.kind) ∧ nextKind (own ++ s :: us) = .semi := by
  let skips : Form := takeWhile fun kind => !endsBlock kind && kind != .semi
  have productive : skips.productive := by decide
  obtain ⟨middle, between, reported, skipped⟩ :
      ∃ middle between reported, skips.readAt n [] (ts ++ s :: us) =
        .done middle between reported := sure_takeWhile rfl n [] (ts ++ s :: us)
  have quiet := readAt_mute productive (fun entry is => (expression_allowed entry is).2)
    (by decide) n [] (ts ++ s :: us)
  have stands := readAt_shuns productive (landmark_semi isSemi us)
    (fun entry is => (expression_allowed entry is).1) (by decide) n []
    (List.suffix_append ts (s :: us))
  have ends := readAt_suffix productive n [] (ts ++ s :: us)
  rw [skipped] at quiet stands ends
  obtain rfl : reported = [] := quiet
  obtain ⟨own, rfl, -, inside⟩ := suffix_before (a := []) (stands _ List.mem_cons_self) ends
  have plain' : ∀ t ∈ own, runsOn t.kind := fun t member => plain t (inside.subset member)
  refine ⟨middle, own, skipped, plain', (nextKind_semi plain' isSemi us).resolve_left fun run => ?_⟩
  have stopped := (repeated_done productive (fun _ _ => True) (fun _ _ _ _ _ _ _ _ => trivial)
    trivial skipped).2
  rw [leadsTo_empty] at stopped
  revert run stopped
  cases nextKind (own ++ s :: us) <;> decide

/-- In place of a statement everything is skipped up to the semicolon, and that too. -/
theorem skippedStatement_semi (plain : ∀ t ∈ ts, runsOn t.kind) (isSemi : s.kind = .semi)
    (n : Nat) (frame : List Tree) (us : List Token) :
    ∃ parts, skippedStatement.readAt n frame (ts ++ s :: us) =
      .done (frame ++ [ofRule .error parts]) us [] := by
  obtain ⟨middle, own, skipped, plain', next⟩ := skipped_to_semi plain isSemi n us
  refine ⟨middle ++ (leadingTrivia (own ++ s :: us) ++ [s]).map leaf, ?_⟩
  rw [skippedStatement, unlessNext, ifNext, readAt_choose, leadsTo_empty,
    if_neg (by simp [goesOn_to_semi plain isSemi us])]
  refine node_clean.mpr ⟨_, seq_clean.mpr ⟨middle, own ++ s :: us, skipped, ?_⟩, rfl⟩
  rw [whenNext, ifNext, readAt_choose, leadsTo_empty, if_pos (by simp [next])]
  exact one_clean.mpr ⟨s, semi_next plain' isSemi next, isSemi, rfl⟩

/-! ## A statement that cannot be read -/

/-- The tokens are read as one statement, in order and with none of them left. -/
def AcceptsStatement (n : Nat) (ts : List Token) : Prop :=
  ∃ parts, (Form.trivia >> statement).readAt n [] ts = .done parts [] []

instance (n : Nat) (ts : List Token) : Decidable (AcceptsStatement n ts) :=
  match read : (Form.trivia >> statement).readAt n [] ts with
  | .done parts [] [] => isTrue ⟨parts, read⟩
  | .done _ (_ :: _) _ | .done _ [] (_ :: _) | .failed _ _ =>
      isFalse fun ⟨_, done⟩ => nomatch read.symm.trans done

theorem readAt_statement (n : Nat) (frame : List Tree) (ts : List Token) :
    statement.readAt n frame ts = (statement.readAt n [] ts).into frame := by
  have same := readAt_into (by decide : statement.productive) (by decide) n frame [] ts
  rwa [List.append_nil] at same

theorem landmark_endsItem (isSemi : s.kind = .semi) : Landmark endsItem [s] :=
  ⟨isTrivia_of_kind isSemi rfl, by simp [endsItem, isSemi]⟩

/-- A bad statement gives up before the semicolon, whatever stands in the frame and behind. -/
theorem statement_broken (plain : ∀ t ∈ ts, runsOn t.kind) (isSemi : s.kind = .semi)
    (broken : ∀ parts, statement.readAt n [] (ts ++ [s]) ≠ .done parts [] [])
    (frame : List Tree) (us : List Token) :
    ∃ (fault : Fault) (left : List Token), statement.readAt n frame (ts ++ s :: us) =
      .failed fault [] ∧ fault.rest = left ++ s :: us ∧ left <:+ ts := by
  have within := statement_staysWithin n [] ts s plain isSemi
  cases read : statement.readAt n [] (ts ++ [s]) with
  | done parts rest reported =>
      rw [read] at within
      obtain ⟨rfl, rfl⟩ := within
      exact absurd read (broken parts)
  | failed fault reported =>
      rw [read] at within
      obtain ⟨ahead, rfl⟩ := within
      have ends := readAt_suffix (by decide : statement.productive) n [] (ts ++ [s])
      rw [read] at ends
      obtain ⟨left, leaves, -, inside⟩ := suffix_before (a := []) ahead ends
      refine ⟨fault.behind us, left, ?_, by simp [Fault.behind, leaves], inside⟩
      have whole : ts ++ s :: us = ts ++ [s] ++ us := by simp
      rw [whole, readAt_statement, readAt_behind (by decide) (by decide) endsItem_bounds
        (landmark_endsItem isSemi) us (by rw [read]; exact ahead), read]
      rfl

/-- Lines that begin with a bad statement up to a semicolon: the statement is one error, told of one
of its tokens, and the lines behind it are read. -/
theorem lines_broken (plain : ∀ t ∈ ts, runsOn t.kind) (isSemi : s.kind = .semi)
    (broken : ¬ AcceptsStatement n (ts ++ [s])) (frame : List Tree) (us : List Token) :
    ∃ (gap : List Token) (parts : List Tree) (fault : Fault),
      s :: us <:+ fault.rest ∧ fault.rest <:+ ts ++ s :: us ∧
      lines.readAt n frame (ts ++ s :: us) =
        (Outcome.done (frame ++ gap.map leaf ++ [ofRule .error parts]) us [fault]).andThen
          (lines.readAt n) := by
  have landmark := landmark_endsItem isSemi
  obtain ⟨t, rest, next⟩ := landmark.next (List.suffix_append ts [s])
  obtain ⟨own, split, -, inside⟩ := suffix_before (a := [])
    (landmark.suffix_afterTrivia (List.suffix_append ts [s])) (afterTrivia_suffix (ts ++ [s]))
  have plain' : ∀ t ∈ own, runsOn t.kind := fun t member => plain t (inside.subset member)
  -- The trivia before the statement belongs to the block; without it the statement is as bad.
  have broken' (parts : List Tree) : statement.readAt n [] (own ++ [s]) ≠ .done parts [] [] := by
    intro done
    refine broken ⟨(leadingTrivia (ts ++ [s])).map leaf ++ parts, ?_⟩
    refine seq_clean.mpr ⟨_, _, trivia_clean.mpr ⟨rfl, rfl⟩, ?_⟩
    rw [split, readAt_statement, done]
    rfl
  let outer := frame ++ (leadingTrivia (ts ++ [s])).map leaf
  obtain ⟨fault, left, failed, leaves, within⟩ := statement_broken plain' isSemi broken' outer us
  obtain ⟨parts, skipped⟩ := skippedStatement_semi (fun t member => plain' t (within.subset member))
    isSemi n outer us
  refine ⟨leadingTrivia (ts ++ [s]), parts, fault, ?_, ?_, ?_⟩
  · exact leaves ▸ List.suffix_append left (s :: us)
  · rw [leaves]
    exact (List.suffix_append_inj_of_length_eq rfl).mpr ⟨within.trans inside, rfl⟩
  · have begins : leadingTrivia (ts ++ s :: us) = leadingTrivia (ts ++ [s]) ∧
        afterTrivia (ts ++ s :: us) = own ++ s :: us := by
      have whole : ts ++ s :: us = ts ++ [s] ++ us := by simp
      rw [whole, leadingTrivia_append next, afterTrivia_append next, ← List.cons_append, ← next,
        split]
      simp
    rw [lines_round (goesOn_to_semi plain isSemi us), begins.1, begins.2, readAt_recover, failed,
      Outcome.orElse, leaves, skipped]
    rfl

/-- Between lines in order a bad statement costs one error, and the lines stay as they are. -/
theorem lines_around_broken {as bs after : List Token} {closing : Token}
    {frame inner own : List Tree} (closes : closing.kind = .rBrace)
    (first : lines.readAt n frame (as ++ closing :: after) = .done inner (closing :: after) [])
    (last : lines.readAt n [] (bs ++ closing :: after) = .done own (closing :: after) [])
    (plain : ∀ t ∈ ts, runsOn t.kind) (isSemi : s.kind = .semi)
    (broken : ¬ AcceptsStatement n (ts ++ [s])) :
    ∃ (gap : List Token) (parts : List Tree) (fault : Fault),
      s :: (bs ++ closing :: after) <:+ fault.rest ∧
      fault.rest <:+ ts ++ s :: (bs ++ closing :: after) ∧
      lines.readAt n frame (as ++ (ts ++ s :: (bs ++ closing :: after))) =
        .done (inner ++ gap.map leaf ++ [ofRule .error parts] ++ own) (closing :: after)
          [fault] := by
  let us := bs ++ closing :: after
  have other : nextKind (ts ++ s :: us) ≠ .kwElse := by
    rcases nextKind_semi plain isSemi us with run | isSemi
    · exact fun isElse => by simp [runsOn, isElse] at run
    · simp [isSemi]
  obtain ⟨gap, parts, fault, ahead, inside, skipped⟩ := lines_broken plain isSemi broken inner us
  refine ⟨gap, parts, fault, ahead, inside, ?_⟩
  calc lines.readAt n frame (as ++ (ts ++ s :: us))
      = lines.readAt n inner (ts ++ s :: us) := lines_adjoin closes first other
    _ = (Outcome.done (inner ++ gap.map leaf ++ [ofRule .error parts]) us [fault]).andThen
          (lines.readAt n) := skipped
    _ = _ := by
        rw [Outcome.andThen, lines_framed, last]
        rfl

end

end Form

end Grammar

namespace Parsed

open Grammar

variable {limit : Nat} {opening as bs ts ending : List Token} {s : Token}

/-- **One bad statement costs one error.**  Between two bodies of a process that are in order let
tokens up to a semicolon be no statement.  Then one error is reported, at one of these tokens, and
the statements of the process are those of both bodies. -/
theorem one_error_of_broken_statement (opens : OpensProcess opening) (closes : ClosesProcess ending)
    (first : AcceptsBody limit opening as ending) (last : AcceptsBody limit opening bs ending)
    (run : ∀ t ∈ ts, runsOn t.kind) (isSemi : s.kind = .semi)
    (broken : ¬ Form.AcceptsStatement limit (ts ++ [s])) :
    (∃ d, (ofTokens limit (opening ++ (as ++ ts ++ s :: bs) ++ ending)).diagnostics = [d] ∧
      ∃ t ∈ ts ++ [s], t.isTrivia = false ∧ d.span = t.span) ∧
    (ofTokens limit (opening ++ (as ++ ts ++ s :: bs) ++ ending)).bodyStatements =
      (ofTokens limit (opening ++ as ++ ending)).bodyStatements ++
        (ofTokens limit (opening ++ bs ++ ending)).bodyStatements := by
  obtain ⟨keyword, behind, name, next, brace, gap, o⟩ := opens.split
  obtain _ | ⟨closing, ending⟩ := ending
  · cases closes
  obtain ⟨inner, read, statements⟩ := first.read o closes
  obtain ⟨_, read', statements'⟩ := last.read o closes
  -- The last statements are read afresh, behind whatever is in the frame.
  rw [Form.lines_trivia o.none, Form.lines_framed] at read'
  obtain ⟨own, alone, rfl⟩ := Outcome.into_eq_done.mp read'
  rw [← List.append_assoc] at read
  obtain ⟨lead, parts, fault, ahead, inside, whole⟩ :=
    Form.lines_around_broken closes.1 read alone run isSemi broken
  have noEnd : ∀ t ∈ opening ++ (as ++ ts ++ s :: bs), t.kind ≠ .eof := by
    intro t member
    simp only [List.mem_append, List.mem_cons] at member
    obtain member | (member | member) | rfl | member := member
    · exact first.noEnd t (by simp [member])
    · exact first.noEnd t (by simp [member])
    · exact fun isEnd => by simpa [runsOn, isEnd] using run t member
    · simp [isSemi]
    · exact last.noEnd t (by simp [member])
  obtain ⟨scriptEnd, told, parsed⟩ := ofTokens_of_lines o closes noEnd (by simpa using whole)
  refine ⟨⟨Diagnostic.ofFault limit scriptEnd fault, told, ?_⟩, ?_⟩
  · exact span_before_landmark (Form.landmark_semi isSemi _) ahead inside limit scriptEnd
  · rw [parsed, statements, statements']
    simp only [List.filter_append, filter_leaves, List.append_nil]
    rw [List.filter_cons_of_neg (by exact fun isStatement => nomatch isStatement),
      List.filter_cons_of_neg (by exact fun isStatement => nomatch isStatement), List.filter_nil]

/-- An assignment without its value between two statements. -/
theorem one_error_of_broken_assignment :
    let opening := body (Token.ofText "process p \x7b ".toList)
    let as := body (Token.ofText "a = 1; ".toList)
    let ts := body (Token.ofText "b = ".toList)
    let bs := body (Token.ofText "if (a) \x7b c(); \x7d ".toList)
    let ending := Token.ofText "\x7d\n".toList
    ∃ s ∈ Token.ofText "; ".toList,
      (∃ d, (ofTokens 8 (opening ++ (as ++ ts ++ s :: bs) ++ ending)).diagnostics = [d] ∧
        ∃ t ∈ ts ++ [s], t.isTrivia = false ∧ d.span = t.span) ∧
      (ofTokens 8 (opening ++ (as ++ ts ++ s :: bs) ++ ending)).bodyStatements =
        (ofTokens 8 (opening ++ as ++ ending)).bodyStatements ++
          (ofTokens 8 (opening ++ bs ++ ending)).bodyStatements := by
  intro opening as ts bs ending
  obtain ⟨s, isFirst⟩ := Option.isSome_iff_exists.mp
    (by decide +kernel : (Token.ofText "; ".toList).head?.isSome)
  have isSemi : ∀ s ∈ (Token.ofText "; ".toList).head?, s.kind = .semi ∧
      ¬ Form.AcceptsStatement 8 (ts ++ [s]) := by decide +kernel
  obtain ⟨isSemi, broken⟩ := isSemi s isFirst
  have opens : OpensProcess opening := by decide +kernel
  have closes : ClosesProcess ending := by decide +kernel
  have first : AcceptsBody 8 opening as ending :=
    ⟨by decide +kernel, by decide +kernel, by decide +kernel⟩
  have last : AcceptsBody 8 opening bs ending :=
    ⟨by decide +kernel, by decide +kernel, by decide +kernel⟩
  have run : ∀ t ∈ ts, runsOn t.kind := by decide +kernel
  refine ⟨s, List.mem_of_mem_head? isFirst, ?_⟩
  exact one_error_of_broken_statement opens closes first last run isSemi broken

end Parsed

end QuestScript
