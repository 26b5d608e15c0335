/-
# QuestScript.Proofs.LookAhead -- what was seen ahead is then read

Three times the grammar looks ahead for a type: where a variable may be declared, in the header
of a loop, and where a parenthesis may open a cast.  The look ahead leaves no nodes, so the type
is read a second time, under a node of its own, and behind trivia that the first reading took
for its own.  It comes to the same end, and so what was seen is there (`Form.declaration_read`,
`Form.each_read`).

A cast takes a level for itself, so its type has one level less than when it was looked for.
With fewer levels a type is read in the same way or not for want of levels
(`Form.typeParts_cut`), and nothing else can go wrong before the operand (`Form.cast_read`).
-/
import QuestScript.Proofs.Limits

namespace QuestScript.Grammar

open QuestScript.Tree (leaf ofRule)

set_option autoImplicit false

theorem afterTrivia_of_nextKind {ts : List Token} {kind : TokenKind} (next : nextKind ts = kind)
    (some : kind ≠ .eof) : ∃ t rest, afterTrivia ts = t :: rest ∧ t.kind = kind := by
  cases first : afterTrivia ts with
  | nil =>
      rw [← nextKind_afterTrivia, first] at next
      exact absurd next.symm some
  | cons t rest => exact ⟨t, rest, rfl, (nextKind_of_afterTrivia first).symm.trans next⟩

/-! ## Forms that report nothing -/

/-- The faults that were reported on the way. -/
def Outcome.reported : Outcome → List Fault
  | .done _ _ reported => reported
  | .failed _ reported => reported

namespace Outcome

@[simp] theorem reported_into (o : Outcome) (outer : List Tree) :
    (o.into outer).reported = o.reported := by
  cases o <;> rfl

theorem reported_andThen {o : Outcome} {next : Reader} (quiet : o.reported = [])
    (behind : ∀ frame rest reported, o = .done frame rest reported →
      (next frame rest).reported = []) : (o.andThen next).reported = [] := by
  cases o with
  | failed fault reported => exact quiet
  | done frame rest reported =>
      obtain rfl : reported = [] := quiet
      rw [done_andThen]
      exact behind frame rest [] rfl

end Outcome

namespace Form

/-- The form recovers from nothing, and of the entries only some are entered. -/
def mute (entries : Entry → Bool) : Form → Bool
  | .seq first second => first.mute entries && second.mute entries
  | .frame body => body.mute entries
  | .choose _ _ yes no => yes.mute entries && no.mute entries
  | .repeated _ _ body => body.mute entries
  | .enter entry => entries entry
  | .recover _ _ => false
  | _ => true

theorem mute_inductive {entries : Entry → Bool}
    (allowed : ∀ entry, entries entry → entry.form.mute entries) :
    Inductive fun n f frame ts => f.mute entries → (f.readAt n frame ts).reported = [] where
  empty n frame ts _ := rfl
  trivia n frame ts _ := rfl
  token n admits expected frame ts _ := by
    obtain ⟨cause, failed⟩ | ⟨t, rest, -, -, done⟩ :=
      Reader.ofToken_cases (fun t => if admits t.kind then none else some (.expected expected))
        (.expected expected) frame ts
    · exact congrArg Outcome.reported failed
    · exact congrArg Outcome.reported done
  string n expected frame ts _ := by
    simp only [readAt, Form.read]
    obtain ⟨cause, failed⟩ | ⟨t, rest, -, -, done⟩ := Reader.ofToken_cases
      (fun t => if t.kind ≠ .string then some (.expected expected)
        else if closesQuote t.text then none else some .openString) (.expected expected) frame ts
    · exact congrArg Outcome.reported failed
    · exact congrArg Outcome.reported done
  refuse n expected frame ts _ := rfl
  close n rule frame ts _ := rfl
  seq n first second frame ts ihFirst ihSecond mute := by
    simp only [Form.mute, Bool.and_eq_true] at mute
    exact Outcome.reported_andThen (ihFirst mute.1) fun frame' rest reported done =>
      ihSecond frame' rest reported done mute.2
  frame n body outer ts ih mute := by
    rw [readAt_frame, Outcome.reported_into]
    exact ih mute
  choose n look admits yes no frame ts _ ihYes ihNo mute := by
    simp only [Form.mute, Bool.and_eq_true] at mute
    rw [readAt_choose]
    split
    · rename_i looked
      exact ihYes looked mute.1
    · rename_i failed
      exact ihNo (by simpa using failed) mute.2
  stop n look admits body frame ts productive _ stopped _ := by
    rw [readAt_repeated productive, stopped]
    rfl
  round n look admits body frame ts productive _ looked ihBody ihRest mute := by
    rw [readAt_repeated productive, if_pos looked]
    exact Outcome.reported_andThen (ihBody mute) fun frame' rest reported done =>
      ihRest frame' rest reported done mute
  tooDeep entry frame ts _ := rfl
  enter n entry frame ts ih mute := ih (allowed entry mute)
  recover n body skip frame ts _ _ mute := by simp [Form.mute] at mute

/-- A form that recovers from nothing reports nothing. -/
theorem readAt_mute {entries : Entry → Bool} {f : Form} (productive : f.productive)
    (allowed : ∀ entry, entries entry → entry.form.mute entries) (mute : f.mute entries)
    (n : Nat) (frame : List Tree) (ts : List Token) : (f.readAt n frame ts).reported = [] :=
  readAt_induct (mute_inductive allowed) n productive frame ts mute

end Form

theorem Form.seq_eq (first second : Form) : first >> second = .seq first second := rfl

/-! ## Fewer levels -/

/-- With fewer levels the outcome is the full one, unless levels ran out. -/
def Outcome.CutFrom (full o : Outcome) : Prop :=
  o = full ∨ ∃ rest reported, o = .failed ⟨.tooDeep, rest⟩ reported

namespace Outcome

variable {full o : Outcome}

theorem CutFrom.andThen {next next' : Reader} (h : full.CutFrom o)
    (behind : ∀ frame rest reported, o = .done frame rest reported →
      (next frame rest).CutFrom (next' frame rest)) :
    (full.andThen next).CutFrom (o.andThen next') := by
  rcases h with rfl | ⟨rest, reported, rfl⟩
  · cases o with
    | failed fault reported => exact .inl rfl
    | done frame rest reported =>
        rcases behind frame rest reported rfl with same | ⟨left, more, cut⟩
        · exact .inl (by simp only [Outcome.andThen, same])
        · exact .inr ⟨left, reported ++ more, by simp only [Outcome.andThen, cut]⟩
  · exact .inr ⟨rest, reported, rfl⟩

theorem CutFrom.into (h : full.CutFrom o) (outer : List Tree) :
    (full.into outer).CutFrom (o.into outer) := by
  rcases h with rfl | ⟨rest, reported, rfl⟩
  · exact .inl rfl
  · exact .inr ⟨rest, reported, rfl⟩

end Outcome

namespace Form

theorem cut_inductive {entries : Entry → Bool}
    (allowed : ∀ entry, entries entry → entry.form.flat ∧ entry.form.mute entries) (d : Nat) :
    Inductive fun n f frame ts => f.flat → f.mute entries →
      (f.readAt (n + d) frame ts).CutFrom (f.readAt n frame ts) where
  empty n frame ts _ _ := .inl rfl
  trivia n frame ts _ _ := .inl rfl
  token n admits expected frame ts _ _ := .inl rfl
  string n expected frame ts _ _ := .inl rfl
  refuse n expected frame ts _ _ := .inl rfl
  close n rule frame ts _ _ := .inl rfl
  seq n first second frame ts ihFirst ihSecond flat mute := by
    simp only [Form.flat, Form.mute, Bool.and_eq_true] at flat mute
    exact (ihFirst flat.1 mute.1).andThen fun frame' rest reported done =>
      ihSecond frame' rest reported done flat.2 mute.2
  frame n body outer ts ih flat mute := (ih flat mute).into outer
  choose n look admits yes no frame ts _ ihYes ihNo flat mute := by
    simp only [Form.flat, Form.mute, Bool.and_eq_true] at flat mute
    rw [readAt_choose, readAt_choose, readAt_of_levelFree flat.1.1 (n + d) n]
    split
    · rename_i looked
      exact ihYes looked flat.1.2 mute.1
    · rename_i failed
      exact ihNo (by simpa using failed) flat.2 mute.2
  stop n look admits body frame ts productive _ stopped flat _ := by
    simp only [Form.flat, Bool.and_eq_true] at flat
    rw [readAt_repeated productive, readAt_repeated productive,
      readAt_of_levelFree flat.1 (n + d) n, stopped]
    exact .inl rfl
  round n look admits body frame ts productive _ looked ihBody ihRest flat mute := by
    have parts := flat
    simp only [Form.flat, Bool.and_eq_true] at parts
    rw [readAt_repeated productive, readAt_repeated productive,
      readAt_of_levelFree parts.1 (n + d) n, if_pos looked, if_pos looked]
    exact (ihBody parts.2 mute).andThen fun frame' rest reported done =>
      ihRest frame' rest reported done flat mute
  tooDeep entry frame ts _ _ := .inr ⟨ts, [], rfl⟩
  enter n entry frame ts ih _ mute := by
    rw [Nat.add_right_comm]
    exact ih (allowed entry mute).1 (allowed entry mute).2
  recover n body skip frame ts _ _ _ mute := by simp [Form.mute] at mute

theorem typeParts_mute : typeParts.mute (· == .typeArguments) := by decide

theorem typeArguments_allowed (entry : Entry) (is : entry == .typeArguments) :
    entry.form.flat ∧ entry.form.mute (· == .typeArguments) := by
  obtain rfl : entry = .typeArguments := by simpa using is
  decide

/-- With a level less a type is read in the same way, or not for want of levels. -/
theorem typeParts_cut (n : Nat) (frame : List Tree) (ts : List Token) :
    typeParts.readAt n frame ts = typeParts.readAt (n + 1) frame ts ∨
      ∃ rest, typeParts.readAt n frame ts = .failed ⟨.tooDeep, rest⟩ [] := by
  rcases readAt_induct (cut_inductive typeArguments_allowed 1) n (by decide : typeParts.productive)
    frame ts (by decide) typeParts_mute with same | ⟨rest, reported, cut⟩
  · exact .inl same
  · have quiet := readAt_mute (by decide) (fun entry is => (typeArguments_allowed entry is).2)
      typeParts_mute n frame ts
    rw [cut] at quiet
    obtain rfl : reported = [] := quiet
    exact .inr ⟨rest, cut⟩

/-! ## Types behind trivia -/

variable {n : Nat} {frame outer : List Tree} {ts rest : List Token}

/-- The trivia before a token may be in the frame when the token is read. -/
theorem token_flushed {admits : TokenKind → Bool} {expected : String} {frame' : List Tree}
    (done : (token admits expected).readAt n frame ts = .done frame' rest []) :
    (token admits expected).readAt n (frame ++ (leadingTrivia ts).map leaf) (afterTrivia ts) =
      .done frame' rest [] := by
  obtain ⟨t, next, admitted, rfl⟩ := token_clean.mp done
  have flushed : leadingTrivia (afterTrivia ts) = [] := leadingTrivia_of_flushed
    (afterTrivia_afterTrivia ts)
  refine token_clean.mpr ⟨t, by rw [afterTrivia_afterTrivia, next], admitted, ?_⟩
  rw [flushed, List.map_append, List.nil_append, List.append_assoc]

/-- A type that was read with trivia before it is read behind that trivia, from no frame. -/
theorem typeParts_flushed {looked : List Tree}
    (done : typeParts.readAt n outer ts = .done looked rest []) :
    ∃ parts, typeParts.readAt n [] (afterTrivia ts) = .done parts rest [] := by
  obtain ⟨middle, between, name, more⟩ := seq_clean.mp done
  have behind : typeParts.readAt n (outer ++ (leadingTrivia ts).map leaf) (afterTrivia ts) =
      .done looked rest [] := seq_clean.mpr ⟨middle, between, token_flushed name, more⟩
  have afresh := readAt_into (by decide : typeParts.productive) (by decide) n
    (outer ++ (leadingTrivia ts).map leaf) [] (afterTrivia ts)
  rw [List.append_nil, behind] at afresh
  obtain ⟨parts, alone, -⟩ := Outcome.into_eq_done.mp afresh.symm
  exact ⟨parts, alone⟩

/-! ## What was seen is read -/

/-- A type with a name behind it is ahead. -/
def seesDeclaration (n : Nat) (ts : List Token) : Bool :=
  (typeParts.readAt n [] ts).leadsTo (· == .identifier)

/-- A type and a name with a colon behind them are ahead. -/
def seesEach (n : Nat) (ts : List Token) : Bool :=
  ((typeParts >> one .identifier).readAt n [] ts).leadsTo (· == .colon)

/-- A type in parentheses is ahead with what may be cast to it behind. -/
def seesCast (n : Nat) (ts : List Token) : Bool :=
  (castAhead.readAt n [] ts).leadsTo startsCastOperand

/-- A look ahead that reports nothing has read its form when it succeeds. -/
theorem done_of_leadsTo {look : Form} {admits : TokenKind → Bool} (productive : look.productive)
    (mute : look.mute (· == .typeArguments))
    (looked : (look.readAt n [] ts).leadsTo admits = true) :
    ∃ frame rest, look.readAt n [] ts = .done frame rest [] ∧ admits (nextKind rest) = true := by
  have quiet := readAt_mute productive (fun entry is => (typeArguments_allowed entry is).2) mute n
    [] ts
  cases read : look.readAt n [] ts with
  | failed fault reported => simp [read, Outcome.leadsTo] at looked
  | done frame rest reported =>
      rw [read] at quiet looked
      obtain rfl : reported = [] := quiet
      exact ⟨frame, rest, rfl, looked⟩

/-- Where a declaration was seen its type is read, and a name comes next. -/
theorem declaration_read (seen : seesDeclaration n ts = true) (frame : List Tree) :
    ∃ looked rest, typeParts.readAt n [] ts = .done looked rest [] ∧
      typeRef.readAt n frame ts = .done (frame ++ [ofRule .typeRef looked]) rest [] ∧
      nextKind rest = .identifier := by
  obtain ⟨looked, rest, ahead, isName⟩ := done_of_leadsTo (by decide) typeParts_mute seen
  exact ⟨looked, rest, ahead, node_clean.mpr ⟨looked, ahead, rfl⟩, by simpa using isName⟩

/-- Where the header of a loop over elements was seen its type and name are read, and its colon
behind them. -/
theorem each_read (seen : seesEach n ts = true) (frame : List Tree) :
    ∃ looked rest, (typeParts >> one .identifier).readAt n [] ts = .done looked rest [] ∧
      ∃ bound behind rest',
        (Form.trivia >> node .forEachBinding (typeRef >> one .identifier)).readAt n frame ts =
          .done bound rest [] ∧
        (one .colon).readAt n bound rest = .done behind rest' [] := by
  obtain ⟨looked, rest, ahead, isColon⟩ := done_of_leadsTo (by decide) (by decide) seen
  refine ⟨looked, rest, ahead, ?_⟩
  obtain ⟨_, between, type, name⟩ := seq_clean.mp ahead
  obtain ⟨t, next, isName, -⟩ := one_clean.mp name
  obtain ⟨parts, again⟩ := typeParts_flushed type
  obtain ⟨colon, rest', next', isColon⟩ :=
    afterTrivia_of_nextKind (by simpa using isColon : nextKind rest = .colon) nofun
  exact ⟨_, _, rest', seq_clean.mpr ⟨_, _, trivia_clean.mpr ⟨rfl, rfl⟩, node_clean.mpr
    ⟨_, seq_clean.mpr ⟨_, between, node_clean.mpr ⟨parts, again, rfl⟩,
      one_clean.mpr ⟨t, next, isName, rfl⟩⟩, rfl⟩⟩, one_clean.mpr ⟨colon, next', isColon, rfl⟩⟩

/-- What a cast has before its operand. -/
def castHead : Form := one .lParen >> Form.trivia >> typeRef >> one .rParen

/-- The operand of a cast. -/
def castTail : Form := Form.trivia >> Form.frame operand >> close .castExpr

theorem readAt_cast (n : Nat) (frame : List Tree) (ts : List Token) :
    cast.readAt n frame ts = (castHead.readAt n frame ts).andThen (castTail.readAt n) :=
  calc cast.readAt n frame ts
    _ = ((one .lParen).readAt n frame ts).andThen fun frame ts =>
          (Form.trivia.readAt n frame ts).andThen fun frame ts =>
            (typeRef.readAt n frame ts).andThen fun frame ts =>
              ((one .rParen).readAt n frame ts).andThen (castTail.readAt n) := rfl
    _ = (castHead.readAt n frame ts).andThen (castTail.readAt n) := by
          simp only [castHead, seq_eq, readAt_seq, Outcome.andThen_assoc]

/-- Where a cast was seen it is read up to its operand, or not for want of levels. -/
theorem cast_read (seen : seesCast n ts = true) (frame : List Tree) :
    ∃ looked rest, castAhead.readAt n [] ts = .done looked rest [] ∧
      startsCastOperand (nextKind rest) = true ∧
      ((∃ left, (enter .cast).readAt n frame ts = .failed ⟨.tooDeep, left⟩ []) ∨
        ∃ m head, n = m + 1 ∧ castHead.readAt m frame ts = .done head rest [] ∧
          (enter .cast).readAt n frame ts = castTail.readAt m head rest) := by
  obtain ⟨looked, rest, ahead, starts⟩ := done_of_leadsTo (by decide) (by decide) seen
  refine ⟨looked, rest, ahead, starts, ?_⟩
  cases n with
  | zero => exact .inl ⟨ts, rfl⟩
  | succ m =>
      obtain ⟨_, behind, opening, inner⟩ := seq_clean.mp ahead
      obtain ⟨_, between, type, closing⟩ := seq_clean.mp inner
      obtain ⟨parts, again⟩ := typeParts_flushed type
      obtain ⟨t, next, isParen, -⟩ := one_clean.mp opening
      obtain ⟨u, next', isParen', -⟩ := one_clean.mp closing
      have first : (one .lParen).readAt m frame ts =
          .done (frame ++ (leadingTrivia ts ++ [t]).map leaf) behind [] :=
        one_clean.mpr ⟨t, next, isParen, rfl⟩
      have entered : (enter .cast).readAt (m + 1) frame ts =
          (castHead.readAt m frame ts).andThen (castTail.readAt m) := readAt_cast m frame ts
      -- The type is read with the levels of the cast, one less than when it was looked for.
      rcases typeParts_cut m [] (afterTrivia behind) with same | ⟨left, cut⟩
      · obtain ⟨head, read⟩ : ∃ head, castHead.readAt m frame ts = .done head rest [] :=
          ⟨_, seq_clean.mpr ⟨_, behind, first, seq_clean.mpr ⟨_, _, trivia_clean.mpr ⟨rfl, rfl⟩,
            seq_clean.mpr ⟨_, between, node_clean.mpr ⟨parts, same.trans again, rfl⟩,
              one_clean.mpr ⟨u, next', isParen', rfl⟩⟩⟩⟩⟩
        exact .inr ⟨m, head, rfl, read, by rw [entered, read, Outcome.done_andThen]⟩
      · refine .inl ⟨left, ?_⟩
        have failed (outer : List Tree) :
            typeRef.readAt m outer (afterTrivia behind) = .failed ⟨.tooDeep, left⟩ [] := by
          simp only [typeRef, node, seq_eq, readAt_frame, readAt_seq, cut, Outcome.andThen,
            Outcome.into]
        simp only [entered, castHead, seq_eq, readAt_seq, first, readAt_trivia, failed,
          Outcome.andThen, List.append_nil]

/-- **Look aheads agree with reading.**  From whatever tokens and with whatever levels: where a
declaration is seen its type is read and a name comes next, where the header of a loop over
elements is seen its type, its name and its colon are read, and where a cast is seen it is read up
to its operand, and something an operand begins with comes next, if the levels allow for it.  What
is read are the tokens that were seen: the same ones are left. -/
theorem seen_read (n : Nat) (frame : List Tree) (ts : List Token) :
    (seesDeclaration n ts = true →
      ∃ looked rest, typeParts.readAt n [] ts = .done looked rest [] ∧
        typeRef.readAt n frame ts = .done (frame ++ [ofRule .typeRef looked]) rest [] ∧
        nextKind rest = .identifier) ∧
    (seesEach n ts = true →
      ∃ looked rest, (typeParts >> one .identifier).readAt n [] ts = .done looked rest [] ∧
        ∃ bound behind rest',
          (Form.trivia >> node .forEachBinding (typeRef >> one .identifier)).readAt n frame ts =
            .done bound rest [] ∧
          (one .colon).readAt n bound rest = .done behind rest' []) ∧
    (seesCast n ts = true →
      ∃ looked rest, castAhead.readAt n [] ts = .done looked rest [] ∧
        startsCastOperand (nextKind rest) = true ∧
        ((∃ left, (enter .cast).readAt n frame ts = .failed ⟨.tooDeep, left⟩ []) ∨
          ∃ m head, n = m + 1 ∧ castHead.readAt m frame ts = .done head rest [] ∧
            (enter .cast).readAt n frame ts = castTail.readAt m head rest)) :=
  ⟨fun seen => declaration_read seen frame, fun seen => each_read seen frame,
    fun seen => cast_read seen frame⟩

/-- The header of a loop with a comment in its type is seen with two levels left and read, and a
cast that is seen with as many is not read for want of one. -/
theorem seen_read_generic :
    let header := Token.ofText "A<B</* of */C>>[] c : cs".toList
    let parenthesis := Token.ofText "(A<B<C>>) c".toList
    seesDeclaration 2 header = true ∧ seesEach 2 header = true ∧ seesCast 2 parenthesis = true ∧
      (∃ looked rest, (typeParts >> one .identifier).readAt 2 [] header = .done looked rest [] ∧
        ∃ bound behind rest',
          (Form.trivia >> node .forEachBinding (typeRef >> one .identifier)).readAt 2 [] header =
            .done bound rest [] ∧
          (one .colon).readAt 2 bound rest = .done behind rest' []) ∧
      ∃ looked rest, castAhead.readAt 2 [] parenthesis = .done looked rest [] ∧
        startsCastOperand (nextKind rest) = true ∧
        ((∃ left, (enter .cast).readAt 2 [] parenthesis = .failed ⟨.tooDeep, left⟩ []) ∨
          ∃ m head, 2 = m + 1 ∧ castHead.readAt m [] parenthesis = .done head rest [] ∧
            (enter .cast).readAt 2 [] parenthesis = castTail.readAt m head rest) := by
  intro header parenthesis
  have declares : seesDeclaration 2 header = true := by decide +kernel
  have each : seesEach 2 header = true := by decide +kernel
  have casts : seesCast 2 parenthesis = true := by decide +kernel
  exact ⟨declares, each, casts, (seen_read 2 [] header).2.1 each,
    (seen_read 2 [] parenthesis).2.2 casts⟩

end Form

end QuestScript.Grammar
