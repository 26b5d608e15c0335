/-
# QuestScript.Proofs.Adjoining -- items are read one apart from the other

What a form looks at ahead decides what it reads, so the tokens behind a form may matter to
it: whether an `else` follows, or whether what follows a type is a name.  But no look ahead
goes past the `;` or `}` that stands at the end of the item (`Form.cautious`), and up to there
reading does not depend on what is put behind (`Form.readAt_behind`) or taken away from there
(`Form.readAt_shrinks`).  An item comes to its end with such a token as its last
(`Form.closes`), and so it is read the same whatever stands behind it (`Form.readAt_closes`).

So two scripts, the first of them in order, one behind the other are read as the parts of the
first and then the parts of the second (`Parsed.ofTokens_append`).
-/
import QuestScript.Proofs.Landmarks
import QuestScript.Proofs.Processes

namespace QuestScript

set_option autoImplicit false

namespace Grammar

/-! ## Tokens behind -/

/-- The fault with more tokens behind those that were left. -/
def Fault.behind (us : List Token) (fault : Fault) : Fault := ⟨fault.cause, fault.rest ++ us⟩

namespace Outcome

/-- The outcome with more tokens behind those that were left. -/
def behind (us : List Token) : Outcome → Outcome
  | .done frame rest reported => .done frame (rest ++ us) (reported.map (Fault.behind us))
  | .failed fault reported => .failed (fault.behind us) (reported.map (Fault.behind us))

variable {us : List Token} {o : Outcome}

theorem behind_into (us : List Token) (o : Outcome) (outer : List Tree) :
    (o.into outer).behind us = (o.behind us).into outer := by
  cases o <;> rfl

theorem behind_andThen {next : Reader} (h : ∀ frame rest reported, o = .done frame rest reported →
    next frame (rest ++ us) = (next frame rest).behind us) :
    (o.behind us).andThen next = (o.andThen next).behind us := by
  cases o with
  | failed fault reported => rfl
  | done frame rest reported =>
      simp only [behind, andThen, h frame rest reported rfl]
      cases next frame rest <;> simp

theorem behind_orElse {skip : List Token → Outcome} (h : ∀ fault reported,
    o = .failed fault reported → skip (fault.rest ++ us) = (skip fault.rest).behind us) :
    (o.behind us).orElse skip = (o.orElse skip).behind us := by
  cases o with
  | done frame rest reported => rfl
  | failed fault reported =>
      simp only [behind, orElse, Fault.behind, h fault reported rfl]
      cases skip fault.rest <;> simp [Fault.behind]

/-- Some tokens are left in one outcome, or in another one with more tokens behind them. -/
def Reaches (a us : List Token) (o more : Outcome) : Prop :=
  a <:+ o.rest ∨ a ++ us <:+ more.rest

variable {a : List Token} {more : Outcome}

theorem reaches_into {outer : List Tree} :
    Reaches a us (o.into outer) (more.into outer) ↔ Reaches a us o more := by
  rw [Reaches, rest_into, rest_into, Reaches]

/-- What is left behind two readings in sequence is left behind the first, and behind the second
if the first of them goes the same way with more tokens behind. -/
theorem Reaches.of_andThen {next : Reader} (suffix : ∀ frame ts, (next frame ts).rest <:+ ts)
    (h : Reaches a us (o.andThen next) (more.andThen next)) :
    Reaches a us o more ∧ (more = o.behind us → ∀ frame rest reported,
      o = .done frame rest reported →
        Reaches a us (next frame rest) (next frame (rest ++ us))) := by
  rcases h with own | longer
  · obtain ⟨one, two⟩ := rest_of_andThen (a <:+ ·) (fun shorter before => before.trans shorter) own
      fun frame rest _ _ => suffix frame rest
    exact ⟨.inl one, fun _ frame rest reported done => .inl (two frame rest reported done)⟩
  · obtain ⟨one, two⟩ := rest_of_andThen (a ++ us <:+ ·)
      (fun shorter before => before.trans shorter) longer fun frame rest _ _ => suffix frame rest
    refine ⟨.inr one, fun same frame rest reported done =>
      .inr (two frame (rest ++ us) (reported.map (Fault.behind us)) ?_)⟩
    rw [same, done, behind]

theorem Reaches.of_orElse {skip : List Token → Outcome} (suffix : ∀ ts, (skip ts).rest <:+ ts)
    (h : Reaches a us (o.orElse skip) (more.orElse skip)) :
    Reaches a us o more ∧ (more = o.behind us → ∀ fault reported, o = .failed fault reported →
      Reaches a us (skip fault.rest) (skip (fault.rest ++ us))) := by
  rcases h with own | longer
  · obtain ⟨one, two⟩ := rest_of_orElse (a <:+ ·) (fun shorter before => before.trans shorter) own
      fun fault _ _ => suffix fault.rest
    exact ⟨.inl one, fun _ fault reported failed => .inl (two fault reported failed)⟩
  · obtain ⟨one, two⟩ := rest_of_orElse (a ++ us <:+ ·)
      (fun shorter before => before.trans shorter) longer fun fault _ _ => suffix fault.rest
    refine ⟨.inr one, fun same fault reported failed =>
      .inr (two (fault.behind us) (reported.map (Fault.behind us)) ?_)⟩
    rw [same, failed, behind]

end Outcome

theorem Reader.ofToken_behind {ts rest : List Token} {t : Token} (next : afterTrivia ts = t :: rest)
    (us : List Token) (test : Token → Option Cause) (atEnd : Cause) (frame : List Tree) :
    ofToken test atEnd frame (ts ++ us) = (ofToken test atEnd frame ts).behind us := by
  rw [ofToken, ofToken, afterTrivia_append next, leadingTrivia_append next, next]
  cases h : test t <;> simp [h, Outcome.behind, Fault.behind]

/-! ## Look aheads -/

namespace Form

/-- No look ahead in the form reads a token to stop at. -/
def cautious (stops : TokenKind → Bool) : Form → Bool
  | .seq first second => first.cautious stops && second.cautious stops
  | .frame body => body.cautious stops
  | .choose look _ yes no =>
      look.shuns stops (· == .typeArguments) && look.cautious stops && yes.cautious stops &&
        no.cautious stops
  | .repeated look _ body =>
      look.shuns stops (· == .typeArguments) && look.cautious stops && body.cautious stops
  | .recover body skip => body.cautious stops && skip.cautious stops
  | _ => true

/-- The form comes to its end right behind a token to stop at. -/
def closes (stops : TokenKind → Bool) : Form → Bool
  | .token admits _ => TokenKind.all.all fun kind => !admits kind || stops kind
  | .refuse _ => true
  | .seq first (.close _) => first.closes stops
  | .seq first second => first.cautious stops && second.closes stops
  | .frame body => body.closes stops
  | .choose .empty _ yes no => yes.closes stops && no.closes stops
  | _ => false

end Form

/-- No look ahead anywhere in the grammar goes past a token to stop at. -/
structure Bounds (stops : TokenKind → Bool) : Prop where
  entries : ∀ entry : Entry, entry.form.cautious stops
  typeArguments : Entry.typeArguments.form.shuns stops (· == .typeArguments)

variable {stops : TokenKind → Bool} {a us : List Token}

/-- In front of a landmark there is a next token, whatever stands behind. -/
theorem Landmark.nextKind_append {ts : List Token} (landmark : Landmark stops a) (ahead : a <:+ ts)
    (us : List Token) : nextKind (ts ++ us) = nextKind ts := by
  obtain ⟨t, rest, next⟩ := landmark.next ahead
  rw [nextKind_of_afterTrivia next, nextKind_of_afterTrivia (afterTrivia_append next us)]

namespace Form

/-- A look ahead that stands before a landmark has the same result with more tokens behind. -/
theorem leadsTo_behind {n : Nat} {look : Form} {ts : List Token} (admits : TokenKind → Bool)
    (bounds : Bounds stops) (landmark : Landmark stops a) (productive : look.productive)
    (shuns : look.shuns stops (· == .typeArguments)) (ahead : a <:+ ts)
    (ih : a <:+ (look.readAt n [] ts).rest →
      look.readAt n [] (ts ++ us) = (look.readAt n [] ts).behind us) :
    (look.readAt n [] (ts ++ us)).leadsTo admits = (look.readAt n [] ts).leadsTo admits := by
  have inside := readAt_shuns productive landmark (by simpa using bounds.typeArguments) shuns n []
    ahead _ (Outcome.rest_mem_places _)
  rw [ih inside]
  cases looked : look.readAt n [] ts with
  | failed fault reported => rfl
  | done frame rest reported =>
      rw [looked] at inside
      exact congrArg admits (landmark.nextKind_append inside us)

/-- Where a reading comes to, it began before. -/
theorem ahead_of_reaches {f : Form} {n : Nat} {frame : List Tree} {ts : List Token}
    (productive : f.productive)
    (reaches : Outcome.Reaches a us (f.readAt n frame ts) (f.readAt n frame (ts ++ us))) :
    a <:+ ts := by
  rcases reaches with own | longer
  · exact own.trans (readAt_suffix productive n frame ts)
  · have inside := longer.trans (readAt_suffix productive n frame (ts ++ us))
    exact ((List.suffix_append_inj_of_length_eq rfl).mp inside).1

/-- Whatever the tokens behind, a landmark that is reached with them or without them is reached in
the same way. -/
theorem behind_inductive (bounds : Bounds stops) (landmark : Landmark stops a) (us : List Token) :
    Inductive fun n f frame ts => f.productive → f.cautious stops →
      Outcome.Reaches a us (f.readAt n frame ts) (f.readAt n frame (ts ++ us)) →
        f.readAt n frame (ts ++ us) = (f.readAt n frame ts).behind us where
  empty n frame ts _ _ _ := rfl
  trivia n frame ts _ _ reaches := by
    obtain ⟨t, rest, next⟩ := landmark.next (ahead_of_reaches rfl reaches)
    simp only [readAt_trivia, Outcome.behind, List.map_nil]
    rw [leadingTrivia_append next, afterTrivia_append next, next, List.cons_append]
  token n admits expected frame ts _ _ reaches := by
    obtain ⟨t, rest, next⟩ := landmark.next (ahead_of_reaches rfl reaches)
    exact Reader.ofToken_behind next us _ _ frame
  string n expected frame ts _ _ reaches := by
    obtain ⟨t, rest, next⟩ := landmark.next (ahead_of_reaches rfl reaches)
    exact Reader.ofToken_behind next us _ _ frame
  refuse n expected frame ts _ _ _ := rfl
  close n rule frame ts _ _ _ := rfl
  seq n first second frame ts ihFirst ihSecond productive cautious reaches := by
    simp only [Form.productive, Bool.and_eq_true] at productive
    simp only [Form.cautious, Bool.and_eq_true] at cautious
    obtain ⟨one, two⟩ := Outcome.Reaches.of_andThen (readAt_suffix productive.2 n) reaches
    have same := ihFirst productive.1 cautious.1 one
    rw [readAt_seq, readAt_seq, same]
    exact Outcome.behind_andThen fun frame' rest reported done =>
      ihSecond frame' rest reported done productive.2 cautious.2
        (two same frame' rest reported done)
  frame n body outer ts ih productive cautious reaches := by
    rw [readAt_frame, readAt_frame, Outcome.reaches_into] at reaches
    rw [readAt_frame, readAt_frame, ih productive cautious reaches, Outcome.behind_into]
  choose n look admits yes no frame ts ihLook ihYes ihNo productive cautious reaches := by
    have ahead := ahead_of_reaches productive reaches
    simp only [Form.productive, Bool.and_eq_true] at productive
    simp only [Form.cautious, Bool.and_eq_true] at cautious
    have same := leadsTo_behind admits bounds landmark productive.1.1 cautious.1.1.1 ahead
      fun inside => ihLook productive.1.1 cautious.1.1.2 (.inl inside)
    rw [readAt_choose, readAt_choose, same] at reaches ⊢
    by_cases looked : (look.readAt n [] ts).leadsTo admits = true
    · rw [if_pos looked, if_pos looked] at reaches ⊢
      exact ihYes looked productive.1.2 cautious.1.2 reaches
    · rw [if_neg looked, if_neg looked] at reaches ⊢
      exact ihNo (by simpa using looked) productive.2 cautious.2 reaches
  stop n look admits body frame ts productive ihLook stopped _ cautious reaches := by
    have ahead := ahead_of_reaches productive reaches
    have parts := productive
    simp only [Form.productive, Bool.and_eq_true] at parts
    simp only [Form.cautious, Bool.and_eq_true] at cautious
    have same := leadsTo_behind admits bounds landmark parts.1.1 cautious.1.1 ahead
      fun inside => ihLook parts.1.1 cautious.1.2 (.inl inside)
    rw [readAt_repeated productive, readAt_repeated productive, same, stopped]
    rfl
  round n look admits body frame ts productive ihLook looked ihBody ihRest _ cautious reaches := by
    have ahead := ahead_of_reaches productive reaches
    have parts := productive
    have careful := cautious
    simp only [Form.productive, Bool.and_eq_true] at parts
    simp only [Form.cautious, Bool.and_eq_true] at careful
    have same := leadsTo_behind admits bounds landmark parts.1.1 careful.1.1 ahead
      fun inside => ihLook parts.1.1 careful.1.2 (.inl inside)
    rw [readAt_repeated productive, readAt_repeated productive, same, if_pos looked,
      if_pos looked] at reaches ⊢
    obtain ⟨one, two⟩ := Outcome.Reaches.of_andThen (readAt_suffix productive n) reaches
    have round := ihBody parts.1.2 careful.2 one
    rw [round]
    exact Outcome.behind_andThen fun frame' rest reported done =>
      ihRest frame' rest reported done productive cautious (two round frame' rest reported done)
  tooDeep entry frame ts _ _ _ := rfl
  enter n entry frame ts ih _ _ reaches := ih entry.form_productive (bounds.entries entry) reaches
  recover n body skip frame ts ihBody ihSkip productive cautious reaches := by
    simp only [Form.productive, Bool.and_eq_true] at productive
    simp only [Form.cautious, Bool.and_eq_true] at cautious
    obtain ⟨one, two⟩ := Outcome.Reaches.of_orElse (readAt_suffix productive.2 n frame) reaches
    have same := ihBody productive.1 cautious.1 one
    rw [readAt_recover, readAt_recover, same]
    exact Outcome.behind_orElse fun fault reported failed =>
      ihSkip fault reported failed productive.2 cautious.2 (two same fault reported failed)

/-- Up to a landmark no look ahead goes past, reading does not depend on what stands behind. -/
theorem readAt_behind {f : Form} (productive : f.productive) (cautious : f.cautious stops)
    (bounds : Bounds stops) (landmark : Landmark stops a) (us : List Token) {n : Nat}
    {frame : List Tree} {ts : List Token} (inside : a <:+ (f.readAt n frame ts).rest) :
    f.readAt n frame (ts ++ us) = (f.readAt n frame ts).behind us :=
  readAt_induct (behind_inductive bounds landmark us) n productive frame ts productive
    cautious (.inl inside)

/-- Up to a landmark no look ahead goes past, it makes no difference whether anything stands
behind. -/
theorem readAt_shrinks {f : Form} (productive : f.productive) (cautious : f.cautious stops)
    (bounds : Bounds stops) (landmark : Landmark stops a) {n : Nat} {frame : List Tree}
    {ts : List Token} (inside : a ++ us <:+ (f.readAt n frame (ts ++ us)).rest) :
    f.readAt n frame (ts ++ us) = (f.readAt n frame ts).behind us :=
  readAt_induct (behind_inductive bounds landmark us) n productive frame ts productive
    cautious (.inr inside)

/-- A form that comes to its end behind a token to stop at is read the same in front of other
tokens. -/
theorem readAt_closes {f : Form} (productive : f.productive) (closes : f.closes stops)
    (bounds : Bounds stops) {n : Nat} {frame frame' : List Tree}
    {ts rest : List Token} {reported : List Fault}
    (done : f.readAt n frame ts = .done frame' rest reported) :
    (∃ a, Landmark stops a ∧ a <:+ ts) ∧ ∀ us,
      f.readAt n frame (ts ++ us) = (Outcome.done frame' rest reported).behind us := by
  induction f using Form.closes.induct generalizing frame frame' ts rest reported with
  | case1 admits expected =>
      obtain ⟨cause, failed⟩ | ⟨t, rest', next, passes, read⟩ :=
        Reader.ofToken_cases (fun t => if admits t.kind then none else some (.expected expected))
          (.expected expected) frame ts
      · exact absurd (failed.symm.trans done) (by simp)
      · have stop : stops t.kind := by
          simp only [Form.closes, List.all_eq_true] at closes
          have := closes t.kind (TokenKind.mem_all t.kind)
          grind
        refine ⟨⟨t :: rest', ⟨isTrivia_of_afterTrivia next, stop⟩, next ▸ afterTrivia_suffix ts⟩,
          fun us => ?_⟩
        rw [← done]
        exact Reader.ofToken_behind next us _ _ frame
  | case2 expected => cases done
  | case3 first rule ih =>
      simp only [Form.productive, Bool.and_eq_true] at productive
      obtain ⟨middle, between, one, two, read, close, rfl⟩ := seq_done.mp done
      obtain ⟨landmark, again⟩ := ih productive.1 (by simpa [Form.closes] using closes) read
      cases close
      refine ⟨landmark, fun us => ?_⟩
      rw [readAt_seq, again us]
      simp [Outcome.andThen, Outcome.behind]
  | case4 first second _ ih =>
      simp only [Form.productive, Bool.and_eq_true] at productive
      obtain ⟨cautious, closes⟩ : first.cautious stops ∧ second.closes stops := by
        simpa [Form.closes] using closes
      obtain ⟨middle, between, one, two, read, later, -⟩ := seq_done.mp done
      -- The token that ends the second part is the landmark up to which the first one looks.
      obtain ⟨⟨a, landmark, ahead⟩, again⟩ := ih productive.2 closes later
      have inside : a <:+ (first.readAt n frame ts).rest := by rwa [read]
      refine ⟨⟨a, landmark, inside.trans (readAt_suffix productive.1 n frame ts)⟩, fun us => ?_⟩
      rw [← done, readAt_seq, readAt_seq,
        readAt_behind productive.1 cautious bounds landmark us inside, read]
      exact Outcome.behind_andThen fun _ _ _ same => by cases same; rw [again us, later]
  | case5 body ih =>
      obtain ⟨inner, read, rfl⟩ := Outcome.into_eq_done.mp done
      obtain ⟨landmark, again⟩ := ih productive (by simpa [Form.closes] using closes) read
      refine ⟨landmark, fun us => ?_⟩
      rw [readAt_frame, again us]
      rfl
  | case6 admits yes no ihYes ihNo =>
      simp only [Form.productive, Bool.and_eq_true] at productive
      obtain ⟨closesYes, closesNo⟩ : yes.closes stops ∧ no.closes stops := by
        simpa [Form.closes] using closes
      rw [readAt_choose, leadsTo_empty] at done
      split at done
      · rename_i looked
        obtain ⟨⟨a, landmark, ahead⟩, again⟩ := ihYes productive.1.2 closesYes done
        refine ⟨⟨a, landmark, ahead⟩, fun us => ?_⟩
        rw [readAt_choose, leadsTo_empty, landmark.nextKind_append ahead, if_pos looked, again us]
      · rename_i failed
        obtain ⟨⟨a, landmark, ahead⟩, again⟩ := ihNo productive.2 closesNo done
        refine ⟨⟨a, landmark, ahead⟩, fun us => ?_⟩
        rw [readAt_choose, leadsTo_empty, landmark.nextKind_append ahead, if_neg failed, again us]
  | case7 f _ _ _ _ _ _ => simp_all [Form.closes]

end Form

/-! ## Items -/

/-- The tokens that end an item. -/
def endsItem (kind : TokenKind) : Bool := kind == .semi || kind == .rBrace

theorem endsItem_bounds : Bounds endsItem where
  entries entry := by
    cases entry with
    | link least own => cases least <;> cases own <;> decide
    | _ => decide
  typeArguments := by decide

theorem Form.item_closes : item.closes endsItem := by decide

namespace Form

/-- What was read as an item is read as that item in front of other tokens. -/
theorem item_again {n : Nat} {frame frame' : List Tree} {ts rest : List Token}
    {reported : List Fault} (done : item.readAt n frame ts = .done frame' rest reported)
    (us : List Token) :
    item.readAt n frame (ts ++ us) = (Outcome.done frame' rest reported).behind us :=
  (readAt_closes (by decide) item_closes endsItem_bounds done).2 us

/-- Behind a script in order comes what is read as a script in the same frame. -/
theorem script_adjoins {n : Nat} {frame parts : List Tree} {ts : List Token}
    (done : script.readAt n frame ts = .done parts [] []) (us : List Token) :
    script.readAt n frame (ts ++ us) = script.readAt n parts us := by
  by_cases next : nextKind ts = .eof
  · rw [script_end next, Outcome.done.injEq] at done
    obtain ⟨rfl, none, -⟩ := done
    have whole := leadingTrivia_append_afterTrivia ts
    rw [none, List.append_nil] at whole
    rw [script_trivia none, whole]
  · rw [script_round next] at done
    obtain ⟨middle, between, first, later⟩ := andThen_clean.mp done
    have shorter : Shorter between ts := by
      simpa [Shorter] using shorter_of_item (by simpa using next) first
    obtain ⟨t, rest, first'⟩ : ∃ t rest, afterTrivia ts = t :: rest := by
      cases first' : afterTrivia ts with
      | nil => exact absurd (by rw [← nextKind_afterTrivia, first']; rfl) next
      | cons t rest => exact ⟨t, rest, rfl⟩
    have next' : nextKind (ts ++ us) ≠ .eof := by
      rwa [nextKind_of_afterTrivia (afterTrivia_append first' us), ← nextKind_of_afterTrivia first']
    have item : (recover item skippedItem).readAt n (frame ++ (leadingTrivia ts).map Tree.leaf)
        (afterTrivia ts ++ us) = .done middle (between ++ us) [] :=
      recover_clean.mpr (item_again (recover_clean.mp first) us)
    rw [script_round next', leadingTrivia_append first', afterTrivia_append first',
      ← List.cons_append, ← first', item, Outcome.done_andThen]
    exact script_adjoins later us
termination_by (significant ts).length
decreasing_by exact shorter

end Form

end Grammar

namespace Parsed

open Grammar (Form Outcome)

variable {limit : Nat} {ts : List Token}

theorem endSpan_append (noEnd : ∀ t ∈ ts, t.kind ≠ .eof) {us : List Token} (some : us ≠ []) :
    endSpan (ts ++ us) = endSpan us := by
  have none : ts.find? (fun t => t.kind == .eof) = none := by simpa using noEnd
  rw [endSpan, endSpan, List.find?_append, none, Option.none_or, List.getLast?_append_of_ne_nil]
  exact some

/-- **Items are read one apart from the other.**  A script in order with any other behind it is
read as the parts of the first and then those of the other, and what is wrong with both is what
is wrong with the other. -/
theorem ofTokens_append (noEnd : ∀ t ∈ ts, t.kind ≠ .eof) (ok : (ofTokens limit ts).isOk)
    (us : List Token) :
    (ofTokens limit (ts ++ us)).root.children =
        (ofTokens limit ts).root.children ++ (ofTokens limit us).root.children ∧
      (ofTokens limit (ts ++ us)).diagnostics = (ofTokens limit us).diagnostics := by
  obtain ⟨parts, reported, done, parsedBoth⟩ := ofTokens_eq limit (ts ++ us)
  obtain ⟨first, alone, parsed⟩ := script_of_isOk ok
  obtain ⟨second, reported', behind, parsedBehind⟩ := ofTokens_eq limit us
  have itself : body ts = ts := by simpa [body] using body_append noEnd []
  rw [itself] at alone
  rw [body_append noEnd, Form.script_adjoins alone, Form.script_framed behind] at done
  obtain ⟨rfl, -, rfl⟩ := Outcome.done.inj done
  refine ⟨by simp only [parsed, parsedBoth, parsedBehind, children_rootOf], ?_⟩
  rw [parsedBoth, parsedBehind]
  cases us with
  | nil =>
      -- Nothing is wrong with a script without tokens, so it does not matter where it ends.
      cases (Form.script_end rfl).symm.trans behind
      rfl
  | cons u us => rw [endSpan_append noEnd (List.cons_ne_nil u us)]

/-- Two processes, with a comment between them, are read one apart from the other, and so is what
is wrong with the second. -/
theorem ofTokens_append_broken :
    let first := body (Token.ofText "process p \x7b if (a) b(); \x7d // else".toList)
    let second := Token.ofText "\n process \x7b else c(); \x7d".toList
    (ofTokens 8 first).isOk = true ∧
      (ofTokens 8 (first ++ second)).root.children =
        (ofTokens 8 first).root.children ++ (ofTokens 8 second).root.children ∧
      (ofTokens 8 (first ++ second)).diagnostics = (ofTokens 8 second).diagnostics := by
  intro first second
  have ok : (ofTokens 8 first).isOk = true := by decide +kernel
  have noEnd : ∀ t ∈ first, t.kind ≠ .eof := body_ne_eof
  exact ⟨ok, ofTokens_append noEnd ok second⟩

end Parsed

end QuestScript
