/-
# QuestScript.Proofs.Progress -- every round of a repetition reads a token

A form is run on a list of tokens, of which only the significant ones, those that are
not trivia, decide anything.  `Form.idles` computes from a form alone in front of which
kinds of tokens it can come to its end without reading one, and `Form.productive` that
no repetition in it can go round without reading one.  Both are closed computations on
the grammar, so `Entry.form_productive` and `Form.script_productive` are decided.

From that follows what the bound on the rounds of a repetition is for: nothing.  It is
never reached, so a productive repetition is its own unfolding
(`Form.readAt_repeated`), and reading has an induction principle in which a repetition
ends only where its look ahead says so (`Form.readAt_induct`).
-/
import Mathlib.Data.List.DropRight
import Mathlib.Data.List.TakeWhile
import QuestScript.Grammar.Script

namespace QuestScript.Grammar

set_option autoImplicit false

/-! ## Significant tokens -/

/-- The tokens that are not trivia. -/
def significant (ts : List Token) : List Token := ts.filter fun t => !t.isTrivia

@[simp] theorem significant_nil : significant [] = [] := rfl

@[simp] theorem significant_append (ts us : List Token) :
    significant (ts ++ us) = significant ts ++ significant us := List.filter_append ..

theorem significant_length_le (ts : List Token) : (significant ts).length ≤ ts.length :=
  List.length_filter_le ..

theorem significant_eq_nil_of_all {ts : List Token} (h : ∀ t ∈ ts, t.isTrivia) :
    significant ts = [] := by
  simpa [significant] using h

theorem isTrivia_of_mem_leadingTrivia {ts : List Token} {t : Token} (h : t ∈ leadingTrivia ts) :
    t.isTrivia := List.mem_takeWhile_imp h

@[simp] theorem significant_leadingTrivia (ts : List Token) : significant (leadingTrivia ts) = [] :=
  significant_eq_nil_of_all fun _ => isTrivia_of_mem_leadingTrivia

@[simp] theorem significant_afterTrivia (ts : List Token) :
    significant (afterTrivia ts) = significant ts := by
  conv => rhs; rw [← leadingTrivia_append_afterTrivia ts]
  simp

theorem afterTrivia_afterTrivia (ts : List Token) : afterTrivia (afterTrivia ts) = afterTrivia ts :=
  List.dropWhile_idempotent _ _

theorem isTrivia_of_afterTrivia {ts rest : List Token} {t : Token}
    (h : afterTrivia ts = t :: rest) : t.isTrivia = false := by
  have := List.head?_dropWhile_not Token.isTrivia ts
  rw [afterTrivia] at h
  simpa [h] using this

/-- Reading a token takes the first of the significant ones. -/
theorem significant_of_afterTrivia {ts rest : List Token} {t : Token}
    (h : afterTrivia ts = t :: rest) : significant ts = t :: significant rest := by
  rw [← significant_afterTrivia, h]
  simp [significant, isTrivia_of_afterTrivia h]

theorem afterTrivia_eq_nil {ts : List Token} (h : significant ts = []) : afterTrivia ts = [] := by
  cases hts : afterTrivia ts with
  | nil => rfl
  | cons t rest => simp [significant_of_afterTrivia hts] at h

theorem nextKind_eq (ts : List Token) :
    nextKind ts = ((significant ts).head?.map Token.kind).getD .eof := by
  rw [nextKind, significant, List.head?_filter]

theorem nextKind_congr {ts us : List Token} (h : significant ts = significant us) :
    nextKind ts = nextKind us := by
  rw [nextKind_eq, nextKind_eq, h]

@[simp] theorem nextKind_afterTrivia (ts : List Token) : nextKind (afterTrivia ts) = nextKind ts :=
  nextKind_congr (significant_afterTrivia ts)

theorem nextKind_of_afterTrivia {ts rest : List Token} {t : Token}
    (h : afterTrivia ts = t :: rest) : nextKind ts = t.kind := by
  simp [nextKind_eq, significant_of_afterTrivia h]

section

variable {t : Token}

theorem isTrivia_of_kind {kind : TokenKind} (is : t.kind = kind) (plain : kind.isTrivia = false) :
    t.isTrivia = false := by
  rw [Token.isTrivia, is, plain]

theorem afterTrivia_cons (plain : t.isTrivia = false) (ts : List Token) :
    afterTrivia (t :: ts) = t :: ts :=
  List.dropWhile_cons_of_neg (by simp [plain])

theorem leadingTrivia_cons (plain : t.isTrivia = false) (ts : List Token) :
    leadingTrivia (t :: ts) = [] :=
  List.takeWhile_cons_of_neg (by simp [plain])

theorem nextKind_cons (plain : t.isTrivia = false) (ts : List Token) :
    nextKind (t :: ts) = t.kind :=
  nextKind_of_afterTrivia (afterTrivia_cons plain ts)

end

/-! ## Reading, block by block -/

namespace Outcome

variable {o : Outcome} {frame outer : List Tree} {rest : List Token} {reported : List Fault}

theorem done_andThen (frame : List Tree) (rest : List Token) (next : Reader) :
    (Outcome.done frame rest []).andThen next = next frame rest := by
  cases h : next frame rest <;> simp [Outcome.andThen, h]

theorem andThen_eq_done {next : Reader} :
    o.andThen next = .done frame rest reported ↔
      ∃ middle between one two, o = .done middle between one ∧
        next middle between = .done frame rest two ∧ one ++ two = reported := by
  constructor
  · intro h
    cases o with
    | failed fault first => simp [andThen] at h
    | done middle between one =>
        cases hn : next middle between with
        | failed fault two => simp [andThen, hn] at h
        | done last final two =>
            simp only [andThen, hn, done.injEq] at h
            obtain ⟨rfl, rfl, rfl⟩ := h
            exact ⟨middle, between, one, two, rfl, hn, rfl⟩
  · rintro ⟨middle, between, one, two, rfl, hn, rfl⟩
    simp [andThen, hn]

theorem into_eq_done :
    o.into outer = .done frame rest reported ↔
      ∃ inner, o = .done inner rest reported ∧ outer ++ inner = frame := by
  constructor
  · intro h
    cases o with
    | failed fault first => simp [into] at h
    | done inner between one =>
        simp only [into, done.injEq] at h
        obtain ⟨rfl, rfl, rfl⟩ := h
        exact ⟨inner, rfl, rfl⟩
  · rintro ⟨inner, rfl, rfl⟩
    rfl

/-- After a recovery there is something to report. -/
theorem orElse_eq_done {skip : List Token → Outcome} :
    o.orElse skip = .done frame rest reported ↔
      o = .done frame rest reported ∨
        ∃ fault one two, o = .failed fault one ∧ skip fault.rest = .done frame rest two ∧
          one ++ fault :: two = reported := by
  constructor
  · intro h
    cases o with
    | done middle between one => exact .inl h
    | failed fault one =>
        cases hs : skip fault.rest with
        | failed fault' two => simp [orElse, hs] at h
        | done last final two =>
            simp only [orElse, hs, done.injEq] at h
            obtain ⟨rfl, rfl, rfl⟩ := h
            exact .inr ⟨fault, one, two, rfl, hs, rfl⟩
  · rintro (rfl | ⟨fault, one, two, rfl, hs, rfl⟩)
    · rfl
    · simp [orElse, hs]

end Outcome

namespace Reader

theorem ofToken_cases (test : Token → Option Cause) (atEnd : Cause) (frame : List Tree)
    (ts : List Token) :
    (∃ cause, ofToken test atEnd frame ts = .failed ⟨cause, ts⟩ []) ∨
      ∃ t rest, afterTrivia ts = t :: rest ∧ test t = none ∧
        ofToken test atEnd frame ts =
          .done (frame ++ (leadingTrivia ts).map Tree.leaf ++ [Tree.leaf t]) rest [] := by
  unfold ofToken
  cases hts : afterTrivia ts with
  | nil => exact .inl ⟨_, rfl⟩
  | cons t rest =>
      cases ht : test t with
      | some cause => exact .inl ⟨cause, by simp [ht]⟩
      | none => exact .inr ⟨t, rest, rfl, ht, by simp [ht]⟩

end Reader

namespace Form

variable (levels : Nat) (frame : List Tree) (ts : List Token)

@[simp] theorem readAt_empty : empty.readAt levels frame ts = .done frame ts [] := rfl

@[simp] theorem readAt_trivia :
    trivia.readAt levels frame ts =
      .done (frame ++ (leadingTrivia ts).map Tree.leaf) (afterTrivia ts) [] := rfl

@[simp] theorem readAt_seq (first second : Form) :
    (seq first second).readAt levels frame ts =
      (first.readAt levels frame ts).andThen (second.readAt levels) := rfl

/-- Reading a sequence to its end is reading both parts to their ends. -/
theorem seq_done {n : Nat} {frame frame' : List Tree} {ts rest : List Token}
    {reported : List Fault} {first second : Form} :
    (first >> second).readAt n frame ts = .done frame' rest reported ↔
      ∃ middle between one two, first.readAt n frame ts = .done middle between one ∧
        second.readAt n middle between = .done frame' rest two ∧ one ++ two = reported :=
  Outcome.andThen_eq_done

@[simp] theorem readAt_frame (body : Form) :
    (Form.frame body).readAt levels frame ts = (body.readAt levels [] ts).into frame := rfl

@[simp] theorem readAt_close (rule : Rule) :
    (close rule).readAt levels frame ts = .done [Tree.ofRule rule frame] ts [] := rfl

@[simp] theorem readAt_refuse (expected : String) :
    (refuse expected).readAt levels frame ts = .failed ⟨.expected expected, ts⟩ [] := rfl

theorem readAt_choose (look : Form) (admits : TokenKind → Bool) (yes no : Form) :
    (choose look admits yes no).readAt levels frame ts =
      if (look.readAt levels [] ts).leadsTo admits then yes.readAt levels frame ts
      else no.readAt levels frame ts := rfl

theorem readAt_rounds (look body : Form) (admits : TokenKind → Bool) :
    (repeated look admits body).readAt levels frame ts =
      Reader.rounds (fun ts => (look.readAt levels [] ts).leadsTo admits) (body.readAt levels)
        (ts.length + 1) frame ts := rfl

@[simp] theorem readAt_enter_zero (entry : Entry) :
    (enter entry).readAt 0 frame ts = .failed ⟨.tooDeep, ts⟩ [] := rfl

@[simp] theorem readAt_enter_succ (entry : Entry) :
    (enter entry).readAt (levels + 1) frame ts = entry.form.readAt levels frame ts := rfl

@[simp] theorem readAt_recover (body skip : Form) :
    (recover body skip).readAt levels frame ts =
      (body.readAt levels frame ts).orElse (skip.readAt levels frame) := rfl

@[simp] theorem leadsTo_empty (admits : TokenKind → Bool) :
    (empty.readAt levels frame ts).leadsTo admits = admits (nextKind ts) := rfl

end Form

/-! ## Which forms can idle -/

namespace Form

/-- The form reads nothing and never fails. -/
def isEmpty : Form → Bool
  | .empty => true
  | _ => false

theorem eq_empty_of_isEmpty {f : Form} (h : f.isEmpty = true) : f = .empty := by
  cases f <;> simp_all [isEmpty]

mutual

/-- With a token of kind `kind` next, the form may come to its end without reading it. -/
def idles (kind : TokenKind) : Form → Bool
  | .empty | .trivia | .close _ => true
  | .token _ _ | .string _ | .refuse _ | .enter _ => false
  | .seq first second => first.idles kind && second.idles kind
  | .frame body => body.idles kind
  | .choose look admits yes no =>
      if look.isEmpty then if admits kind then yes.idles kind else no.idles kind
      else yes.idles kind || no.idles kind
  | .repeated look admits body => !(look.isEmpty && admits kind) || body.idles kind
  | .recover body skip => body.idles kind || body.balks kind && skip.idles kind

/-- With a token of kind `kind` next, the form may give up without reading it. -/
def balks (kind : TokenKind) : Form → Bool
  | .empty | .trivia | .close _ => false
  | .token admits _ => !admits kind || kind == .eof
  | .string _ | .refuse _ | .enter _ => true
  | .seq first second => first.balks kind || first.idles kind && second.balks kind
  | .frame body => body.balks kind
  | .choose look admits yes no =>
      if look.isEmpty then if admits kind then yes.balks kind else no.balks kind
      else yes.balks kind || no.balks kind
  | .repeated _ _ body => body.balks kind
  | .recover body skip => body.balks kind && skip.balks kind

end

/-- No repetition in the form can go round without reading a token. -/
def productive : Form → Bool
  | .seq first second => first.productive && second.productive
  | .frame body => body.productive
  | .choose look _ yes no => look.productive && yes.productive && no.productive
  | .repeated look admits body =>
      look.productive && body.productive &&
        TokenKind.all.all fun kind => look.isEmpty && !admits kind || !body.idles kind
  | .recover body skip => body.productive && skip.productive
  | _ => true

theorem idles_of_round {look body : Form} {admits : TokenKind → Bool} {kind : TokenKind}
    (h : (repeated look admits body).productive) (admitted : look.isEmpty → admits kind) :
    body.idles kind = false := by
  simp only [productive, Bool.and_eq_true, List.all_eq_true] at h
  have := h.2 kind (TokenKind.mem_all kind)
  grind

end Form

theorem Entry.form_productive (entry : Entry) : entry.form.productive := by
  cases entry with
  | link least own => cases least <;> cases own <;> decide
  | _ => decide

theorem Entry.form_not_idles (entry : Entry) (kind : TokenKind) :
    entry.form.idles kind = false := by
  have checked : (TokenKind.all.all fun kind => !entry.form.idles kind) := by
    cases entry with
    | link least own => cases least <;> cases own <;> decide
    | _ => decide
  simpa using List.all_eq_true.mp checked kind (TokenKind.mem_all kind)

theorem Form.script_productive : Form.script.productive := by decide

/-! ## Progress -/

/-- Fewer significant tokens are left in `rest` than in `ts`. -/
def Shorter (rest ts : List Token) : Prop := (significant rest).length < (significant ts).length

/-- Either a token was read, or none was and the kind of the next one allows it: with `idles` at
the end of a form, with `balks` where it gave up. -/
def Outcome.Advances (idles balks : TokenKind → Bool) (ts : List Token) : Outcome → Prop
  | .done _ rest _ => Shorter rest ts ∨ significant rest = significant ts ∧ idles (nextKind ts)
  | .failed fault _ =>
      Shorter fault.rest ts ∨ significant fault.rest = significant ts ∧ balks (nextKind ts)

namespace Outcome

variable {idles balks idles' balks' : TokenKind → Bool} {ts : List Token} {o : Outcome}

theorem Advances.mono (h : o.Advances idles balks ts)
    (hi : idles (nextKind ts) → idles' (nextKind ts))
    (hb : balks (nextKind ts) → balks' (nextKind ts)) : o.Advances idles' balks' ts := by
  cases o with
  | done frame rest reported => exact h.imp id fun ⟨same, k⟩ => ⟨same, hi k⟩
  | failed fault reported => exact h.imp id fun ⟨same, k⟩ => ⟨same, hb k⟩

/-- What reads on from `rest` advances from `ts` too, once a token was read on the way. -/
theorem Advances.of_shorter {rest : List Token} (h : o.Advances idles balks rest)
    (shorter : Shorter rest ts) : o.Advances idles' balks' ts := by
  cases o with
  | done frame last reported =>
      refine .inl (h.elim (fun l => l.trans shorter) fun ⟨same, _⟩ => ?_)
      rwa [Shorter, same]
  | failed fault reported =>
      refine .inl (h.elim (fun l => l.trans shorter) fun ⟨same, _⟩ => ?_)
      rwa [Shorter, same]

theorem Advances.of_same {rest : List Token} (h : o.Advances idles balks rest)
    (same : significant rest = significant ts) : o.Advances idles balks ts := by
  have next := nextKind_congr same
  cases o with
  | done frame last reported => simpa only [Advances, Shorter, same, next] using h
  | failed fault reported => simpa only [Advances, Shorter, same, next] using h

theorem Advances.andThen {next : Reader} (h : o.Advances idles balks ts)
    (hnext : ∀ frame rest reported, o = .done frame rest reported →
      (next frame rest).Advances idles' balks' rest) :
    (o.andThen next).Advances (fun k => idles k && idles' k)
      (fun k => balks k || idles k && balks' k) ts := by
  cases o with
  | failed fault reported => exact h.imp id fun ⟨same, balk⟩ => ⟨same, by simp_all⟩
  | done frame rest reported =>
      have second := hnext frame rest reported rfl
      have whole : (next frame rest).Advances (fun k => idles k && idles' k)
          (fun k => balks k || idles k && balks' k) ts := by
        rcases h with shorter | ⟨same, idle⟩
        · exact second.of_shorter shorter
        · exact (second.of_same same).mono (by simp [idle]) (by simp_all)
      simp only [Outcome.andThen]
      cases hn : next frame rest with
      | done frame' last more => rw [hn] at whole; exact whole
      | failed fault more => rw [hn] at whole; exact whole

theorem Advances.into (h : o.Advances idles balks ts) (outer : List Tree) :
    (o.into outer).Advances idles balks ts := by
  cases o <;> exact h

theorem Advances.orElse {skip : List Token → Outcome} (h : o.Advances idles balks ts)
    (hskip : ∀ fault reported, o = .failed fault reported →
      (skip fault.rest).Advances idles' balks' fault.rest) :
    (o.orElse skip).Advances (fun k => idles k || balks k && idles' k)
      (fun k => balks k && balks' k) ts := by
  cases o with
  | done frame rest reported => exact h.imp id fun ⟨same, idle⟩ => ⟨same, by simp_all⟩
  | failed fault reported =>
      have second := hskip fault reported rfl
      have whole : (skip fault.rest).Advances (fun k => idles k || balks k && idles' k)
          (fun k => balks k && balks' k) ts := by
        rcases h with shorter | ⟨same, balk⟩
        · exact second.of_shorter shorter
        · exact (second.of_same same).mono (by simp_all) (by simp_all)
      simp only [Outcome.orElse]
      cases hs : skip fault.rest with
      | done frame' last more => rw [hs] at whole; exact whole
      | failed fault' more => rw [hs] at whole; exact whole

end Outcome

theorem Reader.ofToken_advances (test : Token → Option Cause) (atEnd : Cause) (frame : List Tree)
    (ts : List Token) {balks : TokenKind → Bool}
    (hb : ∀ t rest, afterTrivia ts = t :: rest → test t ≠ none → balks t.kind)
    (hend : afterTrivia ts = [] → balks .eof) :
    (ofToken test atEnd frame ts).Advances (fun _ => false) balks ts := by
  unfold ofToken
  cases hts : afterTrivia ts with
  | nil =>
      have none : significant ts = [] := by rw [← significant_afterTrivia, hts]; rfl
      refine .inr ⟨rfl, ?_⟩
      simpa [nextKind_eq, none] using hend hts
  | cons t rest =>
      cases ht : test t with
      | some cause =>
          simp only [ht]
          exact .inr ⟨rfl, by simpa [nextKind_of_afterTrivia hts] using hb t rest hts (by simp [ht])⟩
      | none =>
          simp only [ht]
          exact .inl (by simp [Shorter, significant_of_afterTrivia hts])

/-- A repetition advances as its rounds do. -/
theorem Reader.rounds_advances {looks : List Token → Bool} {body : Reader}
    {idles balks : TokenKind → Bool}
    (hbody : ∀ frame ts, looks ts → (body frame ts).Advances idles balks ts) (n : Nat)
    (frame : List Tree) (ts : List Token) :
    (rounds looks body n frame ts).Advances (fun _ => true) balks ts := by
  induction n generalizing frame ts with
  | zero => exact .inr ⟨rfl, rfl⟩
  | succ n ih =>
      unfold rounds
      split
      · rename_i looked
        have both := (hbody frame ts looked).andThen fun frame' rest _ _ => ih frame' rest
        exact both.mono (fun _ => rfl) (by grind)
      · exact .inr ⟨rfl, rfl⟩

namespace Form

/-- A form advances as `idles` and `balks` say, if entries always read a token. -/
theorem read_advances {inner : Entry → Reader}
    (hinner : ∀ entry frame ts,
      (inner entry frame ts).Advances (fun _ => false) (fun _ => true) ts)
    (f : Form) (frame : List Tree) (ts : List Token) :
    (f.read inner frame ts).Advances (f.idles ·) (f.balks ·) ts := by
  induction f generalizing frame ts with
  | empty => exact .inr ⟨rfl, rfl⟩
  | trivia => exact .inr ⟨significant_afterTrivia ts, rfl⟩
  | token admits expected =>
      apply Reader.ofToken_advances
      · intro t rest _ ht
        simp_all [balks]
      · intro _
        simp [balks]
  | string expected => exact Reader.ofToken_advances _ _ _ _ (fun _ _ _ _ => rfl) fun _ => rfl
  | refuse expected => exact .inr ⟨rfl, rfl⟩
  | seq first second ihFirst ihSecond =>
      exact (ihFirst frame ts).andThen fun frame' rest _ _ => ihSecond frame' rest
  | frame body ih => exact (ih [] ts).into frame
  | close rule => exact .inr ⟨rfl, rfl⟩
  | choose look admits yes no _ ihYes ihNo =>
      simp only [read]
      by_cases empty : look.isEmpty
      · rw [eq_empty_of_isEmpty empty]
        by_cases next : admits (nextKind ts)
        · simpa [read, Outcome.leadsTo, next] using
            (ihYes frame ts).mono (by simp [idles, isEmpty, next]) (by simp [balks, isEmpty, next])
        · simpa [read, Outcome.leadsTo, next] using
            (ihNo frame ts).mono (by simp [idles, isEmpty, next]) (by simp [balks, isEmpty, next])
      · split
        · exact (ihYes frame ts).mono (by simp_all [idles]) (by simp_all [balks])
        · exact (ihNo frame ts).mono (by simp_all [idles]) (by simp_all [balks])
  | repeated look admits body _ ihBody =>
      simp only [read]
      have later := @Reader.rounds_advances (fun ts => (read inner look [] ts).leadsTo admits)
        (read inner body) _ _ (fun frame ts _ => ihBody frame ts) ts.length
      unfold Reader.rounds
      split
      · have both := (ihBody frame ts).andThen fun frame' rest _ _ => later frame' rest
        exact both.mono (by simp_all [idles]) (by grind [balks])
      · rename_i stopped
        refine .inr ⟨rfl, ?_⟩
        cases empty : look.isEmpty with
        | false => simp [idles, empty]
        | true =>
            rw [eq_empty_of_isEmpty empty] at stopped
            have : admits (nextKind ts) = false := by simpa [read, Outcome.leadsTo] using stopped
            simp [idles, empty, this]
  | enter entry => exact hinner entry frame ts
  | recover body skip ihBody ihSkip =>
      exact (ihBody frame ts).orElse fun fault _ _ => ihSkip frame fault.rest

end Form

/-- An entry reads a token before it comes to its end. -/
theorem Entry.read_advances (levels : Nat) (entry : Entry) (frame : List Tree)
    (ts : List Token) :
    (entry.read levels frame ts).Advances (fun _ => false) (fun _ => true) ts := by
  induction levels generalizing entry frame ts with
  | zero => exact .inr ⟨rfl, rfl⟩
  | succ levels ih =>
      exact (entry.form.read_advances ih frame ts).mono (by simp [form_not_idles]) fun _ => rfl

namespace Form

theorem readAt_advances (levels : Nat) (f : Form) (frame : List Tree) (ts : List Token) :
    (f.readAt levels frame ts).Advances (f.idles ·) (f.balks ·) ts :=
  f.read_advances (Entry.read_advances levels) frame ts

/-- A round of a productive repetition reads a token. -/
theorem shorter_of_round {levels : Nat} {look body : Form} {admits : TokenKind → Bool}
    (h : (repeated look admits body).productive) {frame frame' : List Tree}
    {ts rest : List Token} {reported : List Fault}
    (looked : (look.readAt levels [] ts).leadsTo admits)
    (round : body.readAt levels frame ts = .done frame' rest reported) : Shorter rest ts := by
  have advanced := readAt_advances levels body frame ts
  rw [round] at advanced
  rcases advanced with shorter | ⟨_, idle⟩
  · exact shorter
  · have reads : body.idles (nextKind ts) = false := idles_of_round h fun empty => by
      rwa [eq_empty_of_isEmpty empty] at looked
    simp [reads] at idle

theorem rounds_congr {levels : Nat} {look body : Form} {admits : TokenKind → Bool}
    (h : (repeated look admits body).productive) {n m : Nat} (frame : List Tree)
    {ts : List Token} (hn : (significant ts).length < n) (hm : (significant ts).length < m) :
    Reader.rounds (fun ts => (look.readAt levels [] ts).leadsTo admits) (body.readAt levels) n
        frame ts =
      Reader.rounds (fun ts => (look.readAt levels [] ts).leadsTo admits) (body.readAt levels) m
        frame ts := by
  induction n generalizing m frame ts with
  | zero => omega
  | succ n ih =>
      obtain ⟨m, rfl⟩ : ∃ k, m = k + 1 := ⟨m - 1, by omega⟩
      simp only [Reader.rounds]
      split
      · rename_i looked
        cases round : body.readAt levels frame ts with
        | failed fault reported => rfl
        | done frame' rest reported =>
            have shorter : Shorter rest ts := shorter_of_round h looked round
            unfold Shorter at shorter
            simp only [Outcome.andThen]
            rw [ih frame' (m := m) (by omega) (by omega)]
      · rfl

/-- A productive repetition goes on as long as its look ahead succeeds. -/
theorem readAt_repeated {look body : Form} {admits : TokenKind → Bool}
    (h : (repeated look admits body).productive) (levels : Nat) (frame : List Tree)
    (ts : List Token) :
    (repeated look admits body).readAt levels frame ts =
      if (look.readAt levels [] ts).leadsTo admits then
        (body.readAt levels frame ts).andThen ((repeated look admits body).readAt levels)
      else .done frame ts [] := by
  by_cases looked : (look.readAt levels [] ts).leadsTo admits
  · rw [readAt_rounds, Reader.rounds]
    simp only [looked, if_true]
    cases round : body.readAt levels frame ts with
    | failed fault reported => rfl
    | done frame' rest reported =>
        have shorter : Shorter rest ts := shorter_of_round h looked round
        have bounded := significant_length_le ts
        have rested := significant_length_le rest
        unfold Shorter at shorter
        simp only [Outcome.andThen, readAt_rounds]
        rw [rounds_congr h frame' (n := ts.length) (m := rest.length + 1) (by omega) (by omega)]
  · rw [readAt_rounds, Reader.rounds]
    simp only [looked, Bool.false_eq_true, if_false]

/-- The rule for loops: an invariant of the rounds holds at the end of a repetition, and there
the look ahead fails. -/
theorem repeated_done {look body : Form} {admits : TokenKind → Bool}
    (h : (repeated look admits body).productive) {levels : Nat}
    (Keeps : List Tree → List Token → Prop)
    (step : ∀ frame ts frame' rest reported, Keeps frame ts →
      (look.readAt levels [] ts).leadsTo admits = true →
      body.readAt levels frame ts = .done frame' rest reported → Keeps frame' rest)
    {frame frame' : List Tree} {ts rest : List Token} {reported : List Fault}
    (start : Keeps frame ts)
    (done : (repeated look admits body).readAt levels frame ts = .done frame' rest reported) :
    Keeps frame' rest ∧ (look.readAt levels [] rest).leadsTo admits = false := by
  rw [readAt_repeated h] at done
  split at done
  · rename_i looked
    obtain ⟨middle, between, one, two, round, later, -⟩ := Outcome.andThen_eq_done.mp done
    have shorter : Shorter between ts := shorter_of_round h looked round
    exact repeated_done h Keeps step (step _ _ _ _ _ start looked round) later
  · rename_i stopped
    simp only [Outcome.done.injEq] at done
    obtain ⟨rfl, rfl, -⟩ := done
    exact ⟨start, by simpa using stopped⟩
termination_by (significant ts).length
decreasing_by exact shorter

/-! ## Induction along a reading -/

/-- What has to be shown of every building block so that it holds of all reading.  A motive
speaks of what reading a form comes to, from a frame and some tokens, with some levels left. -/
structure Inductive (motive : Nat → Form → List Tree → List Token → Prop) : Prop where
  empty : ∀ n frame ts, motive n .empty frame ts
  trivia : ∀ n frame ts, motive n .trivia frame ts
  token : ∀ n admits expected frame ts, motive n (.token admits expected) frame ts
  string : ∀ n expected frame ts, motive n (.string expected) frame ts
  refuse : ∀ n expected frame ts, motive n (.refuse expected) frame ts
  close : ∀ n rule frame ts, motive n (.close rule) frame ts
  seq : ∀ n first second frame ts, motive n first frame ts →
    (∀ frame' rest reported, first.readAt n frame ts = .done frame' rest reported →
      motive n second frame' rest) →
    motive n (.seq first second) frame ts
  frame : ∀ n body outer ts, motive n body [] ts → motive n (.frame body) outer ts
  choose : ∀ n look admits yes no frame ts, motive n look [] ts →
    ((look.readAt n [] ts).leadsTo admits = true → motive n yes frame ts) →
    ((look.readAt n [] ts).leadsTo admits = false → motive n no frame ts) →
    motive n (.choose look admits yes no) frame ts
  stop : ∀ n look admits body frame ts, (Form.repeated look admits body).productive →
    motive n look [] ts → (look.readAt n [] ts).leadsTo admits = false →
    motive n (.repeated look admits body) frame ts
  round : ∀ n look admits body frame ts, (Form.repeated look admits body).productive →
    motive n look [] ts → (look.readAt n [] ts).leadsTo admits = true →
    motive n body frame ts →
    (∀ frame' rest reported, body.readAt n frame ts = .done frame' rest reported →
      motive n (.repeated look admits body) frame' rest) →
    motive n (.repeated look admits body) frame ts
  tooDeep : ∀ entry frame ts, motive 0 (.enter entry) frame ts
  enter : ∀ n entry frame ts, motive n entry.form frame ts →
    motive (n + 1) (.enter entry) frame ts
  recover : ∀ n body skip frame ts, motive n body frame ts →
    (∀ fault reported, body.readAt n frame ts = .failed fault reported →
      motive n skip frame fault.rest) →
    motive n (.recover body skip) frame ts

/-- A repetition has a property if its look ahead and its rounds have it.  The rounds come to
an end because each reads a token. -/
theorem Inductive.repeated {motive : Nat → Form → List Tree → List Token → Prop}
    (cases : Inductive motive) {n : Nat} {look body : Form} {admits : TokenKind → Bool}
    (productive : (Form.repeated look admits body).productive)
    (ihLook : ∀ frame ts, motive n look frame ts) (ihBody : ∀ frame ts, motive n body frame ts)
    (frame : List Tree) (ts : List Token) : motive n (.repeated look admits body) frame ts := by
  by_cases looked : (look.readAt n [] ts).leadsTo admits
  · refine cases.round n look admits body frame ts productive (ihLook [] ts) looked
      (ihBody frame ts) fun frame' rest reported round => ?_
    have shorter : Shorter rest ts := shorter_of_round productive looked round
    exact cases.repeated productive ihLook ihBody frame' rest
  · exact cases.stop n look admits body frame ts productive (ihLook [] ts) (by simpa using looked)
termination_by (significant ts).length
decreasing_by exact shorter

theorem Inductive.form {motive : Nat → Form → List Tree → List Token → Prop}
    (cases : Inductive motive) {n : Nat}
    (entries : ∀ entry frame ts, motive n (.enter entry) frame ts) {f : Form}
    (productive : f.productive) (frame : List Tree) (ts : List Token) : motive n f frame ts := by
  induction f generalizing frame ts with
  | empty => exact cases.empty n frame ts
  | trivia => exact cases.trivia n frame ts
  | token admits expected => exact cases.token n admits expected frame ts
  | string expected => exact cases.string n expected frame ts
  | refuse expected => exact cases.refuse n expected frame ts
  | close rule => exact cases.close n rule frame ts
  | enter entry => exact entries entry frame ts
  | seq first second ihFirst ihSecond =>
      simp only [Form.productive, Bool.and_eq_true] at productive
      exact cases.seq n first second frame ts (ihFirst productive.1 frame ts)
        fun frame' rest _ _ => ihSecond productive.2 frame' rest
  | frame body ih => exact cases.frame n body frame ts (ih productive [] ts)
  | choose look admits yes no ihLook ihYes ihNo =>
      simp only [Form.productive, Bool.and_eq_true] at productive
      exact cases.choose n look admits yes no frame ts (ihLook productive.1.1 [] ts)
        (fun _ => ihYes productive.1.2 frame ts) fun _ => ihNo productive.2 frame ts
  | repeated look admits body ihLook ihBody =>
      have parts := productive
      simp only [Form.productive, Bool.and_eq_true] at parts
      exact cases.repeated productive (ihLook parts.1.1) (ihBody parts.1.2) frame ts
  | recover body skip ihBody ihSkip =>
      simp only [Form.productive, Bool.and_eq_true] at productive
      exact cases.recover n body skip frame ts (ihBody productive.1 frame ts)
        fun fault _ _ => ihSkip productive.2 frame fault.rest

/-- **Induction along a reading.**  What every building block keeps holds of reading any
productive form, with any number of levels left. -/
theorem readAt_induct {motive : Nat → Form → List Tree → List Token → Prop}
    (cases : Inductive motive) (n : Nat) {f : Form} (productive : f.productive)
    (frame : List Tree) (ts : List Token) : motive n f frame ts := by
  induction n generalizing f frame ts with
  | zero => exact cases.form (fun entry => cases.tooDeep entry) productive frame ts
  | succ n ih =>
      refine cases.form (fun entry frame ts => ?_) productive frame ts
      exact cases.enter n entry frame ts (ih entry.form_productive frame ts)

end Form

end QuestScript.Grammar
