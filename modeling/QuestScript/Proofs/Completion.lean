/-
# QuestScript.Proofs.Completion -- a script is read to its end

Reading stands at many places until it comes to an end: it leaves tokens there, and others
where faults were reported (`Outcome.places`).  What each token that is read keeps holds of
all of these (`Form.places_of_shuns`).  So reading takes tokens from the front and leaves a
suffix wherever it stands (`Form.places_suffix`, `Form.readAt_suffix`).

Most forms can give up, but some cannot (`Form.Sure`): the forms that skip tokens after
a fault, and so every form that recovers with one of them.  A script is such a form, and
what it leaves is nothing: `Form.script_done`.  So parsing always comes from such a reading
(`Parsed.ofTokens_eq`).
-/
import QuestScript.Parsed
import QuestScript.Proofs.Progress

namespace QuestScript

set_option autoImplicit false

namespace Grammar

/-! ## What is left -/

/-- The tokens that were left where the outcome stands. -/
def Outcome.rest : Outcome → List Token
  | .done _ rest _ => rest
  | .failed fault _ => fault.rest

theorem afterTrivia_suffix (ts : List Token) : afterTrivia ts <:+ ts := List.dropWhile_suffix _

theorem suffix_of_afterTrivia {ts rest : List Token} {t : Token} (h : afterTrivia ts = t :: rest) :
    rest <:+ ts :=
  (List.suffix_cons t rest).trans (h ▸ afterTrivia_suffix ts)

namespace Outcome

@[simp] theorem rest_into (o : Outcome) (outer : List Tree) : (o.into outer).rest = o.rest := by
  cases o <;> rfl

/-- What two forms in sequence leave the second left, and the first no less. -/
theorem rest_of_andThen (P : List Token → Prop) (longer : ∀ {rest ts}, rest <:+ ts → P rest → P ts)
    {o : Outcome} {next : Reader} (h : P (o.andThen next).rest)
    (suffix : ∀ frame rest reported, o = .done frame rest reported →
      (next frame rest).rest <:+ rest) :
    P o.rest ∧ ∀ frame rest reported, o = .done frame rest reported →
      P (next frame rest).rest := by
  cases o with
  | failed fault reported => exact ⟨h, by simp⟩
  | done frame rest reported =>
      have second : P (next frame rest).rest := by
        simp only [andThen] at h
        cases later : next frame rest <;> rw [later] at h <;> exact h
      refine ⟨longer (suffix frame rest reported rfl) second, ?_⟩
      rintro _ _ _ ⟨⟩
      exact second

/-- What a form that recovers leaves the skipping left, and where it gave up no less was left. -/
theorem rest_of_orElse (P : List Token → Prop) (longer : ∀ {rest ts}, rest <:+ ts → P rest → P ts)
    {o : Outcome} {skip : List Token → Outcome} (h : P (o.orElse skip).rest)
    (suffix : ∀ fault reported, o = .failed fault reported →
      (skip fault.rest).rest <:+ fault.rest) :
    P o.rest ∧ ∀ fault reported, o = .failed fault reported → P (skip fault.rest).rest := by
  cases o with
  | done frame rest reported => exact ⟨h, by simp⟩
  | failed fault reported =>
      have second : P (skip fault.rest).rest := by
        simp only [orElse] at h
        cases later : skip fault.rest <;> rw [later] at h <;> exact h
      refine ⟨longer (suffix fault reported rfl) second, ?_⟩
      rintro _ _ ⟨⟩
      exact second

end Outcome

/-! ## Where reading stands -/

namespace Outcome

/-- The tokens left where the outcome stands, and where faults were reported on the way. -/
def places : Outcome → List (List Token)
  | .done _ rest reported => rest :: reported.map Fault.rest
  | .failed fault reported => fault.rest :: reported.map Fault.rest

theorem rest_mem_places (o : Outcome) : o.rest ∈ o.places := by
  cases o <;> exact List.mem_cons_self

variable {o : Outcome}

@[simp] theorem places_into (o : Outcome) (outer : List Tree) : (o.into outer).places = o.places := by
  cases o <;> rfl

/-- What holds of every place of a form, and of every place of another behind it, holds of every
place of the two in sequence. -/
theorem forall_places_andThen {P : List Token → Prop} {next : Reader} (h : ∀ left ∈ o.places, P left)
    (behind : ∀ frame rest reported, o = .done frame rest reported → P rest →
      ∀ left ∈ (next frame rest).places, P left) :
    ∀ left ∈ (o.andThen next).places, P left := by
  cases o with
  | failed fault reported => exact h
  | done frame rest reported =>
      have later := behind frame rest reported rfl (h rest List.mem_cons_self)
      cases read : next frame rest <;>
        simp only [andThen, read, places, List.map_append, List.mem_cons, List.mem_append]
          at h later ⊢ <;>
        grind

/-- What holds of every place of a form, and of every place of what is skipped where it gives up,
holds of every place of the form that recovers. -/
theorem forall_places_orElse {P : List Token → Prop} {skip : List Token → Outcome}
    (h : ∀ left ∈ o.places, P left)
    (behind : ∀ fault reported, o = .failed fault reported → P fault.rest →
      ∀ left ∈ (skip fault.rest).places, P left) :
    ∀ left ∈ (o.orElse skip).places, P left := by
  cases o with
  | done frame rest reported => exact h
  | failed fault reported =>
      have later := behind fault reported rfl (h fault.rest List.mem_cons_self)
      cases skipped : skip fault.rest <;>
        simp only [orElse, skipped, places, List.map_append, List.map_cons, List.mem_cons,
          List.mem_append] at h later ⊢ <;>
        grind

end Outcome

theorem Reader.places_ofToken {test : Token → Option Cause} {atEnd : Cause} {frame : List Tree}
    {ts left : List Token} (h : left ∈ (ofToken test atEnd frame ts).places) :
    left = ts ∨ ∃ t, afterTrivia ts = t :: left ∧ test t = none := by
  rcases ofToken_cases test atEnd frame ts with ⟨cause, failed⟩ | ⟨t, rest, next, passes, done⟩
  · rw [failed] at h
    exact .inl (by simpa [Outcome.places] using h)
  · rw [done] at h
    obtain rfl : left = rest := by simpa [Outcome.places] using h
    exact .inr ⟨t, next, passes⟩

namespace Form

/-- No token of a kind to stop at is read, and of the entries only some are entered. -/
def shuns (stops : TokenKind → Bool) (entries : Entry → Bool) : Form → Bool
  | .token admits _ => TokenKind.all.all fun kind => !(stops kind && admits kind)
  | .string _ => !stops .string
  | .seq first second => first.shuns stops entries && second.shuns stops entries
  | .frame body => body.shuns stops entries
  | .choose _ _ yes no => yes.shuns stops entries && no.shuns stops entries
  | .repeated _ _ body => body.shuns stops entries
  | .enter entry => entries entry
  | .recover body skip => body.shuns stops entries && skip.shuns stops entries
  | .empty | .trivia | .refuse _ | .close _ => true

theorem shuns_nothing (f : Form) : f.shuns (fun _ => false) fun _ => true := by
  induction f <;> simp_all [shuns]

section

variable {stops : TokenKind → Bool} {entries : Entry → Bool} (P : List Token → Prop)

theorem shuns_inductive (flush : ∀ {ts}, P ts → P (afterTrivia ts))
    (pass : ∀ {ts t rest}, P ts → afterTrivia ts = t :: rest → stops t.kind = false → P rest)
    (allowed : ∀ entry, entries entry → entry.form.shuns stops entries) :
    Inductive fun n f frame ts => f.shuns stops entries → P ts →
      ∀ left ∈ (f.readAt n frame ts).places, P left where
  empty n frame ts _ start := by simpa [Outcome.places] using start
  trivia n frame ts _ start := by simpa [Outcome.places] using flush start
  token n admits expected frame ts shuns start left h := by
    rcases Reader.places_ofToken h with rfl | ⟨t, next, passes⟩
    · exact start
    · simp only [Form.shuns, List.all_eq_true] at shuns
      have := shuns t.kind (TokenKind.mem_all t.kind)
      exact pass start next (by grind)
  string n expected frame ts shuns start left h := by
    rcases Reader.places_ofToken h with rfl | ⟨t, next, passes⟩
    · exact start
    · have kind : t.kind = .string := by grind
      exact pass start next (by simpa [Form.shuns, kind] using shuns)
  refuse n expected frame ts _ start := by simpa [Outcome.places] using start
  close n rule frame ts _ start := by simpa [Outcome.places] using start
  seq n first second frame ts ihFirst ihSecond shuns start := by
    simp only [Form.shuns, Bool.and_eq_true] at shuns
    exact Outcome.forall_places_andThen (ihFirst shuns.1 start) fun frame' rest reported done =>
      ihSecond frame' rest reported done shuns.2
  frame n body outer ts ih shuns start := by simpa using ih shuns start
  choose n look admits yes no frame ts _ ihYes ihNo shuns start := by
    simp only [Form.shuns, Bool.and_eq_true] at shuns
    rw [readAt_choose]
    split
    · rename_i looked
      exact ihYes looked shuns.1 start
    · rename_i failed
      exact ihNo (by simpa using failed) shuns.2 start
  stop n look admits body frame ts productive _ stopped _ start := by
    rw [readAt_repeated productive, stopped]
    simpa [Outcome.places] using start
  round n look admits body frame ts productive _ looked ihBody ihRest shuns start := by
    rw [readAt_repeated productive, if_pos looked]
    exact Outcome.forall_places_andThen (ihBody shuns start) fun frame' rest reported done =>
      ihRest frame' rest reported done shuns
  tooDeep entry frame ts _ start := by simpa [Outcome.places] using start
  enter n entry frame ts ih shuns start := ih (allowed entry shuns) start
  recover n body skip frame ts ihBody ihSkip shuns start := by
    simp only [Form.shuns, Bool.and_eq_true] at shuns
    exact Outcome.forall_places_orElse (ihBody shuns.1 start) fun fault reported failed =>
      ihSkip fault reported failed shuns.2

/-- What skipping trivia keeps, and reading any token but those to stop at, holds wherever reading
stands. -/
theorem places_of_shuns {f : Form} (productive : f.productive) (shuns : f.shuns stops entries)
    (flush : ∀ {ts}, P ts → P (afterTrivia ts))
    (pass : ∀ {ts t rest}, P ts → afterTrivia ts = t :: rest → stops t.kind = false → P rest)
    (allowed : ∀ entry, entries entry → entry.form.shuns stops entries) (n : Nat)
    (frame : List Tree) {ts : List Token} (start : P ts) :
    ∀ left ∈ (f.readAt n frame ts).places, P left :=
  readAt_induct (shuns_inductive P flush pass allowed) n productive frame ts shuns start

end

/-- Wherever reading stands, it leaves an end of the tokens. -/
theorem places_suffix {f : Form} (productive : f.productive) (n : Nat) (frame : List Tree)
    (ts : List Token) : ∀ left ∈ (f.readAt n frame ts).places, left <:+ ts :=
  places_of_shuns (· <:+ ts) productive f.shuns_nothing
    (fun inside => (afterTrivia_suffix _).trans inside) (fun inside next _ =>
      (suffix_of_afterTrivia next).trans inside)
    (fun entry _ => entry.form.shuns_nothing) n frame List.suffix_rfl

/-- Reading takes tokens from the front. -/
theorem readAt_suffix {f : Form} (productive : f.productive) (n : Nat) (frame : List Tree)
    (ts : List Token) : (f.readAt n frame ts).rest <:+ ts :=
  places_suffix productive n frame ts _ (Outcome.rest_mem_places _)

/-! ## Forms that never give up -/

/-- The form always comes to its end. -/
def Sure (f : Form) : Prop :=
  ∀ n frame ts, ∃ frame' rest reported, f.readAt n frame ts = .done frame' rest reported

theorem Sure.seq {first second : Form} (hf : first.Sure) (hs : second.Sure) :
    (first >> second).Sure := by
  intro n frame ts
  obtain ⟨middle, between, one, h₁⟩ := hf n frame ts
  obtain ⟨last, rest, two, h₂⟩ := hs n middle between
  exact ⟨last, rest, one ++ two, seq_done.mpr ⟨middle, between, one, two, h₁, h₂, rfl⟩⟩

theorem Sure.frame {body : Form} (h : body.Sure) : (Form.frame body).Sure := by
  intro n outer ts
  obtain ⟨inner, rest, reported, done⟩ := h n [] ts
  exact ⟨outer ++ inner, rest, reported, by rw [readAt_frame, done]; rfl⟩

theorem Sure.choose {look yes no : Form} {admits : TokenKind → Bool} (hy : yes.Sure)
    (hn : no.Sure) : (Form.choose look admits yes no).Sure := by
  intro n frame ts
  rw [readAt_choose]
  split
  · exact hy n frame ts
  · exact hn n frame ts

/-- A form that recovers never gives up if what it skips with never does. -/
theorem Sure.recover {body skip : Form} (h : skip.Sure) : (Form.recover body skip).Sure := by
  intro n frame ts
  rw [readAt_recover]
  cases body.readAt n frame ts with
  | done frame' rest reported => exact ⟨frame', rest, reported, rfl⟩
  | failed fault reported =>
      obtain ⟨frame', rest, more, done⟩ := h n frame fault.rest
      exact ⟨frame', rest, reported ++ fault :: more, by rw [Outcome.orElse, done]⟩

/-- A repetition gives up only in one of its rounds. -/
theorem sure_repeated {look body : Form} {admits : TokenKind → Bool}
    (productive : (repeated look admits body).productive)
    (h : ∀ n frame ts, (look.readAt n [] ts).leadsTo admits →
      ∃ frame' rest reported, body.readAt n frame ts = .done frame' rest reported) :
    (repeated look admits body).Sure := by
  intro n frame ts
  rw [readAt_repeated productive]
  split
  · rename_i looked
    obtain ⟨middle, between, one, round⟩ := h n frame ts looked
    have shorter : Shorter between ts := shorter_of_round productive looked round
    obtain ⟨last, rest, two, later⟩ := sure_repeated productive h n middle between
    exact ⟨last, rest, one ++ two, by rw [round, Outcome.andThen, later]⟩
  · exact ⟨frame, ts, [], rfl⟩
termination_by _ _ ts => (significant ts).length
decreasing_by exact shorter

theorem sure_empty : empty.Sure := fun _ frame ts => ⟨frame, ts, [], rfl⟩

theorem sure_trivia : trivia.Sure := fun _ _ _ => ⟨_, _, [], rfl⟩

theorem sure_close (rule : Rule) : (close rule).Sure := fun _ _ ts => ⟨_, ts, [], rfl⟩

/-- A token of an admitted kind can be read when one is next. -/
theorem readAt_token_of_admits {admits : TokenKind → Bool} {ts : List Token} (expected : String)
    (n : Nat) (frame : List Tree) (next : admits (nextKind ts)) (end' : admits .eof = false) :
    ∃ frame' rest reported,
      (token admits expected).readAt n frame ts = .done frame' rest reported := by
  cases hts : afterTrivia ts with
  | nil =>
      have none : significant ts = [] := by rw [← significant_afterTrivia, hts]; rfl
      simp [nextKind_eq, none, end'] at next
  | cons t rest =>
      rw [nextKind_of_afterTrivia hts] at next
      exact ⟨frame ++ (leadingTrivia ts).map Tree.leaf ++ [Tree.leaf t], rest, [], by
        simp [readAt, read, Reader.ofToken, hts, next]⟩

/-- Tokens can be skipped up to the end at most. -/
theorem sure_takeWhile {admits : TokenKind → Bool} (end' : admits .eof = false) :
    (takeWhile admits).Sure :=
  sure_repeated (by simp [productive, take, idles]) fun n frame ts looked =>
    readAt_token_of_admits _ n frame looked end'

theorem sure_skippedItem : skippedItem.Sure :=
  .choose (.frame (.seq (sure_takeWhile rfl) (sure_close _))) sure_empty

theorem sure_script : script.Sure :=
  .seq sure_trivia
    (sure_repeated (by decide) fun n frame ts _ =>
      Sure.seq (.recover sure_skippedItem) sure_trivia n frame ts)

/-! ## Scripts -/

/-- A script without end-of-file tokens is read to its end, whatever is wrong with it. -/
theorem script_done (n : Nat) {ts : List Token} (noEnd : ∀ t ∈ ts, t.kind ≠ .eof) :
    ∃ parts reported, script.readAt n [] ts = .done parts [] reported := by
  obtain ⟨parts, rest, reported, done⟩ := sure_script n [] ts
  have suffix : rest <:+ ts := by
    simpa only [done, Outcome.rest] using readAt_suffix script_productive n [] ts
  obtain ⟨frame, first, _, _, start, loop, -⟩ := seq_done.mp done
  cases start
  -- No trivia is left behind an item, so what the loop leaves begins with a token or is nothing.
  obtain ⟨flushed, atEnd⟩ := repeated_done (by decide : items.productive)
    (fun _ ts => afterTrivia ts = ts)
    (fun frame ts frame' rest reported _ _ round => by
      obtain ⟨_, between, _, _, _, last, -⟩ := seq_done.mp round
      cases last
      exact afterTrivia_afterTrivia between) (afterTrivia_afterTrivia ts) loop
  cases rest with
  | nil => exact ⟨parts, reported, done⟩
  | cons t rest =>
      refine absurd ?_ (noEnd t (suffix.subset List.mem_cons_self))
      rw [leadsTo_empty, nextKind_of_afterTrivia flushed] at atEnd
      simpa using atEnd

end Form

end Grammar

namespace Parsed

open Grammar (Form)

theorem body_ne_eof {ts : List Token} : ∀ t ∈ body ts, t.kind ≠ .eof := by
  intro t member
  simpa using List.mem_takeWhile_imp member

theorem rootOf_cons (scriptEnd : Text.Span) (part : Tree) (parts : List Tree) :
    rootOf scriptEnd (part :: parts) = .ofRule .script (part :: parts) := rfl

theorem children_rootOf (scriptEnd : Text.Span) (parts : List Tree) :
    (rootOf scriptEnd parts).children = parts := by
  cases parts <;> rfl

/-- Parsing is reading a script to its end. -/
theorem ofTokens_eq (limit : Nat) (ts : List Token) :
    ∃ parts reported, Form.script.readAt limit [] (body ts) = .done parts [] reported ∧
      ofTokens limit ts =
        ⟨rootOf (endSpan ts) parts, reported.map (Diagnostic.ofFault limit (endSpan ts))⟩ := by
  obtain ⟨parts, reported, done⟩ := Form.script_done limit fun t => body_ne_eof t
  exact ⟨parts, reported, done, by simp [ofTokens, done]⟩

end Parsed

end QuestScript
