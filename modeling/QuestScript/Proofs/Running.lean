/-
# QuestScript.Proofs.Running -- a parser on its way through a script

A parser gets the tokens of a script with an end-of-file token behind them
(`Parsed.ended`), and from then on it is a machine.  Two things are shown of all the states
it comes through.

* It halts, at the first end-of-file token and with the result of `Parsed.ofTokens`.  On the
  way every round of a loop reads a token that is not trivia, or the loop is left
  (`Machine.halts_at_end`).  A round cannot come to nothing even if a statement fails at once:
  what is skipped then begins with the token that the look ahead of the loop has seen.
* The index is never behind the first end-of-file token and the depth is never above the
  limit.  Every form that is begun comes to an end, no earlier in the tokens and as deep as it
  was begun, and a look ahead leaves everything as it was (`Machine.run_steady`).
-/
import QuestScript.Proofs.Simulation

namespace QuestScript

set_option autoImplicit false

open Grammar

/-! ## The tokens of a parser -/

namespace Parsed

/-- The tokens of a script with an end-of-file token behind them, if the last one is none. -/
def ended (ts : List Token) : List Token :=
  if ts.getLast?.any fun t => t.kind == .eof then ts
  else ts ++ [.atEnd ((ts.getLast?.map fun t => t.span.stop).getD .zero)]

/-- What stands before the first end-of-file token is the script, and the token stands where the
script ends. -/
theorem ended_split (ts : List Token) :
    ∃ stop, FirstEnd (ended ts) (body ts) stop ∧ stop.span = endSpan ts := by
  cases found : ts.find? fun t => t.kind == .eof with
  | some stop =>
      obtain ⟨isEnd, lead, tail, rfl, plain⟩ := List.find?_eq_some_iff_append.mp found
      have isEnd : stop.kind = .eof := by simpa using isEnd
      have before : body (lead ++ stop :: tail) = lead := by
        rw [body, List.takeWhile_append_of_pos (by simpa using plain),
          List.takeWhile_cons_of_neg (by simp [isEnd]), List.append_nil]
      refine ⟨stop, ⟨?_, isEnd, fun t inside => body_ne_eof t (before.symm ▸ inside)⟩, ?_⟩
      · rw [before, ended]
        split
        · exact ⟨tail, rfl⟩
        · exact ⟨_, by rw [List.append_assoc, List.cons_append]⟩
      · rw [endSpan, found]
  | none =>
      have plain : ∀ t ∈ ts, t.kind ≠ .eof := by simpa using found
      have whole : body ts = ts := List.takeWhile_eq_self_iff.mpr (by simpa using plain)
      refine ⟨.atEnd ((ts.getLast?.map fun t => t.span.stop).getD .zero),
        ⟨⟨[], ?_⟩, rfl, by rwa [whole]⟩, ?_⟩
      · rw [whole, ended, if_neg]
        cases last : ts.getLast? with
        | none => simp
        | some t => simpa using plain t (List.mem_of_getLast? last)
      · rw [endSpan, found]
        rfl

end Parsed

namespace Grammar

/-- The index of the first end-of-file token. -/
def firstEnd (tokens : List Token) : Nat := tokens.findIdx fun t => t.kind == .eof

theorem FirstEnd.firstEnd_eq {tokens lead : List Token} {stop : Token}
    (input : FirstEnd tokens lead stop) : firstEnd tokens = lead.length := by
  obtain ⟨tail, rfl⟩ := input.split
  rw [firstEnd, List.findIdx_append, if_neg (by simpa using input.plain)]
  simp [List.findIdx_cons, input.isEnd]

/-- A parser of these tokens after some steps. -/
def Machine.after (limit : Nat) (ts : List Token) (k : Nat) : Machine :=
  (Machine.step limit (Parsed.ended ts))^[k] .initial

theorem Machine.sound_after {ts lead : List Token} {stop : Token}
    (input : FirstEnd (Parsed.ended ts) lead stop) (limit k : Nat) :
    (Machine.after limit ts k).Sound limit lead.length := by
  obtain ⟨tail, split⟩ := input.split
  have there : (Parsed.ended ts)[lead.length]? = some stop := by simp [split]
  exact Sound.initial.run there input.isEnd k

/-- A token that is not trivia stands between two indices. -/
def ReadsToken (tokens : List Token) (current later : Nat) : Prop :=
  ∃ i t, current ≤ i ∧ i < later ∧ tokens[i]? = some t ∧ t.isTrivia = false

namespace Machine

/-- The machine is at the head of a loop, with these tasks. -/
def AtLoop (look : Form) (admits : TokenKind → Bool) (body : Form) (tasks : List Task)
    (m : Machine) : Prop :=
  m.tasks = tasks ∧ ∃ frame, m.control = .reading (.repeated look admits body) frame

/-- From the head of a loop the machine comes to the head again, behind a token that is not trivia,
or it leaves the loop, where it stands or because a round gave up. -/
def Rounds (limit : Nat) (tokens : List Token) (look : Form) (admits : TokenKind → Bool)
    (body : Form) (m : Machine) : Prop :=
  ∃ j m', (step limit tokens)^[j + 1] m = m' ∧ m'.tasks = m.tasks ∧
    (∀ i < j, ¬ AtLoop look admits body m.tasks ((step limit tokens)^[i + 1] m)) ∧
    ((∃ frame, m' = { m with control := .done frame }) ∨ (∃ why, m'.control = .failed why) ∨
      AtLoop look admits body m.tasks m' ∧ ReadsToken tokens m.current m'.current)

end Machine

namespace Machine

/-- What holds of every state of a parser. -/
structure Steady (limit : Nat) (tokens : List Token) (m : Machine) : Prop where
  /-- The index is not behind the first end-of-file token. -/
  inside : m.current ≤ firstEnd tokens
  /-- No token was looked at that does not exist. -/
  found : m.control ≠ .lost
  level : m.depth ≤ limit
  /-- What is begun comes to an end, to its own or where it gives up, and only then the tasks below
  are taken up.  The index is no smaller there, and the depth is the same, except for the body of a
  chain, which has the chain give back its levels. -/
  returns : ∀ f frame, m.control = .reading f frame →
    ∃ m', Path limit tokens (Above m.tasks) m m' ∧ m'.tasks = m.tasks ∧
      ((∃ frame', m'.control = .done frame') ∨ ∃ why, m'.control = .failed why) ∧
      m.current ≤ m'.current ∧
      (m'.depth = m.depth ∨ inChain m.tasks ∧ m.depth ≤ m'.depth)
  /-- A look ahead is answered with everything as it was. -/
  looks : ∀ look admits yes no frame, m.control = .reading (.choose look admits yes no) frame →
    ∃ answer : Bool, Path limit tokens m.Within m
      { m with control := .reading (if answer then yes else no) frame }

end Machine

section

variable {limit : Nat} {tokens lead : List Token} {stop : Token}
  (input : FirstEnd tokens lead stop)

include input

/-- Where fewer significant tokens are left, one was passed. -/
theorem readsToken_of_shorter {ts rest : List Token} {current later : Nat}
    (start : Stands lead ts current) (behind : Stands lead rest later) (shorter : Shorter rest ts)
    (suffix : rest <:+ ts) : ReadsToken tokens current later := by
  obtain ⟨passed, rfl⟩ := suffix
  have some : significant passed ≠ [] := by
    intro none
    simp [Shorter, none] at shorter
  obtain ⟨t, inside⟩ := List.exists_mem_of_ne_nil _ some
  obtain ⟨inside, plain⟩ := List.mem_filter.mp inside
  obtain ⟨i, less, rfl⟩ := List.mem_iff_getElem.mp inside
  have atStart := start.length
  have atEnd := behind.length
  simp only [List.length_append] at atStart
  refine ⟨current + i, passed[i], by omega, by omega, ?_, by simpa using plain⟩
  obtain ⟨tail, rfl⟩ := input.split
  obtain ⟨before, rfl, rfl⟩ := start
  rw [List.append_assoc, List.append_assoc, List.getElem?_append_right (by omega),
    Nat.add_sub_cancel_left, List.getElem?_append_left less, List.getElem?_eq_getElem less]

namespace Machine

variable {m x : Machine} {look body : Form} {admits : TokenKind → Bool} {frame : List Tree}
  {tasks : List Task}

omit input in
/-- Up to where it comes back from a form that is no loop, the machine is not at this loop. -/
theorem Within.not_atLoop (within : m.Within x) (same : m.tasks = tasks)
    (other : ¬ AtLoop look admits body tasks m) : ¬ AtLoop look admits body tasks x := by
  rcases within with rfl | ⟨-, longer⟩
  · exact other
  · rintro ⟨same', -⟩
    rw [same, same'] at longer
    exact longer.false

/-- One round of a loop, or the way out of it. -/
theorem Sound.rounds (sound : m.Sound limit lead.length)
    (atLoop : m.control = .reading (.repeated look admits body) frame) :
    Rounds limit tokens look admits body m := by
  have productive : (Form.repeated look admits body).productive := by
    have := sound.control
    rwa [atLoop] at this
  have parts := productive
  simp only [Form.productive, Bool.and_eq_true] at parts
  have levels : limit - m.depth + m.depth = limit := Nat.sub_add_cancel sound.depth
  have stands := Stands.of_le sound.current
  generalize limit - m.depth = n at levels
  generalize lead.drop m.current = ts at stands
  let choice : Form := .choose look admits (.seq body (.repeated look admits body)) .empty
  suffices ∃ m', Path limit tokens (fun x => ¬ AtLoop look admits body m.tasks x)
      { m with control := .reading choice frame } m' ∧ m'.tasks = m.tasks ∧
      ((∃ frame, m' = { m with control := .done frame }) ∨ (∃ why, m'.control = .failed why) ∨
        AtLoop look admits body m.tasks m' ∧ ReadsToken tokens m.current m'.current) by
    obtain ⟨m', path, same, ends⟩ := this
    obtain ⟨j, run, inside⟩ := path.iterate
    have opens : m.step limit tokens = { m with control := .reading choice frame } :=
      step_reading limit tokens atLoop
    refine ⟨j, m', ?_, same, fun i less => ?_, ends⟩
    · rw [Function.iterate_succ_apply, opens, run]
    · rw [Function.iterate_succ_apply, opens]
      exact inside i less
  have looked := Simulated.decided input (Form.readAt_simulated input parts.1.1 n [] ts)
    (m := { m with control := .reading choice frame }) rfl stands levels
  have atChoice : ¬ AtLoop look admits body m.tasks
      { m with control := .reading choice frame } := by
    rintro ⟨-, frame', is⟩
    simp [choice] at is
  have start := looked.mono fun x within => within.not_atLoop rfl atChoice
  cases answer : (look.readAt n [] ts).leadsTo admits with
  | false =>
      rw [if_neg (by simp [answer])] at start
      exact ⟨_, start.trans (.step (by rintro ⟨-, frame', ⟨⟩⟩)), rfl, .inl ⟨frame, rfl⟩⟩
  | true =>
      rw [if_pos answer] at start
      have sim : Simulated limit tokens lead stop n body frame ts :=
        Form.readAt_simulated input parts.1.2 n frame ts
      have away (x : Machine) (within : Within
          { m with control := .reading (.seq body (.repeated look admits body)) frame } x) :
          ¬ AtLoop look admits body m.tasks x :=
        within.not_atLoop rfl (by rintro ⟨-, frame', ⟨⟩⟩)
      cases round : body.readAt n frame ts with
      | failed fault faults =>
          obtain ⟨m₃, path, came⟩ := Simulated.seq_failed sim
            (m := { m with control := .reading (.seq body (.repeated look admits body)) frame })
            rfl stands levels round
          exact ⟨m₃, start.trans (path.mono away), came.tasks, .inr (.inl ⟨_, came.control⟩)⟩
      | done frame' rest faults =>
          obtain ⟨m₃, path, came, -⟩ := Simulated.seq_done sim
            (m := { m with control := .reading (.seq body (.repeated look admits body)) frame })
            rfl stands levels round
          have shorter := Form.shorter_of_round productive answer round
          have suffix := Form.readAt_suffix parts.1.2 n frame ts
          rw [round] at suffix
          exact ⟨m₃, start.trans (path.mono away), came.tasks, .inr (.inr
            ⟨⟨came.tasks, frame', came.control⟩,
              readsToken_of_shorter input stands came.stands shorter suffix⟩)⟩

/-- A form that is begun in a sound state comes to an end as reading does. -/
theorem Sound.steady (sound : m.Sound limit lead.length) : Steady limit tokens m where
  inside := input.firstEnd_eq ▸ sound.current
  found lost := by simpa [lost, Control.Sound] using sound.control
  level := sound.depth
  returns f frame reading := by
    have productive : f.productive := by
      have := sound.control
      rwa [reading] at this
    obtain ⟨m', path, follows⟩ := Form.readAt_simulated input productive (limit - m.depth) frame _
      m reading (.of_le sound.current) (Nat.sub_add_cancel sound.depth)
    refine ⟨m', path, follows.tasks, ?_⟩
    cases read : f.readAt (limit - m.depth) frame (lead.drop m.current) with
    | done frame' rest faults =>
        rw [read] at follows
        exact ⟨.inl ⟨frame', follows.control⟩, follows.later, follows.depth⟩
    | failed fault faults =>
        rw [read] at follows
        exact ⟨.inr ⟨_, follows.control⟩, follows.later, follows.depth⟩
  looks look admits yes no frame reading := by
    have productive : look.productive := by
      have := sound.control
      rw [reading] at this
      simp only [Control.Sound, Form.productive, Bool.and_eq_true] at this
      exact this.1.1
    exact ⟨_, Simulated.decided input (Form.readAt_simulated input productive _ [] _) reading
      (.of_le sound.current) (Nat.sub_add_cancel sound.depth)⟩

end Machine

end

namespace Machine

/-- **A parser halts at the first end-of-file token**, wherever such tokens stand, with the result
of `Parsed.ofTokens`; and on the way there every round of every loop, those over the items of a
script and over the statements of a block among them, reads a token that is not trivia or leaves
the loop. -/
theorem halts_at_end (limit : Nat) (ts : List Token) :
    (∃ k parts, (after limit ts k).control = .done parts ∧ (after limit ts k).tasks = [] ∧
      (after limit ts k).current = firstEnd (Parsed.ended ts) ∧
      Parsed.ofTokens limit ts =
        ⟨Parsed.rootOf (Parsed.endSpan ts) parts, (after limit ts k).reported⟩) ∧
    ∀ k look admits body frame,
      (after limit ts k).control = .reading (.repeated look admits body) frame →
      Rounds limit (Parsed.ended ts) look admits body (after limit ts k) := by
  obtain ⟨stop, input, span⟩ := Parsed.ended_split ts
  constructor
  · obtain ⟨parts, reported, done, parsed⟩ := Parsed.ofTokens_eq limit ts
    obtain ⟨m, path, follows⟩ := Form.readAt_simulated input Form.script_productive limit []
      (Parsed.body ts) initial rfl ⟨[], rfl, rfl⟩ rfl
    rw [done] at follows
    obtain ⟨k, run, -⟩ := path.iterate
    have came : after limit ts k = m := run
    refine ⟨k, parts, ?_, ?_, ?_, ?_⟩ <;> rw [came]
    · exact follows.control
    · exact follows.tasks
    · simpa [input.firstEnd_eq] using follows.stands.length
    · rw [parsed, follows.reported, span]
      rfl
  · intro k look admits body frame atLoop
    exact (sound_after input limit k).rounds input atLoop

/-- **What holds of a parser all the way.**  Whatever the tokens and the limit are, every state
that it comes to is steady. -/
theorem run_steady (limit : Nat) (ts : List Token) (k : Nat) :
    Steady limit (Parsed.ended ts) (after limit ts k) := by
  obtain ⟨stop, input, -⟩ := Parsed.ended_split ts
  exact (sound_after input limit k).steady input

end Machine

end Grammar

end QuestScript
