/-
# QuestScript.Proofs.Machine -- reading step by step

`Form.read` is a recursive function on the tokens that are left.  The machine of this
module reads by the same forms, but one step at a time and with the state of a parser that
keeps its place: an index into all the tokens, end-of-file token included, the number of
levels taken, and the diagnostics so far.  What is still to be done stands on a stack of
tasks.

A look ahead is a form like any other, read from where the parser stands; the task below it
puts the index and the diagnostics back and decides which branch is read.  The levels it
took are not put back by that task: they are given back on the way, as everywhere.  Levels
are given back in two ways.  Most entries leave a task that takes off one level.  The links
of a chain and the suffixes of an operand add a level each, and the task below the first of
them sets the depth to what it was before the chain.

A token is fetched by its index.  If there is none the machine is `lost`, and stays so.

`Machine.Sound` is what every step keeps (`Sound.step`), so that no machine that was started
on tokens with an end-of-file token is ever lost, goes behind the first of these tokens or
takes more levels than the limit allows.
-/
import Mathlib.Logic.Function.Iterate
import QuestScript.Parsed
import QuestScript.Proofs.Progress

namespace QuestScript

open Text (Position Span)

set_option autoImplicit false

/-- The diagnostic of a form that gives up in front of the token `t`. -/
def Diagnostic.atToken (limit : Nat) (cause : Grammar.Cause) (t : Token) : Diagnostic :=
  match cause with
  | .tooDeep => ⟨.nestingTooDeep limit, t.span⟩
  | .openString => ⟨.unterminatedString, t.span⟩
  | .expected what =>
      if t.kind = .eof then ⟨.unexpectedEnd what, t.span⟩
      else if t.kind = .error then ⟨.invalidToken t.text, t.span⟩
      else ⟨.unexpectedToken t.text what, t.span⟩

namespace Grammar

/-! ## The machine -/

/-- What is to be done when the form at hand comes to its end or gives up. -/
inductive Task where
  /-- Read the second form of a sequence in the same frame. -/
  | next (second : Form)
  /-- Add what stands in the frame to the outer frame. -/
  | add (outer : List Tree)
  /-- Decide between two forms by what became of a look ahead: go back to where it began, to
  an index and a number of diagnostics. -/
  | decide (current reports : Nat) (frame : List Tree) (admits : TokenKind → Bool) (yes no : Form)
  /-- Give back one level. -/
  | leave
  /-- Give back the levels of a chain. -/
  | restore (depth : Nat)
  /-- Report why the form gave up and read `skip` instead. -/
  | rescue (frame : List Tree) (skip : Form)

/-- What the machine is about to do. -/
inductive Control where
  | reading (f : Form) (frame : List Tree)
  | done (frame : List Tree)
  | failed (why : Diagnostic)
  /-- A token was to be looked at that does not exist. -/
  | lost

/-- A parser on its way. -/
structure Machine where
  control : Control
  tasks : List Task
  /-- The index of the first token that is not yet read. -/
  current : Nat
  /-- The levels of nesting that are taken. -/
  depth : Nat
  reported : List Diagnostic

/-- The index of the next token that is not trivia. -/
def nextIndex (tokens : List Token) (current : Nat) : Nat :=
  current + (leadingTrivia (tokens.drop current)).length

/-- The entry continues a chain: the levels of a chain are given back together. -/
def Entry.isLink : Entry → Bool
  | .link _ _ | .suffix => true
  | _ => false

/-- The form at hand is the body of a chain. -/
def inChain : List Task → Bool
  | .restore _ :: _ => true
  | _ => false

namespace Machine

/-- At the first token of a script. -/
def initial : Machine := ⟨.reading .script [], [], 0, 0, []⟩

variable (limit : Nat) (tokens : List Token)

/-- Look at the next token. -/
def peek (m : Machine) (use : Token → Machine) : Machine :=
  match tokens[nextIndex tokens m.current]? with
  | some t => use t
  | none => { m with control := .lost }

/-- Give up in front of the next token. -/
def fail (m : Machine) (cause : Cause) : Machine :=
  m.peek tokens fun t => { m with control := .failed (.atToken limit cause t) }

/-- Read the next token, if it is not the end and `test` lets it pass. -/
def accept (m : Machine) (frame : List Tree) (test : Token → Option Cause) (atEnd : Cause) :
    Machine :=
  m.peek tokens fun t =>
    match if t.kind = .eof then some atEnd else test t with
    | some cause => { m with control := .failed (.atToken limit cause t) }
    | none =>
        { m with
          control := .done
            (frame ++ (leadingTrivia (tokens.drop m.current)).map Tree.leaf ++ [Tree.leaf t])
          current := nextIndex tokens m.current + 1 }

/-- The tasks once a level is taken for an entry.  In a chain that is under way there is
nothing to add. -/
def owing (m : Machine) (entry : Entry) : List Task :=
  if entry.isLink then if inChain m.tasks then m.tasks else .restore m.depth :: m.tasks
  else .leave :: m.tasks

/-- Begin to read a form. -/
def start (m : Machine) (frame : List Tree) : Form → Machine
  | .empty => { m with control := .done frame }
  | .trivia =>
      { m with
        control := .done (frame ++ (leadingTrivia (tokens.drop m.current)).map Tree.leaf)
        current := nextIndex tokens m.current }
  | .token admits expected =>
      m.accept limit tokens frame
        (fun t => if admits t.kind then none else some (.expected expected)) (.expected expected)
  | .string expected =>
      m.accept limit tokens frame
        (fun t =>
          if t.kind ≠ .string then some (.expected expected)
          else if closesQuote t.text then none
          else some .openString)
        (.expected expected)
  | .refuse expected => m.fail limit tokens (.expected expected)
  | .seq first second =>
      { m with control := .reading first frame, tasks := .next second :: m.tasks }
  | .frame body => { m with control := .reading body [], tasks := .add frame :: m.tasks }
  | .close rule => { m with control := .done [Tree.ofRule rule frame] }
  | .choose look admits yes no =>
      { m with
        control := .reading look []
        tasks := .decide m.current m.reported.length frame admits yes no :: m.tasks }
  | .repeated look admits body =>
      let rounds := body >> .repeated look admits body
      { m with control := .reading (.choose look admits rounds .empty) frame }
  | .enter entry =>
      if m.depth < limit then
        { m with
          control := .reading entry.form frame, tasks := m.owing entry, depth := m.depth + 1 }
      else m.fail limit tokens .tooDeep
  | .recover body skip =>
      { m with control := .reading body frame, tasks := .rescue frame skip :: m.tasks }

/-- Go on behind a form that came to its end. -/
def resume (m : Machine) (frame : List Tree) : Machine :=
  match m.tasks with
  | [] => m
  | .next second :: tasks => { m with control := .reading second frame, tasks }
  | .add outer :: tasks => { m with control := .done (outer ++ frame), tasks }
  | .decide current reports outer admits yes no :: tasks =>
      m.peek tokens fun t =>
        { m with
          control := .reading (if admits t.kind then yes else no) outer
          tasks, current, reported := m.reported.take reports }
  | .leave :: tasks => { m with tasks, depth := m.depth - 1 }
  | .restore depth :: tasks => { m with tasks, depth }
  | .rescue _ _ :: tasks => { m with tasks }

/-- Go on where a form gave up. -/
def unwind (m : Machine) (why : Diagnostic) : Machine :=
  match m.tasks with
  | [] => m
  | .next _ :: tasks | .add _ :: tasks => { m with tasks }
  | .decide current reports outer _ _ no :: tasks =>
      { m with
        control := .reading no outer
        tasks, current, reported := m.reported.take reports }
  | .leave :: tasks => { m with tasks, depth := m.depth - 1 }
  | .restore depth :: tasks => { m with tasks, depth }
  | .rescue frame skip :: tasks =>
      { m with control := .reading skip frame, tasks, reported := m.reported ++ [why] }

/-- One step.  A machine without tasks that came to its end or gave up has halted. -/
def step (m : Machine) : Machine :=
  match m.control with
  | .reading f frame => m.start limit tokens frame f
  | .done frame => m.resume tokens frame
  | .failed why => m.unwind why
  | .lost => m

/-! ## What every step keeps -/

end Machine

/-- The levels that the tasks give back are the levels that are taken. -/
def Fits : (depth : Nat) → List Task → Prop
  | depth, [] => depth = 0
  | depth, .leave :: tasks => 0 < depth ∧ Fits (depth - 1) tasks
  | depth, .restore before :: tasks => before < depth ∧ Fits before tasks
  | depth, _ :: tasks => Fits depth tasks

/-- The forms of the task are productive, and it leads to no index behind `last`. -/
def Task.Sound (last : Nat) : Task → Prop
  | .next second => second.productive
  | .decide current _ _ _ yes no => current ≤ last ∧ yes.productive ∧ no.productive
  | .rescue _ skip => skip.productive
  | .add _ | .leave | .restore _ => True

/-- The machine is not lost, and the form it reads is productive. -/
def Control.Sound : Control → Prop
  | .reading f _ => f.productive
  | .done _ | .failed _ => True
  | .lost => False

/-- What holds of a machine on its way: `last` is the index of the first end-of-file token. -/
structure Machine.Sound (limit last : Nat) (m : Machine) : Prop where
  control : m.control.Sound
  tasks : ∀ task ∈ m.tasks, task.Sound last
  fits : Fits m.depth m.tasks
  current : m.current ≤ last
  depth : m.depth ≤ limit

theorem Fits.owing {m : Machine} {entry : Entry} (fits : Fits m.depth m.tasks) :
    Fits (m.depth + 1) (m.owing entry) := by
  unfold Machine.owing
  split
  · cases tasks : m.tasks with
    | nil => simpa [inChain, Fits, tasks] using fits
    | cons task rest =>
        rw [tasks] at fits
        cases task with
        | restore before =>
            obtain ⟨less, below⟩ := fits
            exact ⟨Nat.lt_succ_of_lt less, below⟩
        | _ => exact ⟨Nat.lt_succ_self _, fits⟩
  · exact ⟨Nat.succ_pos _, fits⟩

section

variable {limit last current : Nat} {tokens : List Token} {stop : Token}

/-- The next token is no later than a token that is no trivia. -/
theorem nextIndex_le (there : tokens[last]? = some stop) (plain : stop.isTrivia = false)
    (before : current ≤ last) : nextIndex tokens current ≤ last := by
  by_contra beyond
  have inside : last - current < (leadingTrivia (tokens.drop current)).length := by
    unfold nextIndex at beyond
    omega
  have same : (leadingTrivia (tokens.drop current))[last - current]? = some stop :=
    calc (leadingTrivia (tokens.drop current))[last - current]?
        = (leadingTrivia (tokens.drop current) ++
            afterTrivia (tokens.drop current))[last - current]? :=
          (List.getElem?_append_left inside).symm
      _ = (tokens.drop current)[last - current]? := by rw [leadingTrivia_append_afterTrivia]
      _ = some stop := by rw [List.getElem?_drop, Nat.add_sub_cancel' before, there]
  have := isTrivia_of_mem_leadingTrivia (List.mem_of_getElem? same)
  simp [plain] at this

namespace Machine

variable (there : tokens[last]? = some stop) (isEnd : stop.kind = .eof)

theorem Sound.initial : Sound limit last initial where
  control := Form.script_productive
  tasks := by simp [Machine.initial]
  fits := rfl
  current := Nat.zero_le _
  depth := Nat.zero_le _

include there isEnd

/-- There is a next token, and it is the end or stands before it. -/
theorem peeked (before : current ≤ last) :
    ∃ t, tokens[nextIndex tokens current]? = some t ∧
      (t.kind ≠ .eof → nextIndex tokens current + 1 ≤ last) := by
  have le := nextIndex_le there (isTrivia_of_kind isEnd rfl) before
  have inside : nextIndex tokens current < tokens.length :=
    le.trans_lt (List.getElem?_eq_some_iff.mp there).1
  refine ⟨tokens[nextIndex tokens current], List.getElem?_eq_getElem inside, fun kind => ?_⟩
  refine Nat.lt_of_le_of_ne le fun same => kind ?_
  obtain rfl : tokens[nextIndex tokens current] = stop := by
    rw [← same, List.getElem?_eq_getElem inside] at there
    exact Option.some.inj there
  exact isEnd

variable {m : Machine}

theorem Sound.fail (sound : m.Sound limit last) (cause : Cause) :
    (m.fail limit tokens cause).Sound limit last := by
  obtain ⟨t, next, -⟩ := peeked there isEnd sound.current
  simp only [Machine.fail, peek, next]
  exact { sound with control := trivial }

theorem Sound.accept (sound : m.Sound limit last) (frame : List Tree)
    (test : Token → Option Cause) (atEnd : Cause) :
    (m.accept limit tokens frame test atEnd).Sound limit last := by
  obtain ⟨t, next, before⟩ := peeked there isEnd sound.current
  simp only [Machine.accept, peek, next]
  split
  · exact { sound with control := trivial }
  · rename_i passes
    have kind : t.kind ≠ .eof := by
      intro ended
      simp [ended] at passes
    exact { sound with control := trivial, current := before kind }

/-- Beginning to read a productive form is sound. -/
theorem Sound.start (sound : m.Sound limit last) {f : Form} (productive : f.productive)
    (frame : List Tree) : (m.start limit tokens frame f).Sound limit last := by
  cases f with
  | empty | close => exact { sound with control := trivial }
  | trivia =>
      have plain : stop.isTrivia = false := isTrivia_of_kind isEnd rfl
      exact { sound with control := trivial, current := nextIndex_le there plain sound.current }
  | token | string => exact sound.accept there isEnd ..
  | refuse => exact sound.fail there isEnd _
  | seq first second =>
      simp only [Form.productive, Bool.and_eq_true] at productive
      exact { sound with
        control := productive.1
        tasks := List.forall_mem_cons.mpr ⟨productive.2, sound.tasks⟩ }
  | frame body =>
      exact { sound with
        control := productive
        tasks := List.forall_mem_cons.mpr ⟨trivial, sound.tasks⟩ }
  | choose look admits yes no =>
      simp only [Form.productive, Bool.and_eq_true] at productive
      exact { sound with
        control := productive.1.1
        tasks := List.forall_mem_cons.mpr
          ⟨⟨sound.current, productive.1.2, productive.2⟩, sound.tasks⟩ }
  | repeated look admits body =>
      have parts := productive
      simp only [Form.productive, Bool.and_eq_true] at parts
      refine { sound with control := ?_ }
      change (Form.choose look admits (.seq body (.repeated look admits body)) .empty).productive
      rw [Form.productive, Form.productive, productive, parts.1.1, parts.1.2]
      rfl
  | enter entry =>
      simp only [Machine.start]
      split
      · rename_i room
        refine { sound with
          control := entry.form_productive, tasks := ?_, fits := sound.fits.owing, depth := room }
        have := sound.tasks
        unfold owing
        split_ifs <;> simp_all [Task.Sound]
      · exact sound.fail there isEnd _
  | recover body skip =>
      simp only [Form.productive, Bool.and_eq_true] at productive
      exact { sound with
        control := productive.1
        tasks := List.forall_mem_cons.mpr ⟨productive.2, sound.tasks⟩ }

theorem Sound.resume (sound : m.Sound limit last) {frame : List Tree}
    (came : m.control = .done frame) : (m.resume tokens frame).Sound limit last := by
  obtain ⟨control, tasks, current, depth, reported⟩ := m
  obtain ⟨-, owed, fits, before, level⟩ := sound
  cases came
  cases tasks with
  | nil => exact ⟨trivial, owed, fits, before, level⟩
  | cons task tasks =>
      obtain ⟨top, below⟩ := List.forall_mem_cons.mp owed
      cases task with
      | next => exact ⟨top, below, fits, before, level⟩
      | add => exact ⟨trivial, below, fits, before, level⟩
      | decide mark reports outer admits yes no =>
          obtain ⟨t, next, -⟩ := peeked there isEnd before
          simp only [Machine.resume, peek, next]
          refine ⟨?_, below, fits, top.1, level⟩
          simp only [Control.Sound]
          split
          · exact top.2.1
          · exact top.2.2
      | leave => exact ⟨trivial, below, fits.2, before, (Nat.sub_le _ _).trans level⟩
      | restore => exact ⟨trivial, below, fits.2, before, fits.1.le.trans level⟩
      | rescue => exact ⟨trivial, below, fits, before, level⟩

omit there isEnd in
theorem Sound.unwind (sound : m.Sound limit last) {why : Diagnostic}
    (came : m.control = .failed why) : (m.unwind why).Sound limit last := by
  obtain ⟨control, tasks, current, depth, reported⟩ := m
  obtain ⟨-, owed, fits, before, level⟩ := sound
  cases came
  cases tasks with
  | nil => exact ⟨trivial, owed, fits, before, level⟩
  | cons task tasks =>
      obtain ⟨top, below⟩ := List.forall_mem_cons.mp owed
      cases task with
      | next | add => exact ⟨trivial, below, fits, before, level⟩
      | decide => exact ⟨top.2.2, below, fits, top.1, level⟩
      | leave => exact ⟨trivial, below, fits.2, before, (Nat.sub_le _ _).trans level⟩
      | restore => exact ⟨trivial, below, fits.2, before, fits.1.le.trans level⟩
      | rescue => exact ⟨top, below, fits, before, level⟩

/-- **What a step keeps.** -/
theorem Sound.step (sound : m.Sound limit last) : (m.step limit tokens).Sound limit last := by
  unfold Machine.step
  split
  · rename_i f frame came
    have := sound.control
    rw [came] at this
    exact sound.start there isEnd this frame
  · exact sound.resume there isEnd ‹_›
  · exact sound.unwind ‹_›
  · exact sound

/-- What a run keeps. -/
theorem Sound.run (sound : m.Sound limit last) (k : Nat) :
    ((Machine.step limit tokens)^[k] m).Sound limit last := by
  induction k with
  | zero => exact sound
  | succ k ih =>
      rw [Function.iterate_succ_apply']
      exact ih.step there isEnd

end Machine

end

end Grammar

end QuestScript
