/-
# QuestScript.Proofs.Simulation -- the machine reads what the forms read

Reading leaves a list of tokens, the machine an index; `Stands` says that they are the same
place.  With that, a machine that begins to read a form comes to what `Form.readAt` says of it
(`Machine.Follows`): to its end with these nodes, or to the fault where it gave up, with the
same tokens left and the same diagnostics, behind as many levels as before
(`Form.readAt_simulated`).  The tasks that it began with are there all the while, so nothing
that is to be done behind the form has begun (`Machine.Above`), and it is there again with just
these tasks.

The proof is by induction along the reading, whatever the tasks are.  Only for a form that
stands in the body of a chain the levels do not come back: the chain itself gives them back.
-/
import QuestScript.Proofs.Completion
import QuestScript.Proofs.Machine

namespace QuestScript.Grammar

set_option autoImplicit false

/-! ## Where a machine stands -/

/-- The tokens are `lead`, among which no end-of-file token is, and behind them `stop`, which is
one, and more. -/
structure FirstEnd (tokens lead : List Token) (stop : Token) : Prop where
  split : ∃ tail, tokens = lead ++ stop :: tail
  isEnd : stop.kind = .eof
  plain : ∀ t ∈ lead, t.kind ≠ .eof

/-- Of the tokens `lead` those before the index are read and `ts` is left. -/
def Stands (lead ts : List Token) (current : Nat) : Prop :=
  ∃ before, before ++ ts = lead ∧ before.length = current

/-- The next token that is not trivia, up to `stop`. -/
def upcoming (stop : Token) (ts : List Token) : Token := (afterTrivia ts).head?.getD stop

namespace Stands

variable {lead ts rest : List Token} {t : Token} {current : Nat}

theorem of_le (inside : current ≤ lead.length) : Stands lead (lead.drop current) current :=
  ⟨lead.take current, List.take_append_drop .., List.length_take_of_le inside⟩

theorem length (stands : Stands lead ts current) : current + ts.length = lead.length := by
  obtain ⟨before, rfl, rfl⟩ := stands
  exact List.length_append.symm

theorem flush (stands : Stands lead ts current) :
    Stands lead (afterTrivia ts) (current + (leadingTrivia ts).length) := by
  obtain ⟨before, rfl, rfl⟩ := stands
  exact ⟨before ++ leadingTrivia ts, by simp [leadingTrivia_append_afterTrivia], by simp⟩

theorem pass (stands : Stands lead ts current) (next : afterTrivia ts = t :: rest) :
    Stands lead rest (current + (leadingTrivia ts).length + 1) := by
  obtain ⟨before, split, length⟩ := stands.flush
  rw [next] at split
  exact ⟨before ++ [t], by simpa using split, by simp [length]⟩

end Stands

namespace FirstEnd

variable {tokens lead ts : List Token} {stop : Token} {current : Nat}

section

variable (input : FirstEnd tokens lead stop)

include input

theorem leadingTrivia_drop (stands : Stands lead ts current) :
    leadingTrivia (tokens.drop current) = leadingTrivia ts := by
  obtain ⟨tail, rfl⟩ := input.split
  obtain ⟨before, rfl, rfl⟩ := stands
  have plain : stop.isTrivia = false := isTrivia_of_kind input.isEnd rfl
  rw [List.append_assoc, List.drop_left, leadingTrivia, List.takeWhile_append,
    List.takeWhile_cons_of_neg (by simp [plain]), List.append_nil]
  split
  · rename_i whole
    exact ((List.takeWhile_prefix _).eq_of_length whole).symm
  · rfl

theorem nextIndex_eq (stands : Stands lead ts current) :
    nextIndex tokens current = current + (leadingTrivia ts).length := by
  rw [nextIndex, input.leadingTrivia_drop stands]

/-- The token a machine looks at. -/
theorem next (stands : Stands lead ts current) :
    tokens[nextIndex tokens current]? = some (upcoming stop ts) := by
  rw [input.nextIndex_eq stands]
  obtain ⟨tail, rfl⟩ := input.split
  obtain ⟨before, rfl, rfl⟩ := stands
  have split := leadingTrivia_append_afterTrivia ts
  unfold upcoming
  generalize leadingTrivia ts = gap, afterTrivia ts = behind at split
  subst split
  rw [List.append_assoc, List.append_assoc, List.getElem?_append_right (by omega),
    Nat.add_sub_cancel_left, List.getElem?_append_right le_rfl, Nat.sub_self]
  cases behind <;> rfl

theorem upcoming_kind (ts : List Token) : (upcoming stop ts).kind = nextKind ts := by
  unfold upcoming
  cases first : afterTrivia ts with
  | nil => rw [← nextKind_afterTrivia, first]; exact input.isEnd
  | cons t rest => exact (nextKind_of_afterTrivia first).symm

/-- What a machine says of a fault is what is said of it behind the reading. -/
theorem atToken_upcoming (stands : Stands lead ts current) (limit : Nat) (cause : Cause) :
    Diagnostic.atToken limit cause (upcoming stop ts) =
      .ofFault limit stop.span ⟨cause, ts⟩ := by
  unfold upcoming Diagnostic.atToken Diagnostic.ofFault
  cases first : afterTrivia ts with
  | nil => cases cause <;> simp [input.isEnd]
  | cons t rest =>
      obtain ⟨before, split, -⟩ := stands
      have inside : t ∈ lead := by
        rw [← split, ← leadingTrivia_append_afterTrivia ts, first]
        simp
      have kind := input.plain t inside
      cases cause with
      | expected what => exact if_neg kind
      | openString | tooDeep => rfl

end

end FirstEnd

/-! ## Paths -/

/-- Steps through machines inside some set, up to one that may stand outside. -/
inductive Path (limit : Nat) (tokens : List Token) (inside : Machine → Prop) :
    Machine → Machine → Prop where
  | stop (m : Machine) : Path limit tokens inside m m
  | go {m m' : Machine} (here : inside m)
      (later : Path limit tokens inside (m.step limit tokens) m') : Path limit tokens inside m m'

/-- The machine is about to read a form. -/
def Control.isReading : Control → Bool
  | .reading _ _ => true
  | _ => false

/-- The tasks are still all there, and the form begun with them is still at hand: either it is
about to be read or some task of its own is left. -/
def Machine.Above (base : List Task) (m : Machine) : Prop :=
  base <:+ m.tasks ∧ (m.control.isReading ∨ base.length < m.tasks.length)

/-- The machine `m` itself, or one with its tasks and more. -/
def Machine.Within (m x : Machine) : Prop :=
  x = m ∨ m.tasks <:+ x.tasks ∧ m.tasks.length < x.tasks.length

namespace Path

variable {limit : Nat} {tokens : List Token} {inside inside' : Machine → Prop}
  {m m₁ m₂ m' : Machine}

theorem trans (first : Path limit tokens inside m m₁) (second : Path limit tokens inside m₁ m') :
    Path limit tokens inside m m' := by
  induction first with
  | stop => exact second
  | go here _ ih => exact .go here (ih second)

theorem mono (path : Path limit tokens inside m m') (wider : ∀ x, inside x → inside' x) :
    Path limit tokens inside' m m' := by
  induction path with
  | stop => exact .stop _
  | go here _ ih => exact .go (wider _ here) ih

theorem step (here : inside m) : Path limit tokens inside m (m.step limit tokens) :=
  .go here (.stop _)

/-- A path is a run of some number of steps. -/
theorem iterate (path : Path limit tokens inside m m') :
    ∃ k, (Machine.step limit tokens)^[k] m = m' ∧
      ∀ j < k, inside ((Machine.step limit tokens)^[j] m) := by
  induction path with
  | stop => exact ⟨0, rfl, by simp⟩
  | go here _ ih =>
      obtain ⟨k, run, within⟩ := ih
      refine ⟨k + 1, run, fun j less => ?_⟩
      cases j with
      | zero => exact here
      | succ j => exact within j (by omega)

end Path

namespace Machine

variable {limit : Nat} {tokens : List Token} {m m₁ m₂ m' : Machine} {base : List Task}

theorem above_of_reading {f : Form} {frame : List Tree} (reading : m.control = .reading f frame) :
    m.Above m.tasks :=
  ⟨List.suffix_rfl, .inl (by rw [reading]; rfl)⟩

theorem within_above {f : Form} {frame : List Tree} (reading : m.control = .reading f frame)
    (path : Path limit tokens m.Within m m') :
    Path limit tokens (Above m.tasks) m m' := by
  refine path.mono ?_
  rintro x (rfl | ⟨suffix, longer⟩)
  · exact above_of_reading reading
  · exact ⟨suffix, .inr longer⟩

theorem Above.within {task : Task} (above : m'.Above (task :: m.tasks)) : m.Within m' := by
  have := above.1.length_le
  exact .inr ⟨(List.suffix_cons task m.tasks).trans above.1, this⟩

/-- A step that puts a task on the others, the way back to that task, and the step that takes it
off again. -/
theorem call {task : Task} (opens : m.step limit tokens = m₁) (deeper : m₁.tasks = task :: m.tasks)
    (path : Path limit tokens (Above m₁.tasks) m₁ m₂) (back : m₂.tasks = m₁.tasks) :
    Path limit tokens m.Within m (m₂.step limit tokens) := by
  refine .go (.inl rfl) (opens ▸ ?_)
  refine (path.mono fun x above => (deeper ▸ above).within).trans (.step (.inr ?_))
  rw [back, deeper]
  exact ⟨List.suffix_cons task m.tasks, by simp⟩

end Machine

/-! ## The simulation -/

/-- From `m` the machine came to `m'`, with `control` there, `rest` left, and `faults` reported on
the way.  The levels taken are those taken before, unless `m` is in the body of a chain. -/
structure Machine.Came (limit : Nat) (lead : List Token) (stop : Token) (m : Machine)
    (control : Control) (rest : List Token) (faults : List Fault) (m' : Machine) : Prop where
  control : m'.control = control
  tasks : m'.tasks = m.tasks
  stands : Stands lead rest m'.current
  later : m.current ≤ m'.current
  depth : m'.depth = m.depth ∨ inChain m.tasks ∧ m.depth ≤ m'.depth
  reported : m'.reported = m.reported ++ faults.map (.ofFault limit stop.span)

/-- From `m` the machine came to `m'`, and the outcome `o` says how. -/
def Machine.Follows (limit : Nat) (lead : List Token) (stop : Token) (m : Machine) :
    Outcome → Machine → Prop
  | .done frame rest faults, m' => m.Came limit lead stop (.done frame) rest faults m'
  | .failed fault faults, m' =>
      m.Came limit lead stop (.failed (.ofFault limit stop.span fault)) fault.rest faults m'

namespace Machine

variable {limit : Nat} {tokens lead rest rest' : List Token} {stop : Token}
  {m m₁ m₂ : Machine} {c c₁ : Control} {faults more all : List Fault} {task : Task}

/-- A machine that stays where it is. -/
theorem Came.still {ts : List Token} (stands : Stands lead ts m.current) :
    m.Came limit lead stop c ts [] { m with control := c } :=
  ⟨rfl, rfl, stands, le_rfl, .inl rfl, by simp⟩

theorem Came.level (came : m₁.Came limit lead stop c₁ rest faults m₂)
    (deeper : m₁.tasks = task :: m.tasks) (quiet : inChain (task :: m.tasks) = false) :
    m₂.depth = m₁.depth :=
  came.depth.resolve_right (by simp [deeper, quiet])

/-- One form behind another. -/
theorem Came.trans (first : m.Came limit lead stop c₁ rest faults m₁)
    (level : m₁.depth = m.depth) (second : m₁.Came limit lead stop c rest' more m₂) :
    m.Came limit lead stop c rest' (faults ++ more) m₂ where
  control := second.control
  tasks := second.tasks.trans first.tasks
  stands := second.stands
  later := first.later.trans second.later
  depth := by rw [← level, ← first.tasks]; exact second.depth
  reported := by rw [second.reported, first.reported, List.map_append, List.append_assoc]

/-- A form begun with a task of its own, and the step that takes the task off again. -/
theorem Came.back (c : Control) (all : List Fault) (opens : m.step limit tokens = m₁)
    (deeper : m₁.tasks = task :: m.tasks)
    (same : m₁.current = m.current)
    (path : Path limit tokens (Above m₁.tasks) m₁ m₂)
    (came : m₁.Came limit lead stop c₁ rest faults m₂)
    (closes : m₂.step limit tokens =
      { m₂ with
        control := c, tasks := m.tasks, depth := m.depth
        reported := m.reported ++ all.map (.ofFault limit stop.span) }) :
    ∃ m₃, Path limit tokens m.Within m m₃ ∧ m.Came limit lead stop c rest all m₃ ∧
      m₃.depth = m.depth := by
  refine ⟨_, call opens deeper path came.tasks, ?_, by rw [closes]⟩
  rw [closes]
  exact ⟨rfl, rfl, came.stands, same ▸ came.later, .inl rfl, rfl⟩

/-- What the machine was about to do makes no difference. -/
theorem Follows.of_control {o : Outcome}
    (follows : Follows limit lead stop { m with control := c } o m₂) :
    m.Follows limit lead stop o m₂ := by
  cases o <;>
    exact ⟨follows.control, follows.tasks, follows.stands, follows.later, follows.depth,
      follows.reported⟩

/-- Behind one form the other goes on. -/
theorem Follows.andThen {frame : List Tree} {next : Reader}
    (first : m.Came limit lead stop c₁ rest faults m₁) (level : m₁.depth = m.depth)
    (second : m₁.Follows limit lead stop (next frame rest) m₂) :
    m.Follows limit lead stop ((Outcome.done frame rest faults).andThen next) m₂ := by
  cases read : next frame rest <;> rw [read] at second <;> simp only [Outcome.andThen, read] <;>
    exact first.trans level second

/-- A level more in the body of a chain. -/
theorem Follows.deeper {o : Outcome} (chain : inChain m.tasks)
    (follows : Follows limit lead stop { m with control := c, depth := m.depth + 1 } o m₂) :
    m.Follows limit lead stop o m₂ := by
  have deeper {c' : Control} {left : List Token} {faults : List Fault} (came : Came limit lead stop
      { m with control := c, depth := m.depth + 1 } c' left faults m₂) :
      m.Came limit lead stop c' left faults m₂ := by
    have level : m.depth + 1 ≤ m₂.depth := came.depth.elim Eq.ge And.right
    exact { came with depth := .inr ⟨chain, by omega⟩ }
  cases o with
  | done => exact deeper follows
  | failed => exact deeper follows

theorem Follows.tasks {o : Outcome} (follows : m.Follows limit lead stop o m₂) :
    m₂.tasks = m.tasks := by
  cases o <;> exact Came.tasks follows

theorem Follows.level {o : Outcome} (follows : m₁.Follows limit lead stop o m₂)
    (deeper : m₁.tasks = task :: m.tasks) (quiet : inChain (task :: m.tasks) = false) :
    m₂.depth = m₁.depth := by
  cases o <;> exact Came.level follows deeper quiet

/-- Behind an entry the level it took is given back. -/
theorem Follows.giveBack {o : Outcome} {f : Form} {frame : List Tree}
    (reading : m.control = .reading f frame)
    (opens : m.step limit tokens = m₁) (deeper : m₁.tasks = task :: m.tasks)
    (current : m₁.current = m.current) (reported : m₁.reported = m.reported)
    (path : Path limit tokens (Above m₁.tasks) m₁ m₂)
    (follows : m₁.Follows limit lead stop o m₂)
    (resumes : ∀ frame, m₂.control = .done frame →
      m₂.step limit tokens = { m₂ with tasks := m.tasks, depth := m.depth })
    (unwinds : ∀ why, m₂.control = .failed why →
      m₂.step limit tokens = { m₂ with tasks := m.tasks, depth := m.depth }) :
    ∃ m₃, Path limit tokens (Above m.tasks) m m₃ ∧ m.Follows limit lead stop o m₃ := by
  cases o with
  | done frame rest faults =>
      obtain ⟨m₃, whole, came, -⟩ := Came.back (.done frame) faults opens deeper current path
        follows
        (by rw [resumes frame follows.control, ← reported, ← follows.reported, ← follows.control])
      exact ⟨m₃, within_above reading whole, came⟩
  | failed fault faults =>
      obtain ⟨m₃, whole, came, -⟩ := Came.back (.failed (.ofFault limit stop.span fault)) faults
        opens deeper current path follows
        (by rw [unwinds _ follows.control, ← reported, ← follows.reported, ← follows.control])
      exact ⟨m₃, within_above reading whole, came⟩

end Machine

/-- A machine that begins to read `f` in `frame` with `ts` left and `n` levels left comes to what
reading comes to, and all the while the tasks that it began with are there. -/
def Simulated (limit : Nat) (tokens lead : List Token) (stop : Token) (n : Nat) (f : Form)
    (frame : List Tree) (ts : List Token) : Prop :=
  ∀ m : Machine, m.control = .reading f frame → Stands lead ts m.current → n + m.depth = limit →
    ∃ m', Path limit tokens (Machine.Above m.tasks) m m' ∧
      m.Follows limit lead stop (f.readAt n frame ts) m'

namespace Machine

variable {limit n : Nat} {tokens lead ts : List Token} {stop : Token} {m : Machine} {f : Form}
  {frame : List Tree}

theorem step_reading (limit : Nat) (tokens : List Token) (reading : m.control = .reading f frame) :
    m.step limit tokens = m.start limit tokens frame f := by
  rw [step, reading]

/-- One step that ends a form at once. -/
theorem Simulated.atOnce {m' : Machine} (reading : m.control = .reading f frame)
    (steps : m.start limit tokens frame f = m')
    (follows : m.Follows limit lead stop (f.readAt n frame ts) m') :
    ∃ m', Path limit tokens (Above m.tasks) m m' ∧
      m.Follows limit lead stop (f.readAt n frame ts) m' := by
  refine ⟨m.step limit tokens, .step (above_of_reading reading), ?_⟩
  rwa [step_reading limit tokens reading, steps]

end Machine

/-! ### Forms that are put together -/

namespace Simulated

variable {limit n : Nat} {tokens lead ts : List Token} {stop : Token} {frame outer : List Tree}

theorem seq_failed {first second : Form} {m : Machine} {fault : Fault} {faults : List Fault}
    (ih : Simulated limit tokens lead stop n first frame ts)
    (reading : m.control = .reading (.seq first second) frame)
    (stands : Stands lead ts m.current) (levels : n + m.depth = limit)
    (read : first.readAt n frame ts = .failed fault faults) :
    ∃ m₃, Path limit tokens m.Within m m₃ ∧
      m.Came limit lead stop (.failed (.ofFault limit stop.span fault)) fault.rest faults m₃ := by
  obtain ⟨m₂, path, follows⟩ := ih
    { m with control := .reading first frame, tasks := .next second :: m.tasks } rfl stands levels
  have opens := Machine.step_reading limit tokens reading
  rw [read] at follows
  obtain ⟨m₃, whole, came, -⟩ := Machine.Came.back
    (.failed (.ofFault limit stop.span fault)) faults opens rfl rfl path follows
    (by simp [Machine.step, Machine.unwind, follows.control, follows.tasks,
      follows.reported, follows.level rfl rfl])
  exact ⟨m₃, whole, came⟩

theorem seq_done {first second : Form} {m : Machine} {frame' : List Tree} {rest : List Token}
    {faults : List Fault} (ih : Simulated limit tokens lead stop n first frame ts)
    (reading : m.control = .reading (.seq first second) frame)
    (stands : Stands lead ts m.current) (levels : n + m.depth = limit)
    (read : first.readAt n frame ts = .done frame' rest faults) :
    ∃ m₃, Path limit tokens m.Within m m₃ ∧
      m.Came limit lead stop (.reading second frame') rest faults m₃ ∧ m₃.depth = m.depth := by
  obtain ⟨m₂, path, follows⟩ := ih
    { m with control := .reading first frame, tasks := .next second :: m.tasks } rfl stands levels
  have opens := Machine.step_reading limit tokens reading
  rw [read] at follows
  exact Machine.Came.back (.reading second frame') faults opens rfl rfl path follows
    (by simp [Machine.step, Machine.resume, follows.control, follows.tasks,
      follows.reported, follows.level rfl rfl])

theorem seq {first second : Form}
    (ihFirst : Simulated limit tokens lead stop n first frame ts)
    (ihSecond : ∀ frame' rest reported, first.readAt n frame ts = .done frame' rest reported →
      Simulated limit tokens lead stop n second frame' rest) :
    Simulated limit tokens lead stop n (.seq first second) frame ts := by
  intro m reading stands levels
  rw [Form.readAt_seq]
  cases read : first.readAt n frame ts with
  | failed fault faults =>
      obtain ⟨m₃, whole, came⟩ := seq_failed ihFirst reading stands levels read
      exact ⟨m₃, Machine.within_above reading whole, came⟩
  | done frame' rest faults =>
      obtain ⟨m₃, whole, came, level⟩ := seq_done ihFirst reading stands levels read
      obtain ⟨m₄, later, behind⟩ := ihSecond frame' rest faults read m₃ came.control came.stands
        (by rw [level, levels])
      rw [came.tasks] at later
      exact ⟨m₄, (Machine.within_above reading whole).trans later, behind.andThen came level⟩

/-- A form that becomes another one in one step. -/
theorem unfold {f g : Form} (steps : ∀ m : Machine, m.start limit tokens frame f =
      { m with control := .reading g frame })
    (same : f.readAt n frame ts = g.readAt n frame ts)
    (ih : Simulated limit tokens lead stop n g frame ts) :
    Simulated limit tokens lead stop n f frame ts := by
  intro m reading stands levels
  have opens := Machine.step_reading limit tokens reading
  rw [steps] at opens
  obtain ⟨m', path, follows⟩ := ih { m with control := .reading g frame } rfl stands levels
  exact ⟨m', .go (Machine.above_of_reading reading) (opens ▸ path),
    same ▸ follows.of_control⟩

theorem framed {body : Form} (ih : Simulated limit tokens lead stop n body [] ts) :
    Simulated limit tokens lead stop n (.frame body) outer ts := by
  intro m reading stands levels
  obtain ⟨m₂, path, follows⟩ := ih
    { m with control := .reading body [], tasks := .add outer :: m.tasks } rfl stands levels
  have opens := Machine.step_reading limit tokens reading
  rw [Form.readAt_frame]
  cases read : body.readAt n [] ts with
  | failed fault faults =>
      rw [read] at follows
      obtain ⟨m₃, whole, came, -⟩ := Machine.Came.back
        (.failed (.ofFault limit stop.span fault)) faults opens rfl rfl path follows
        (by simp [Machine.step, Machine.unwind, follows.control, follows.tasks,
          follows.reported, follows.level rfl rfl])
      exact ⟨m₃, Machine.within_above reading whole, came⟩
  | done inner rest faults =>
      rw [read] at follows
      obtain ⟨m₃, whole, came, -⟩ := Machine.Came.back (.done (outer ++ inner)) faults
        opens rfl rfl path follows
        (by simp [Machine.step, Machine.resume, follows.control, follows.tasks,
          follows.reported, follows.level rfl rfl])
      exact ⟨m₃, Machine.within_above reading whole, came⟩

theorem recover {body skip : Form} (ihBody : Simulated limit tokens lead stop n body frame ts)
    (ihSkip : ∀ fault reported, body.readAt n frame ts = .failed fault reported →
      Simulated limit tokens lead stop n skip frame fault.rest) :
    Simulated limit tokens lead stop n (.recover body skip) frame ts := by
  intro m reading stands levels
  obtain ⟨m₂, path, follows⟩ := ihBody
    { m with control := .reading body frame, tasks := .rescue frame skip :: m.tasks }
    rfl stands levels
  have opens := Machine.step_reading limit tokens reading
  rw [Form.readAt_recover]
  cases read : body.readAt n frame ts with
  | done frame' rest faults =>
      rw [read] at follows
      obtain ⟨m₃, whole, came, -⟩ := Machine.Came.back (.done frame') faults
        opens rfl rfl path follows
        (by simp [Machine.step, Machine.resume, follows.control, follows.tasks,
          follows.reported, follows.level rfl rfl])
      exact ⟨m₃, Machine.within_above reading whole, came⟩
  | failed fault faults =>
      rw [read] at follows
      obtain ⟨m₃, whole, came, level⟩ := Machine.Came.back (.reading skip frame)
        (faults ++ [fault]) opens rfl rfl path follows
        (by simp [Machine.step, Machine.unwind, follows.control, follows.tasks,
          follows.reported, follows.level rfl rfl])
      obtain ⟨m₄, later, behind⟩ := ihSkip fault faults read m₃ came.control came.stands
        (by rw [level, levels])
      rw [came.tasks] at later
      refine ⟨m₄, (Machine.within_above reading whole).trans later, ?_⟩
      have both : m.Follows limit lead stop ((Outcome.done frame fault.rest
          (faults ++ [fault])).andThen (skip.readAt n)) m₄ := behind.andThen came level
      simp only [Outcome.orElse]
      cases skipped : skip.readAt n frame fault.rest <;>
        simpa [Outcome.andThen, skipped] using both

/-- An entry takes a level and gives it back, be it by itself or with the chain it is in. -/
theorem enter {entry : Entry} (ih : Simulated limit tokens lead stop n entry.form frame ts) :
    Simulated limit tokens lead stop (n + 1) (.enter entry) frame ts := by
  intro m reading stands levels
  have room : m.depth < limit := by omega
  have opens : m.step limit tokens =
      { m with
        control := .reading entry.form frame, tasks := m.owing entry, depth := m.depth + 1 } := by
    rw [Machine.step_reading limit tokens reading, Machine.start, if_pos room]
  obtain ⟨m₂, path, follows⟩ := ih
    { m with
      control := .reading entry.form frame, tasks := m.owing entry, depth := m.depth + 1 }
    rfl stands (by simp only; omega)
  rw [Form.readAt_enter_succ]
  by_cases link : entry.isLink
  · by_cases chain : inChain m.tasks
    · have owing : m.owing entry = m.tasks := by simp [Machine.owing, link, chain]
      simp only [owing] at opens path follows
      exact ⟨m₂, .go (Machine.above_of_reading reading) (opens ▸ path), follows.deeper chain⟩
    · have owing : m.owing entry = .restore m.depth :: m.tasks := by
        simp [Machine.owing, link, chain]
      simp only [owing] at opens path follows
      exact Machine.Follows.giveBack reading opens rfl rfl rfl path follows
        (fun _ came => by simp [Machine.step, came, Machine.resume, follows.tasks])
        (fun _ came => by simp [Machine.step, came, Machine.unwind, follows.tasks])
  · have owing : m.owing entry = .leave :: m.tasks := by simp [Machine.owing, link]
    simp only [owing] at opens path follows
    have level := follows.level rfl rfl
    exact Machine.Follows.giveBack reading opens rfl rfl rfl path follows
      (fun _ came => by simp [Machine.step, came, Machine.resume, follows.tasks, level])
      (fun _ came => by simp [Machine.step, came, Machine.unwind, follows.tasks, level])

end Simulated

/-! ### Tokens and choices -/

section

variable {limit : Nat} {tokens lead : List Token} {stop : Token}
  (input : FirstEnd tokens lead stop)

include input

theorem Machine.peek_eq {m : Machine} {ts : List Token} (stands : Stands lead ts m.current)
    (use : Token → Machine) : m.peek tokens use = use (upcoming stop ts) := by
  rw [Machine.peek, input.next stands]

theorem Simulated.fail {n : Nat} {f : Form} {frame : List Tree} {ts : List Token} {m : Machine}
    (cause : Cause) (reading : m.control = .reading f frame) (stands : Stands lead ts m.current)
    (steps : m.start limit tokens frame f = m.fail limit tokens cause)
    (read : f.readAt n frame ts = .failed ⟨cause, ts⟩ []) :
    ∃ m', Path limit tokens (Machine.Above m.tasks) m m' ∧
      m.Follows limit lead stop (f.readAt n frame ts) m' := by
  refine Machine.Simulated.atOnce reading (steps.trans (Machine.peek_eq input stands _)) ?_
  rw [read, input.atToken_upcoming stands]
  exact .still stands

theorem Simulated.accept {n : Nat} {f : Form} {frame : List Tree} {ts : List Token} {m : Machine}
    {test : Token → Option Cause} {atEnd : Cause} (reading : m.control = .reading f frame)
    (stands : Stands lead ts m.current)
    (steps : m.start limit tokens frame f = m.accept limit tokens frame test atEnd)
    (read : f.readAt n frame ts = Reader.ofToken test atEnd frame ts) :
    ∃ m', Path limit tokens (Machine.Above m.tasks) m m' ∧
      m.Follows limit lead stop (f.readAt n frame ts) m' := by
  refine Machine.Simulated.atOnce reading (steps.trans (Machine.peek_eq input stands _)) ?_
  rw [read, Reader.ofToken, input.leadingTrivia_drop stands, input.nextIndex_eq stands]
  simp only [input.atToken_upcoming stands]
  cases first : afterTrivia ts with
  | nil =>
      have ended : (upcoming stop ts).kind = .eof := by simp [upcoming, first, input.isEnd]
      rw [if_pos ended]
      exact .still stands
  | cons t rest =>
      have is : upcoming stop ts = t := by simp [upcoming, first]
      have plain : t.kind ≠ .eof := by
        obtain ⟨before, split, -⟩ := stands
        refine input.plain t ?_
        rw [← split, ← leadingTrivia_append_afterTrivia ts, first]
        simp
      rw [is, if_neg plain]
      cases passes : test t with
      | some cause =>
          simp only [passes]
          exact .still stands
      | none =>
          simp only [passes]
          exact ⟨rfl, rfl, stands.pass first, by simp; omega, .inl rfl, by simp⟩

namespace Simulated

variable {n : Nat} {frame : List Tree} {ts : List Token}

/-- A look ahead comes back to where it began, with the same diagnostics and levels. -/
theorem decided {look yes no : Form} {admits : TokenKind → Bool}
    (ihLook : Simulated limit tokens lead stop n look [] ts) {m : Machine}
    (reading : m.control = .reading (.choose look admits yes no) frame)
    (stands : Stands lead ts m.current) (levels : n + m.depth = limit) :
    Path limit tokens m.Within m
      { m with
        control := .reading
          (if (look.readAt n [] ts).leadsTo admits then yes else no) frame } := by
  obtain ⟨m₂, path, follows⟩ := ihLook
    { m with
      control := .reading look []
      tasks := .decide m.current m.reported.length frame admits yes no :: m.tasks }
    rfl stands levels
  have opens := Machine.step_reading limit tokens reading
  cases read : look.readAt n [] ts with
  | failed fault faults =>
      rw [read] at follows
      have whole := Machine.call opens rfl path follows.tasks
      simpa [Machine.step, Machine.unwind, follows.control, follows.tasks, follows.reported,
        follows.level rfl rfl, Outcome.leadsTo] using whole
  | done frame' rest faults =>
      rw [read] at follows
      have whole := Machine.call opens rfl path follows.tasks
      rw [Outcome.leadsTo, ← input.upcoming_kind rest]
      simpa [Machine.step, Machine.resume, follows.control, follows.tasks, follows.reported,
        follows.level rfl rfl, Machine.peek_eq input follows.stands] using whole

theorem choose {look yes no : Form} {admits : TokenKind → Bool}
    (ihLook : Simulated limit tokens lead stop n look [] ts)
    (ihYes : (look.readAt n [] ts).leadsTo admits = true →
      Simulated limit tokens lead stop n yes frame ts)
    (ihNo : (look.readAt n [] ts).leadsTo admits = false →
      Simulated limit tokens lead stop n no frame ts) :
    Simulated limit tokens lead stop n (.choose look admits yes no) frame ts := by
  intro m reading stands levels
  have back := Machine.within_above reading (decided input ihLook reading stands levels)
  rw [Form.readAt_choose]
  cases answer : (look.readAt n [] ts).leadsTo admits with
  | true =>
      rw [if_pos answer] at back
      obtain ⟨m', later, follows⟩ := ihYes answer { m with control := _ } rfl stands levels
      exact ⟨m', back.trans later, follows.of_control⟩
  | false =>
      rw [if_neg (by simp [answer])] at back
      obtain ⟨m', later, follows⟩ := ihNo answer { m with control := _ } rfl stands levels
      exact ⟨m', back.trans later, follows.of_control⟩

theorem simulated_inductive : Form.Inductive (Simulated limit tokens lead stop) where
  empty n frame ts m reading stands _ :=
    Machine.Simulated.atOnce reading rfl (.still stands)
  trivia n frame ts m reading stands _ := by
    have steps : m.start limit tokens frame .trivia =
        { m with
          control := .done (frame ++ (leadingTrivia ts).map Tree.leaf)
          current := m.current + (leadingTrivia ts).length } := by
      rw [Machine.start, input.leadingTrivia_drop stands, input.nextIndex_eq stands]
    exact Machine.Simulated.atOnce reading steps
      ⟨rfl, rfl, stands.flush, by simp, .inl rfl, by simp⟩
  token n admits expected frame ts m reading stands _ := accept input reading stands rfl rfl
  string n expected frame ts m reading stands _ := accept input reading stands rfl rfl
  refuse n expected frame ts m reading stands _ := fail input _ reading stands rfl rfl
  close n rule frame ts m reading stands _ :=
    Machine.Simulated.atOnce reading rfl (.still stands)
  seq n first second frame ts ihFirst ihSecond := seq ihFirst ihSecond
  frame n body outer ts ih := framed ih
  choose n look admits yes no frame ts ihLook ihYes ihNo := choose input ihLook ihYes ihNo
  stop n look admits body frame ts productive ihLook stopped := by
    refine unfold (fun _ => rfl) (Form.readAt_repeated productive n frame ts)
      (choose input ihLook (by simp [stopped]) fun _ m reading stands _ => ?_)
    exact Machine.Simulated.atOnce reading rfl (.still stands)
  round n look admits body frame ts productive ihLook looked ihBody ihRest := by
    refine unfold (fun _ => rfl) (Form.readAt_repeated productive n frame ts)
      (choose input ihLook (fun _ => seq ihBody ihRest) (by simp [looked]))
  tooDeep entry frame ts m reading stands levels := by
    have full : ¬ m.depth < limit := by omega
    exact fail input .tooDeep reading stands (if_neg full) rfl
  enter n entry frame ts ih := enter ih
  recover n body skip frame ts ihBody ihSkip := recover ihBody ihSkip

end Simulated

/-- **The machine reads what the forms read.** -/
theorem Form.readAt_simulated {f : Form} (productive : f.productive) (n : Nat) (frame : List Tree)
    (ts : List Token) : Simulated limit tokens lead stop n f frame ts :=
  Form.readAt_induct (Simulated.simulated_inductive input) n productive frame ts

end

end QuestScript.Grammar
