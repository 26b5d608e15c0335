/-
# QuestScript.Proofs.Processes -- reading a process again

A process that was read without a report, up to its closing brace, is read the same way
from any tokens that say as much, whatever stood behind the brace before and whatever the
trivia is (`Form.process_again`).  Its statements are: they agree up to the brace.  And the
brace is the first thing that could not be read otherwise, for no look ahead in the
statements goes past it.

A script that begins with a process has the process as its first part
(`Form.script_first`), and is nothing else if nothing stands behind it
(`Form.script_of_process`).
-/
import QuestScript.Proofs.Agreement
import QuestScript.Proofs.Items

namespace QuestScript.Grammar

open QuestScript.Tree (bareAll bareAll_append bareAll_nil leaf ofRule)

set_option autoImplicit false

namespace Form

variable {n : Nat} {frame frame' outer : List Tree} {ts us rest : List Token}

/-! ## Reading without a report -/

theorem andThen_clean {o : Outcome} {next : Reader} :
    o.andThen next = .done frame rest [] ↔
      ∃ middle between, o = .done middle between [] ∧ next middle between = .done frame rest [] := by
  rw [Outcome.andThen_eq_done]
  constructor
  · rintro ⟨middle, between, one, two, read₁, read₂, quiet⟩
    obtain ⟨rfl, rfl⟩ := List.append_eq_nil_iff.mp quiet
    exact ⟨middle, between, read₁, read₂⟩
  · rintro ⟨middle, between, read₁, read₂⟩
    exact ⟨middle, between, [], [], read₁, read₂, rfl⟩

theorem seq_clean {first second : Form} :
    (first >> second).readAt n frame ts = .done frame' rest [] ↔
      ∃ middle between, first.readAt n frame ts = .done middle between [] ∧
        second.readAt n middle between = .done frame' rest [] := andThen_clean

/-- Where nothing is reported, nothing was skipped. -/
theorem recover_clean {body skip : Form} :
    (recover body skip).readAt n frame ts = .done frame' rest [] ↔
      body.readAt n frame ts = .done frame' rest [] := by
  rw [readAt_recover, Outcome.orElse_eq_done, or_iff_left]
  rintro ⟨fault, one, two, -, -, reported⟩
  simp at reported

theorem trivia_clean : Form.trivia.readAt n frame ts = .done frame' rest [] ↔
    frame' = frame ++ (leadingTrivia ts).map leaf ∧ rest = afterTrivia ts := by
  rw [readAt_trivia, Outcome.done.injEq]
  simp [eq_comm]

theorem token_clean {admits : TokenKind → Bool} {expected : String} :
    (token admits expected).readAt n frame ts = .done frame' rest [] ↔
      ∃ t, afterTrivia ts = t :: rest ∧ admits t.kind ∧
        frame' = frame ++ (leadingTrivia ts ++ [t]).map leaf := by
  rw [readAt, read, Reader.ofToken]
  cases next : afterTrivia ts with
  | nil => simp
  | cons t more =>
      by_cases admitted : admits t.kind
      · simp only [admitted, if_true, Outcome.done.injEq, List.cons.injEq, List.map_append,
          List.map_cons, List.map_nil, List.append_assoc]
        constructor
        · rintro ⟨rfl, rfl, -⟩
          exact ⟨t, ⟨rfl, rfl⟩, admitted, rfl⟩
        · rintro ⟨_, ⟨rfl, rfl⟩, -, rfl⟩
          exact ⟨rfl, rfl, trivial⟩
      · simp only [admitted, Bool.false_eq_true, if_false, reduceCtorEq, false_iff]
        rintro ⟨_, same, admitted', -⟩
        obtain ⟨rfl, -⟩ := List.cons.inj same
        exact admitted admitted'

theorem one_clean {kind : TokenKind} :
    (one kind).readAt n frame ts = .done frame' rest [] ↔
      ∃ t, afterTrivia ts = t :: rest ∧ t.kind = kind ∧
        frame' = frame ++ (leadingTrivia ts ++ [t]).map leaf := by
  rw [one, token_clean]
  simp

theorem node_clean {rule : Rule} {body : Form} :
    (node rule body).readAt n outer ts = .done frame' rest [] ↔
      ∃ inner, body.readAt n [] ts = .done inner rest [] ∧ frame' = outer ++ [ofRule rule inner] := by
  rw [node, readAt_frame, Outcome.into_eq_done]
  constructor
  · rintro ⟨inner, done, rfl⟩
    obtain ⟨parts, between, read, closed⟩ := seq_clean.mp done
    cases closed
    exact ⟨parts, read, rfl⟩
  · rintro ⟨parts, read, rfl⟩
    exact ⟨[ofRule rule parts], seq_clean.mpr ⟨parts, rest, read, rfl⟩, rfl⟩

/-- Reading a block: a brace, statements, and a brace. -/
theorem block_clean : block.readAt n outer ts = .done frame rest [] ↔
    ∃ opening behind inner before closing,
      afterTrivia ts = opening :: behind ∧ opening.kind = .lBrace ∧
      statements.readAt n ((leadingTrivia ts ++ [opening]).map leaf ++
        (leadingTrivia behind).map leaf) (afterTrivia behind) = .done inner before [] ∧
      afterTrivia before = closing :: rest ∧ closing.kind = .rBrace ∧
      frame = outer ++ [ofRule .block (inner ++ (leadingTrivia before ++ [closing]).map leaf)] := by
  constructor
  · intro done
    obtain ⟨_, body, rfl⟩ := node_clean.mp done
    obtain ⟨_, behind, first, body⟩ := seq_clean.mp body
    obtain ⟨_, _, gap, body⟩ := seq_clean.mp body
    obtain ⟨inner, before, read, behindLast⟩ := seq_clean.mp body
    obtain ⟨opening, next, opens, rfl⟩ := one_clean.mp first
    obtain ⟨rfl, rfl⟩ := trivia_clean.mp gap
    obtain ⟨closing, last, closes, rfl⟩ := one_clean.mp behindLast
    exact ⟨opening, behind, inner, before, closing, next, opens, read, last, closes, rfl⟩
  · rintro ⟨opening, behind, inner, before, closing, next, opens, read, last, closes, rfl⟩
    refine node_clean.mpr ⟨_, ?_, rfl⟩
    refine seq_clean.mpr ⟨_, behind, one_clean.mpr ⟨opening, next, opens, rfl⟩, ?_⟩
    refine seq_clean.mpr ⟨_, _, trivia_clean.mpr ⟨rfl, rfl⟩, ?_⟩
    exact seq_clean.mpr ⟨inner, before, read, one_clean.mpr ⟨closing, last, closes, rfl⟩⟩

/-- Reading a process: its keyword, its name and its block. -/
theorem process_clean : process.readAt n outer ts = .done frame rest [] ↔
    ∃ keyword behind name next inner,
      afterTrivia ts = keyword :: behind ∧ keyword.kind = .kwProcess ∧
      afterTrivia behind = name :: next ∧ name.kind = .identifier ∧
      block.readAt n ((leadingTrivia ts ++ [keyword]).map leaf ++
        (leadingTrivia behind ++ [name]).map leaf ++ (leadingTrivia next).map leaf)
          (afterTrivia next) = .done inner rest [] ∧
      frame = outer ++ [ofRule .processDecl inner] := by
  have named {front back : List Tree} {behind next : List Token} :
      itemName.readAt n front behind = .done back next [] ↔
        ∃ t, afterTrivia behind = t :: next ∧ t.kind = .identifier ∧
          back = front ++ (leadingTrivia behind ++ [t]).map leaf := by
    rw [itemName, token_clean]
    simp
  constructor
  · intro done
    obtain ⟨inner, body, rfl⟩ := node_clean.mp done
    obtain ⟨_, behind, first, body⟩ := seq_clean.mp body
    obtain ⟨_, next, second, body⟩ := seq_clean.mp body
    obtain ⟨_, _, gap, read⟩ := seq_clean.mp body
    obtain ⟨keyword, start, isKeyword, rfl⟩ := one_clean.mp first
    obtain ⟨name, rest, isName, rfl⟩ := named.mp second
    obtain ⟨rfl, rfl⟩ := trivia_clean.mp gap
    exact ⟨keyword, behind, name, next, inner, start, isKeyword, rest, isName, read, rfl⟩
  · rintro ⟨keyword, behind, name, next, inner, start, isKeyword, rest, isName, read, rfl⟩
    refine node_clean.mpr ⟨inner, ?_, rfl⟩
    refine seq_clean.mpr ⟨_, behind, one_clean.mpr ⟨keyword, start, isKeyword, rfl⟩, ?_⟩
    refine seq_clean.mpr ⟨_, next, named.mpr ⟨name, rest, isName, rfl⟩, ?_⟩
    exact seq_clean.mpr ⟨_, _, trivia_clean.mpr ⟨rfl, rfl⟩, read⟩

theorem nextKind_of_process (done : process.readAt n outer ts = .done frame rest []) :
    nextKind ts = .kwProcess := by
  obtain ⟨keyword, _, _, _, _, start, isKeyword, -⟩ := process_clean.mp done
  exact (nextKind_of_afterTrivia start).trans isKeyword

/-! ## Reading again -/

/-- What is left of the bare frame of a token read with the trivia before it. -/
theorem bareAll_taken {t : Token} (next : afterTrivia ts = t :: rest) :
    bareAll ((leadingTrivia ts ++ [t]).map leaf) =
      [⟨.token t.lexeme.kind, .zero, [], some t.lexeme.text⟩] := by
  rw [List.map_append, bareAll_append, bareAll_leadingTrivia, List.nil_append]
  exact Tree.bareAll_leaf (isTrivia_of_afterTrivia next)

/-- What a form took of the tokens, as they say it. -/
theorem wording_taken {f : Form} (productive : f.productive)
    (read : f.readAt n frame ts = .done frame' rest []) :
    ∃ taken, wording ts = taken ++ wording rest := by
  have suffix := readAt_suffix productive n frame ts
  rw [read] at suffix
  obtain ⟨taken, whole⟩ := wording_suffix suffix
  exact ⟨taken, whole.symm⟩

/-- A block is read again from tokens that say what was read for it, and no more. -/
theorem block_again (done : block.readAt n outer ts = .done frame rest [])
    (same : wording ts = wording us ++ wording rest) {outer' : List Tree}
    (bare : bareAll outer = bareAll outer') :
    ∃ frame' rest', block.readAt n outer' us = .done frame' rest' [] ∧ wording rest' = [] ∧
      bareAll frame = bareAll frame' := by
  obtain ⟨opening, behind, inner, before, closing, next, opens, read, last, closes, rfl⟩ :=
    block_clean.mp done
  obtain ⟨taken, whole⟩ := wording_taken (by decide) read
  have left := wording_of_afterTrivia last
  have words : wording us = opening.lexeme :: (taken ++ [closing.lexeme]) := by
    rw [wording_of_afterTrivia next, ← wording_afterTrivia behind, whole, left] at same
    exact (List.append_cancel_right (by simpa using same)).symm
  obtain ⟨opening', behind', next', isOpening, words⟩ := afterTrivia_of_wording words
  have agree : Agree (closing.lexeme :: wording rest) [closing.lexeme] (afterTrivia behind)
      (afterTrivia behind') := ⟨taken, by rw [whole, left], by rw [wording_afterTrivia, words]⟩
  have fence : Fence (closing.lexeme :: wording rest) [closing.lexeme] :=
    .inr ⟨closing.lexeme, wording rest, [], rfl, rfl, closes⟩
  have begun : bareAll ((leadingTrivia ts ++ [opening]).map leaf ++
      (leadingTrivia behind).map leaf) =
        bareAll ((leadingTrivia us ++ [opening']).map leaf ++ (leadingTrivia behind').map leaf) := by
    rw [bareAll_append, bareAll_append, bareAll_taken next, bareAll_taken next', isOpening,
      bareAll_leadingTrivia, bareAll_leadingTrivia]
  have reached : closing.lexeme :: wording rest <:+ wording before := ⟨[], left.symm⟩
  have agrees := readAt_agrees (by decide : statements.productive) (by decide) fence n begun agree
    (by rw [read]; exact reached)
  rw [read] at agrees
  cases again : statements.readAt n ((leadingTrivia us ++ [opening']).map leaf ++
      (leadingTrivia behind').map leaf) (afterTrivia behind') with
  | failed fault reported => rw [again] at agrees; exact agrees.elim
  | done inner' before' reported =>
      rw [again] at agrees
      obtain ⟨built, ⟨common, ends, ends'⟩, reports⟩ := agrees
      obtain rfl : common = [] := by simpa [left] using congrArg List.length ends
      obtain rfl : reported = [] := by simpa using reports.symm
      obtain ⟨closing', rest', last', isClosing, ended⟩ := afterTrivia_of_wording ends'
      have closes' : closing'.kind = .rBrace := (congrArg Lexeme.kind isClosing).trans closes
      have opens' : opening'.kind = .lBrace := (congrArg Lexeme.kind isOpening).trans opens
      refine ⟨_, rest', block_clean.mpr ⟨opening', behind', inner', before', closing', next',
        opens', again, last', closes', rfl⟩, ended, ?_⟩
      rw [bareAll_append, bareAll_append, bare, Tree.bareAll_ofRule, Tree.bareAll_ofRule,
        bareAll_append, bareAll_append, built, bareAll_taken last, bareAll_taken last', isClosing]

/-- **A process is read again** from tokens that say what was read for it, and no more. -/
theorem process_again (done : process.readAt n outer ts = .done frame rest [])
    (same : wording ts = wording us ++ wording rest) {outer' : List Tree}
    (bare : bareAll outer = bareAll outer') :
    ∃ frame' rest', process.readAt n outer' us = .done frame' rest' [] ∧ wording rest' = [] ∧
      bareAll frame = bareAll frame' := by
  obtain ⟨keyword, behind, name, next, inner, start, isKeyword, second, isName, read, rfl⟩ :=
    process_clean.mp done
  obtain ⟨taken, whole⟩ := wording_taken (by decide) read
  have words : wording us = keyword.lexeme :: name.lexeme :: taken := by
    rw [wording_of_afterTrivia start, wording_of_afterTrivia second, ← wording_afterTrivia next,
      whole] at same
    exact (List.append_cancel_right (by simpa using same)).symm
  obtain ⟨keyword', behind', start', sameKeyword, words⟩ := afterTrivia_of_wording words
  obtain ⟨name', next', second', sameName, words⟩ := afterTrivia_of_wording words
  have begun : bareAll ((leadingTrivia ts ++ [keyword]).map leaf ++
      (leadingTrivia behind ++ [name]).map leaf ++ (leadingTrivia next).map leaf) =
        bareAll ((leadingTrivia us ++ [keyword']).map leaf ++
          (leadingTrivia behind' ++ [name']).map leaf ++ (leadingTrivia next').map leaf) := by
    simp only [bareAll_append, bareAll_leadingTrivia, bareAll_taken start, bareAll_taken second,
      bareAll_taken start', bareAll_taken second', sameKeyword, sameName]
  have left : wording (afterTrivia next) = wording (afterTrivia next') ++ wording rest := by
    rw [whole, wording_afterTrivia, words]
  obtain ⟨inner', rest', again, ended, built⟩ := block_again read left begun
  have isKeyword' : keyword'.kind = .kwProcess :=
    (congrArg Lexeme.kind sameKeyword).trans isKeyword
  have isName' : name'.kind = .identifier := (congrArg Lexeme.kind sameName).trans isName
  refine ⟨_, rest', process_clean.mpr ⟨keyword', behind', name', next', inner', start', isKeyword',
    second', isName', again, rfl⟩, ended, ?_⟩
  rw [bareAll_append, bareAll_append, bare, Tree.bareAll_ofRule, Tree.bareAll_ofRule, built]

/-- What is read of a process is its keyword, its name and its block. -/
theorem process_parts (done : process.readAt n outer ts = .done frame rest []) :
    ∃ front parts, frame = outer ++ [ofRule .processDecl (front.map leaf ++ [ofRule .block parts])] ∧
      (wording front).length = 2 := by
  obtain ⟨keyword, behind, name, next, inner, start, isKeyword, second, isName, read, rfl⟩ :=
    process_clean.mp done
  obtain ⟨_, _, inner, before, closing, -, -, -, -, -, rfl⟩ := block_clean.mp read
  refine ⟨leadingTrivia ts ++ [keyword] ++ (leadingTrivia behind ++ [name]) ++ leadingTrivia next,
    inner ++ (leadingTrivia before ++ [closing]).map leaf, by simp only [List.map_append], ?_⟩
  have word {t : Token} {from' rest' : List Token} (next : afterTrivia from' = t :: rest') :
      significant [t] = [t] := by
    simp [significant, isTrivia_of_afterTrivia next]
  simp only [wording, significant_append, significant_leadingTrivia, word start, word second]
  rfl

/-! ## Scripts of a process -/

/-- Items that begin with a process are that process, trivia, and more items. -/
theorem items_clean (next : nextKind ts = .kwProcess) :
    items.readAt n frame ts = .done frame' rest [] ↔
      ∃ middle between, process.readAt n frame ts = .done middle between [] ∧
        items.readAt n (middle ++ (leadingTrivia between).map leaf) (afterTrivia between) =
          .done frame' rest [] := by
  have isProcess : item.readAt n frame ts = process.readAt n frame ts := by
    simp [item, ifNext, readAt_choose, Outcome.leadsTo, next]
  rw [items, whileNext, readAt_repeated (by decide), if_pos (by simp [Outcome.leadsTo, next]),
    andThen_clean]
  constructor
  · rintro ⟨_, _, round, later⟩
    obtain ⟨middle, between, read, gap⟩ := seq_clean.mp round
    obtain ⟨rfl, rfl⟩ := trivia_clean.mp gap
    exact ⟨middle, between, isProcess ▸ recover_clean.mp read, later⟩
  · rintro ⟨middle, between, read, later⟩
    refine ⟨_, _, seq_clean.mpr ⟨middle, between, recover_clean.mpr (isProcess ▸ read), ?_⟩, later⟩
    exact trivia_clean.mpr ⟨rfl, rfl⟩

/-- **A script that begins with a process** has it as its first part. -/
theorem script_first (done : script.readAt n [] ts = .done frame rest [])
    (next : nextKind ts = .kwProcess) :
    ∃ process' behind, process.readAt n ((leadingTrivia ts).map leaf) (afterTrivia ts) =
      .done process' behind [] ∧ process' <+: frame := by
  obtain ⟨_, _, gap, read⟩ := seq_clean.mp done
  obtain ⟨rfl, rfl⟩ := trivia_clean.mp gap
  obtain ⟨middle, between, first, later⟩ := (items_clean (by simpa using next)).mp read
  have grown := prefix_of_appends (by decide) (by decide) later
  exact ⟨middle, between, first, (List.prefix_append _ _).trans grown⟩

/-- **A process alone is a script.** -/
theorem script_of_process
    (done : process.readAt n ((leadingTrivia ts).map leaf) (afterTrivia ts) = .done frame rest [])
    (ended : wording rest = []) :
    script.readAt n [] ts = .done (frame ++ (leadingTrivia rest).map leaf) [] [] := by
  refine seq_clean.mpr ⟨_, _, trivia_clean.mpr ⟨rfl, rfl⟩, ?_⟩
  refine (items_clean (nextKind_of_process done)).mpr ⟨frame, rest, done, ?_⟩
  rw [afterTrivia_of_wording_nil ended, items, whileNext, readAt_repeated (by decide),
    if_neg (by simp [Outcome.leadsTo, nextKind])]

end Form

end QuestScript.Grammar

namespace QuestScript.Parsed

open QuestScript.Tree (leaf ofRule)

/-! ## The first process of a script -/

/-- The block of the first process in a script. -/
def firstBlock? (parsed : Parsed) : Option Tree :=
  (parsed.root.findRule? .processDecl).bind fun process => process.findRule? .block

theorem find?_leaves (tokens : List Token) {t : Tree} {rule : Rule} (label : t.label = .rule rule)
    (more : List Tree) :
    (tokens.map leaf ++ t :: more).find? (fun child => child.label = .rule rule) = some t := by
  rw [List.find?_append, List.find?_eq_none.mpr, Option.none_or, List.find?_cons_of_pos (by simpa)]
  intro child member
  obtain ⟨token, -, rfl⟩ := List.mem_map.mp member
  simp [leaf]

/-- The block of a process is found behind the leaves before it. -/
theorem firstBlock?_eq {p : Parsed} {lead front : List Token} {parts extra : List Tree}
    (children : p.root.children =
      lead.map leaf ++ ofRule .processDecl (front.map leaf ++ [ofRule .block parts]) :: extra) :
    p.firstBlock? = some (ofRule .block parts) := by
  rw [firstBlock?, Tree.findRule?, Tree.find?, children, find?_leaves _ rfl, Option.bind_some]
  exact find?_leaves front rfl []

end QuestScript.Parsed
