/-
# QuestScript.Proofs.ProcessBody -- a process and what stands in its braces

A script that is one process has three parts: `process`, a name and a brace (`OpensProcess`),
the body, and the brace that closes it (`Parsed.ClosesProcess`), each with trivia anywhere.  If
such a script is in order, the body was read as the lines of a block and the brace that ends
them is the closing one, since it is the last token that is no trivia (`AcceptsBody.read`).
And whatever the body is read as, with faults or without, the script is parsed as a process
with these lines (`ofTokens_of_lines`).
-/
import QuestScript.Proofs.Neighbours

namespace QuestScript

open QuestScript.Tree (leaf ofRule tokensAll)

set_option autoImplicit false

namespace Grammar

/-! ## The opening of a process -/

theorem afterTrivia_of_significant {ts more : List Token} {t : Token}
    (first : significant ts = t :: more) :
    ∃ rest, afterTrivia ts = t :: rest ∧ significant rest = more := by
  cases next : afterTrivia ts with
  | nil => rw [← significant_afterTrivia, next] at first; cases first
  | cons u rest =>
      rw [significant_of_afterTrivia next] at first
      obtain ⟨rfl, behind⟩ := List.cons.inj first
      exact ⟨rest, rfl, behind⟩

/-- The tokens say `process`, a name and an opening brace. -/
def OpensProcess (opening : List Token) : Prop :=
  (significant opening).map Token.kind = [.kwProcess, .identifier, .lBrace]

instance (opening : List Token) : Decidable (OpensProcess opening) :=
  inferInstanceAs (Decidable (_ = _))

/-- The opening of a process, token by token: `behind` is left behind the keyword, `next` behind
the name, and `gap` behind the brace. -/
structure Opening (opening : List Token) (keyword : Token) (behind : List Token) (name : Token)
    (next : List Token) (brace : Token) (gap : List Token) : Prop where
  first : afterTrivia opening = keyword :: behind
  isKeyword : keyword.kind = .kwProcess
  second : afterTrivia behind = name :: next
  isName : name.kind = .identifier
  third : afterTrivia next = brace :: gap
  opens : brace.kind = .lBrace
  none : afterTrivia gap = []

theorem OpensProcess.split {opening : List Token} (h : OpensProcess opening) :
    ∃ keyword behind name next brace gap, Opening opening keyword behind name next brace gap := by
  obtain ⟨keyword, more, significant₁, isKeyword, h⟩ := List.map_eq_cons_iff.mp h
  obtain ⟨behind, first, rfl⟩ := afterTrivia_of_significant significant₁
  obtain ⟨name, more, significant₂, isName, h⟩ := List.map_eq_cons_iff.mp h
  obtain ⟨next, second, rfl⟩ := afterTrivia_of_significant significant₂
  obtain ⟨brace, more, significant₃, opens, h⟩ := List.map_eq_cons_iff.mp h
  obtain ⟨gap, third, rfl⟩ := afterTrivia_of_significant significant₃
  exact ⟨keyword, behind, name, next, brace, gap, first, isKeyword, second, isName, third, opens,
    afterTrivia_eq_nil (List.map_eq_nil_iff.mp h)⟩

/-! ## From the body to the script -/

namespace Form

variable {n : Nat} {outer parts : List Tree} {us rest : List Token} {brace closing : Token}
  {reported : List Fault}

/-- A token is read where it stands. -/
theorem one_cons {t : Token} {kind : TokenKind} (is : t.kind = kind) (plain : kind.isTrivia = false)
    (frame : List Tree) (us : List Token) :
    (one kind).readAt n frame (t :: us) = .done (frame ++ [leaf t]) us [] := by
  have notTrivia : t.isTrivia = false := isTrivia_of_kind is plain
  exact one_clean.mpr ⟨t, afterTrivia_cons notTrivia us, is, by simp [leadingTrivia_cons notTrivia]⟩

theorem block_of_lines (opens : brace.kind = .lBrace) (closes : closing.kind = .rBrace)
    (read : lines.readAt n [leaf brace] us = .done parts (closing :: rest) reported) :
    block.readAt n outer (brace :: us) =
      .done (outer ++ [ofRule .block (parts ++ [leaf closing])]) rest reported := by
  have first : (one .lBrace).readAt n [] (brace :: us) = .done [leaf brace] us [] :=
    one_cons opens rfl [] us
  have last : (one .rBrace).readAt n parts (closing :: rest) =
      .done (parts ++ [leaf closing]) rest [] := one_cons closes rfl parts rest
  have body : (Form.trivia >> statements >> one .rBrace).readAt n [leaf brace] us =
      .done (parts ++ [leaf closing]) rest reported := by
    have split : (Form.trivia >> statements >> one .rBrace).readAt n [leaf brace] us =
        (lines.readAt n [leaf brace] us).andThen ((one .rBrace).readAt n) :=
      (Outcome.andThen_assoc (Form.trivia.readAt n [leaf brace] us) (statements.readAt n)
        ((one .rBrace).readAt n)).symm
    rw [split, read, Outcome.andThen, last]
    simp
  refine Outcome.into_eq_done.mpr ⟨[ofRule .block (parts ++ [leaf closing])], ?_, rfl⟩
  refine seq_done.mpr ⟨_, rest, reported, [], ?_, rfl, List.append_nil _⟩
  exact seq_done.mpr ⟨_, us, [], reported, first, body, rfl⟩

theorem process_of_block {keyword name : Token} {behind next : List Token}
    {inner : List Tree} (isKeyword : keyword.kind = .kwProcess)
    (second : afterTrivia behind = name :: next) (isName : name.kind = .identifier)
    (read : block.readAt n ((keyword :: (leadingTrivia behind ++ name :: leadingTrivia next)).map
      leaf) (afterTrivia next) = .done inner rest reported) :
    process.readAt n outer (keyword :: behind) =
      .done (outer ++ [ofRule .processDecl inner]) rest reported := by
  have first : (one .kwProcess).readAt n [] (keyword :: behind) = .done [leaf keyword] behind [] :=
    one_cons isKeyword rfl [] behind
  have named : itemName.readAt n [leaf keyword] behind =
      .done ([leaf keyword] ++ (leadingTrivia behind ++ [name]).map leaf) next [] :=
    token_clean.mpr ⟨name, second, by simp [isName], rfl⟩
  refine Outcome.into_eq_done.mpr ⟨[ofRule .processDecl inner], ?_, rfl⟩
  refine seq_done.mpr ⟨_, rest, reported, [], ?_, rfl, List.append_nil _⟩
  refine seq_done.mpr ⟨_, behind, [], reported, first, ?_, rfl⟩
  refine seq_done.mpr ⟨_, next, [], reported, named, ?_, rfl⟩
  exact seq_done.mpr ⟨_, _, [], reported, trivia_clean.mpr ⟨rfl, rfl⟩, by simpa using read, rfl⟩

/-- A script that is one process and trivia behind it. -/
theorem script_of_one {ts behind : List Token} {keyword : Token} {frame : List Tree}
    (first : afterTrivia ts = keyword :: behind) (isKeyword : keyword.kind = .kwProcess)
    (read : process.readAt n ((leadingTrivia ts).map leaf) (keyword :: behind) =
      .done frame rest reported) (none : afterTrivia rest = []) :
    script.readAt n [] ts = .done (frame ++ (leadingTrivia rest).map leaf) [] reported := by
  have next : nextKind ts = .kwProcess := (nextKind_of_afterTrivia first).trans isKeyword
  have isProcess : item.readAt n ((leadingTrivia ts).map leaf) (keyword :: behind) =
      .done frame rest reported := by
    rw [← read, ← first]
    simp [item, ifNext, readAt_choose, Outcome.leadsTo, next]
  have last : nextKind rest = .eof := by rw [← nextKind_afterTrivia, none]; rfl
  rw [script_round (by simp [next]), first, readAt_recover, List.nil_append, isProcess,
    Outcome.orElse, Outcome.andThen, script_end last, none]
  simp

/-- No trivia is left where lines come to their end. -/
theorem lines_flushed {frame frame' : List Tree} {ts rest : List Token}
    (done : lines.readAt n frame ts = .done frame' rest reported) : Flushed rest := by
  rw [readAt_lines] at done
  exact (repeated_done (by decide : statements.productive) (fun _ ts => Flushed ts)
    (fun _ _ _ _ _ _ _ round => by
      obtain ⟨_, between, _, _, _, last, -⟩ := seq_done.mp round
      cases last
      exact flushed_afterTrivia between) (flushed_afterTrivia ts) done).1

/-- A process in order is the tokens of its opening and the lines in its braces. -/
theorem lines_of_process {opening behind next gap more : List Token} {keyword name : Token}
    {frame : List Tree} (o : Opening opening keyword behind name next brace gap)
    (done : process.readAt n outer (keyword :: (behind ++ more)) = .done frame rest []) :
    ∃ (inner : List Tree) (closing : Token) (front : List Token),
      lines.readAt n [leaf brace] (gap ++ more) = .done inner (closing :: rest) [] ∧
      frame = outer ++ [ofRule .processDecl (front.map leaf ++
        [ofRule .block (inner ++ [leaf closing])])] := by
  obtain ⟨keyword', behind', name', next', _, start, -, named, -, block, rfl⟩ :=
    process_clean.mp done
  have plain : keyword.isTrivia = false := isTrivia_of_afterTrivia o.first
  rw [afterTrivia_cons plain] at start
  obtain ⟨rfl, rfl⟩ := List.cons.inj start
  rw [afterTrivia_append o.second] at named
  obtain ⟨rfl, rfl⟩ := List.cons.inj named
  obtain ⟨brace', gap', inner, before, closing, opened, -, read, last, -, rfl⟩ :=
    block_clean.mp block
  have third := afterTrivia_append o.third more
  rw [afterTrivia_afterTrivia, third] at opened
  obtain ⟨rfl, rfl⟩ := List.cons.inj opened
  rw [leadingTrivia_of_flushed (flushed_afterTrivia _), ← readAt_lines] at read
  have flushed : Flushed before := lines_flushed read
  obtain rfl : before = closing :: rest := flushed.symm.trans last
  exact ⟨inner, closing, leadingTrivia (keyword :: (behind ++ more)) ++ [keyword] ++
    (leadingTrivia (behind ++ more) ++ [name]) ++ leadingTrivia (next ++ more), read,
    by simp [leadingTrivia_of_flushed flushed]⟩

end Form

end Grammar

/-! ## Bodies -/

namespace Parsed

open Grammar

/-- The statements in the body of the first process. -/
def bodyStatements (p : Parsed) : List Tree :=
  match p.firstBlock? with
  | some block => block.children.filter fun child => child.label.isStatement
  | none => []

/-- A closing brace, and nothing but trivia up to the end. -/
def ClosesProcess : List Token → Prop
  | [] => False
  | t :: ts => t.kind = .rBrace ∧ significant (body ts) = []

instance : DecidablePred ClosesProcess
  | [] => isFalse id
  | _ :: _ => inferInstanceAs (Decidable (_ ∧ _))

/-- Between `opening` and `ending` the tokens are the body of one process: read together they are
in order and a single item, and none of them is left out. -/
structure AcceptsBody (limit : Nat) (opening ts ending : List Token) : Prop where
  ok : (ofTokens limit (opening ++ ts ++ ending)).isOk
  single : (ofTokens limit (opening ++ ts ++ ending)).root.significant.length = 1
  whole : (ofTokens limit (opening ++ ts ++ ending)).root.tokens = opening ++ ts ++ body ending

theorem filter_leaves (ts : List Token) :
    ((ts.map leaf).filter fun child => child.label.isStatement) = [] := by
  rw [List.filter_map, List.map_eq_nil_iff, List.filter_eq_nil_iff]
  exact fun _ _ isStatement => nomatch isStatement

theorem bodyStatements_eq {p : Parsed} {lead front : List Token} {closing : Token}
    {parts extra : List Tree} (children : p.root.children = lead.map leaf ++
      ofRule .processDecl (front.map leaf ++ [ofRule .block (parts ++ [leaf closing])]) :: extra) :
    p.bodyStatements = parts.filter fun child => child.label.isStatement := by
  rw [bodyStatements, firstBlock?_eq children]
  change (parts ++ [leaf closing]).filter _ = _
  simp [List.filter_append, leaf, Label.isStatement]

/-- The tokens of nodes that are trivia are trivia. -/
theorem isTrivia_of_mem_tokensAll {parts : List Tree} (trivia : ∀ part ∈ parts, part.isTrivia)
    {t : Token} (member : t ∈ tokensAll parts) : t.isTrivia := by
  induction parts with
  | nil => cases member
  | cons part parts ih =>
      obtain ⟨first, later⟩ := List.forall_mem_cons.mp trivia
      rw [tokensAll, List.mem_append] at member
      rcases member with member | member
      · obtain ⟨label, span, children, text⟩ := part
        cases label with
        | token kind =>
            rw [Tree.tokens, List.mem_singleton] at member
            subst member
            simpa [Tree.isTrivia, Tree.tokenKind?, Label.tokenKind?, Token.isTrivia] using first
        | rule rule => cases first
      · exact ih later member

theorem AcceptsBody.body_eq {limit : Nat} {opening ts ending : List Token}
    (h : AcceptsBody limit opening ts ending) :
    body (opening ++ ts ++ ending) = opening ++ ts ++ body ending := by
  rw [← (tokens_root limit _).2 h.ok, h.whole]

theorem AcceptsBody.noEnd {limit : Nat} {opening ts ending : List Token}
    (h : AcceptsBody limit opening ts ending) : ∀ t ∈ opening ++ ts, t.kind ≠ .eof :=
  fun t member => body_ne_eof t (h.body_eq ▸ List.mem_append_left _ member)

theorem ClosesProcess.body_eq {closing : Token} {ending : List Token}
    (h : ClosesProcess (closing :: ending)) : body (closing :: ending) = closing :: body ending :=
  List.takeWhile_cons_of_pos (by simp [h.1])

theorem ClosesProcess.isTrivia {closing : Token} {ending : List Token}
    (h : ClosesProcess (closing :: ending)) : ∀ t ∈ body ending, t.isTrivia := by
  simpa [significant] using h.2

/-- Behind the one item of a script in order there is trivia. -/
theorem isTrivia_behind {n : Nat} {lead parts : List Tree} {rest : List Token} {item : Tree}
    (done : Form.script.readAt n (lead ++ [item]) rest = .done parts [] [])
    (single : (parts.filter fun part => !part.isTrivia).length = 1)
    (isItem : item.isTrivia = false) : ∀ t ∈ rest, t.isTrivia := by
  obtain ⟨extra, rfl⟩ := Form.prefix_of_appends Form.script_productive (by decide) done
  have conserved := Form.readAt_conserves Form.script_productive n (lead ++ [item]) rest
  rw [done] at conserved
  obtain ⟨taken, added, split, leaves, -, all⟩ := conserved
  obtain rfl : tokensAll extra = rest := by
    rw [all rfl, Tree.tokensAll_append] at leaves
    rw [split, List.append_nil]
    exact List.append_cancel_left leaves
  -- The one node that is no trivia is the item.
  have trivia : ∀ part ∈ extra, part.isTrivia := by
    simp only [List.filter_append, List.filter_cons, isItem, List.length_append] at single
    have none : (extra.filter fun part => !part.isTrivia).length = 0 := by
      simp at single
      omega
    simpa using List.length_eq_zero_iff.mp none
  exact fun t member => isTrivia_of_mem_tokensAll trivia member

/-- A list has one token, if any, that is no trivia and has nothing but trivia behind it. -/
theorem last_unique {ts us vs : List Token} {t u : Token} (isLast : t :: us <:+ ts)
    (isLast' : u :: vs <:+ ts) (trivia : ∀ w ∈ us, w.isTrivia) (trivia' : ∀ w ∈ vs, w.isTrivia)
    (plain : t.isTrivia = false) (plain' : u.isTrivia = false) : t :: us = u :: vs := by
  rcases List.suffix_or_suffix_of_suffix isLast isLast' with inside | inside <;>
    rcases List.suffix_cons_iff.mp inside with same | deeper
  · exact same
  · exact absurd (trivia' t (deeper.subset List.mem_cons_self)) (by simp [plain])
  · exact same.symm
  · exact absurd (trivia u (deeper.subset List.mem_cons_self)) (by simp [plain'])

section

variable {limit : Nat} {opening ts ending behind next gap after : List Token}
  {keyword name brace closing : Token}

/-- A script that is one process reads the body of the process as lines, up to its closing
brace. -/
theorem lines_of_script {n : Nat} {parts : List Tree}
    (o : Opening opening keyword behind name next brace gap) (closes : closing.kind = .rBrace)
    (trivia : ∀ t ∈ after, t.isTrivia)
    (script : Form.script.readAt n [] (opening ++ (ts ++ closing :: after)) = .done parts [] [])
    (single : (parts.filter fun part => !part.isTrivia).length = 1) :
    ∃ (inner extra : List Tree) (lead front : List Token),
      Form.lines.readAt n [leaf brace] (gap ++ (ts ++ closing :: after)) =
        .done inner (closing :: after) [] ∧
      parts = lead.map leaf ++ ofRule .processDecl (front.map leaf ++
        [ofRule .block (inner ++ [leaf closing])]) :: extra := by
  have plain : closing.isTrivia = false := isTrivia_of_kind closes rfl
  have first := afterTrivia_append o.first (ts ++ closing :: after)
  rw [Form.readAt_script, List.nil_append] at script
  obtain ⟨middle, between, process, later⟩ := (Form.items_clean (by
    rw [nextKind_afterTrivia, nextKind_of_afterTrivia first, o.isKeyword])).mp script
  rw [first] at process
  rw [← Form.readAt_script] at later
  obtain ⟨inner, closing', front, read, rfl⟩ := Form.lines_of_process o process
  have ends := Form.readAt_suffix (by decide : Form.lines.productive) n [leaf brace]
    (gap ++ (ts ++ closing :: after))
  rw [read] at ends
  have plain' : closing'.isTrivia = false :=
    isTrivia_of_afterTrivia (Form.lines_flushed read)
  obtain ⟨rfl, rfl⟩ := List.cons.inj (last_unique ends
    ((List.suffix_append ts (closing :: after)).trans (List.suffix_append gap _))
    (isTrivia_behind later single rfl) trivia plain' plain)
  obtain ⟨extra, rfl⟩ := Form.prefix_of_appends Form.script_productive (by decide) later
  exact ⟨inner, extra, leadingTrivia (opening ++ (ts ++ closing' :: between)), front, read,
    by simp⟩

/-- The body of a process is read as lines, up to the closing brace. -/
theorem AcceptsBody.read (h : AcceptsBody limit opening ts (closing :: ending))
    (o : Opening opening keyword behind name next brace gap)
    (closes : ClosesProcess (closing :: ending)) :
    ∃ parts, Form.lines.readAt limit [leaf brace] (gap ++ (ts ++ closing :: body ending)) =
        .done parts (closing :: body ending) [] ∧
      (ofTokens limit (opening ++ ts ++ closing :: ending)).bodyStatements =
        parts.filter fun child => child.label.isStatement := by
  obtain ⟨parts, script, parsed⟩ := script_of_isOk h.ok
  have single := h.single
  rw [parsed, Tree.significant, children_rootOf] at single
  rw [h.body_eq, closes.body_eq, List.append_assoc] at script
  obtain ⟨inner, extra, lead, front, read, rfl⟩ :=
    lines_of_script o closes.1 closes.isTrivia script single
  exact ⟨inner, read, bodyStatements_eq (by rw [parsed, children_rootOf])⟩

/-- What the lines of its body are read as is what a script that is one process is parsed as. -/
theorem ofTokens_of_lines {parts : List Tree} {reported : List Fault}
    (o : Opening opening keyword behind name next brace gap)
    (closes : ClosesProcess (closing :: ending)) (noEnd : ∀ t ∈ opening ++ ts, t.kind ≠ .eof)
    (read : Form.lines.readAt limit [leaf brace] (gap ++ (ts ++ closing :: body ending)) =
      .done parts (closing :: body ending) reported) :
    ∃ scriptEnd, (ofTokens limit (opening ++ ts ++ closing :: ending)).diagnostics =
        reported.map (Diagnostic.ofFault limit scriptEnd) ∧
      (ofTokens limit (opening ++ ts ++ closing :: ending)).bodyStatements =
        parts.filter fun child => child.label.isStatement := by
  have first := afterTrivia_append o.first (ts ++ closing :: body ending)
  have second := afterTrivia_append o.second (ts ++ closing :: body ending)
  have third := afterTrivia_append o.third (ts ++ closing :: body ending)
  have script := Form.script_of_one first o.isKeyword (Form.process_of_block o.isKeyword second
    o.isName (third ▸ Form.block_of_lines o.opens closes.1 read))
    (afterTrivia_eq_nil (significant_eq_nil_of_all closes.isTrivia))
  obtain ⟨_, _, done, parsed⟩ := ofTokens_eq limit (opening ++ ts ++ closing :: ending)
  rw [body_append noEnd, closes.body_eq, List.append_assoc, script] at done
  obtain ⟨rfl, -, rfl⟩ := Outcome.done.inj done
  exact ⟨_, by rw [parsed], bodyStatements_eq (by
    rw [parsed, children_rootOf, List.append_assoc, List.singleton_append])⟩

end

end Parsed

end QuestScript
