/-
# QuestScript.Proofs.Recognition -- reading back the tokens of a tree

A form recognises a language over trees if it reads the tokens of every word, whatever the
trivia between its nodes, and puts the very nodes of the word into the frame
(`Form.Reaches`).  What stands behind the word matters: a type is not over before brackets, an
expression not before an operator.  So the law for a sequence asks what the words of the
second language begin with (`Leads`).

The nodes that are expressions themselves, and the lists of arguments, are recognised by
hypothesis (`Ready`); what is shown here is how the forms around them are.  `levelBefore`
says which tokens may stand behind an expression, and how tightly it must bind then.
-/
import QuestScript.Proofs.Limits
import QuestScript.Proofs.Regular

namespace QuestScript.Grammar

open QuestScript.Tree (Closed Opened leaf ofRule tokensAll tokensAll_append tokensAll_leaves
  withoutTrivia withoutTrivia_append withoutTrivia_nil)
open scoped Computability

set_option autoImplicit false

/-! ## What stands behind an expression -/

/-- The level that an expression must have where a token of this kind stands behind it. -/
def levelBefore (k : TokenKind) : Option Level :=
  match Precedence.ofKind? k with
  | some p => some (.binary p)
  | none =>
      if k.isAssignment then some .ternary
      else if Form.startsSuffix k then some .suffixed
      else match k with
        | .question => some (.binary .or)
        | .semi | .comma | .colon | .rParen | .rBracket | .rBrace | .eof => some .assignment
        | _ => none

/-- What binds as tightly as a level may stand before a token of this kind. -/
def mayPrecede (l : Level) (k : TokenKind) : Bool :=
  (levelBefore k).any fun m => m.rank ≤ l.rank

/-- What binds as tightly as a level may stand here. -/
def Before (l : Level) (ks : List TokenKind) : Prop := mayPrecede l (ks.headD .eof)

theorem Before.mono {l l' : Level} {ks : List TokenKind} (h : Before l ks) (le : l.rank ≤ l'.rank) :
    Before l' ks := by
  unfold Before mayPrecede at *
  rw [Option.any_eq_true] at h ⊢
  obtain ⟨m, same, low⟩ := h
  exact ⟨m, same, by simp only [decide_eq_true_eq] at low ⊢; omega⟩

/-- What holds of all tokens that may stand behind the level holds of the next one. -/
theorem Before.head {l : Level} {ks : List TokenKind} (h : Before l ks) {P : TokenKind → Prop}
    (of : ∀ k, mayPrecede l k → P k) : P (ks.headD .eof) := of _ h

theorem mayPrecede_operator {p : Precedence} {k : TokenKind} (same : Precedence.ofKind? k = some p)
    (l : Level) : mayPrecede l k = decide ((Level.binary p).rank ≤ l.rank) := by
  simp [mayPrecede, levelBefore, same]

/-- Words of the language lead to what is wanted, where something suitable stands behind them. -/
def Leads (L : Language Tree) (behind ahead : List TokenKind → Prop) : Prop :=
  ∀ nodes ∈ L, (∀ t ∈ nodes, Worded t) → ∀ ks, behind ks → ahead (wordOf nodes ++ ks)

/-- Anything may stand here. -/
def anything : List TokenKind → Prop := fun _ => True

section Leads

variable {K L : Language Tree} {behind behind' ahead : List TokenKind → Prop}

theorem leads_anything : Leads L behind anything := fun _ _ _ _ _ => trivial

theorem leads_one (h : ∀ ks, behind ks → ahead ks) : Leads 1 behind ahead := by
  rintro _ rfl - ks holds
  exact h ks holds

theorem leads_tokOf {admits : TokenKind → Bool} (plain : ∀ k, admits k → k.isTrivia = false)
    (h : ∀ k ks, admits k → ahead (k :: ks)) : Leads (tokOf admits) behind ahead := by
  rintro _ ⟨t, rfl, k, label, admitted⟩ - ks -
  rw [wordOf_token label, if_neg (by simp [plain k admitted])]
  exact h k ks admitted

theorem leads_tok {k : TokenKind} (plain : k.isTrivia = false) (h : ∀ ks, ahead (k :: ks)) :
    Leads (tok k) behind ahead := by
  rintro _ ⟨t, rfl, label⟩ - ks -
  rw [wordOf_token label, if_neg (by simp [plain])]
  exact h ks

theorem leads_arguments (h : ∀ ks, ahead (.lParen :: ks)) :
    Leads (nodeOf .arguments) behind ahead := by
  rintro _ ⟨t, rfl, label⟩ worded ks -
  obtain ⟨v, word⟩ := worded t (by simp) .arguments label
  rw [word]
  exact h _

/-- An expression begins as operands do. -/
theorem leads_expr (h : ∀ k ks, startsOperand k → ahead (k :: ks)) : Leads expr behind ahead := by
  intro nodes member worded ks _
  obtain ⟨k, v, word, starts⟩ := beginsOn_expr nodes member worded
  rw [word]
  exact h k _ starts

theorem Leads.mul (h : Leads K anything ahead) : Leads (K * L) behind ahead := by
  intro nodes member worded ks _
  obtain ⟨k, inK, l, -, rfl⟩ := Language.mem_mul.mp member
  rw [wordOf_append, List.append_assoc]
  exact h k inK (fun t inside => worded t (List.mem_append_left l inside)) _ trivial

theorem Leads.add (hK : Leads K behind ahead) (hL : Leads L behind ahead) :
    Leads (K + L) behind ahead := fun nodes member => member.elim (hK nodes) (hL nodes)

theorem Leads.kstar (h : Leads L anything ahead) (none : ∀ ks, behind ks → ahead ks) :
    Leads L∗ behind ahead := by
  rintro _ ⟨words, rfl, each⟩ worded ks holds
  cases words with
  | nil => exact none ks holds
  | cons word words =>
      rw [List.flatten_cons, wordOf_append, List.append_assoc]
      refine h word (each word (by simp)) (fun t inside => worded t ?_) _ trivial
      exact List.mem_append_left _ inside

end Leads

/-! ## Recognising words -/

namespace Form

variable {n : Nat} {frame : List Tree} {ts us rest : List Token}

theorem readAt_seq_of_done {first second : Form} {frame' : List Tree}
    (done : first.readAt n frame ts = .done frame' rest []) :
    (first >> second).readAt n frame ts = second.readAt n frame' rest := by
  have both : (first >> second).readAt n frame ts =
    (first.readAt n frame ts).andThen (second.readAt n) := rfl
  rw [both, done, Outcome.done_andThen]

/-- The form reads the tokens of some nodes, puts these nodes into the frame and goes on like
`g`. -/
def Takes (n : Nat) (f g : Form) (parts : List Tree) (us : List Token) : Prop :=
  ∀ frame, f.readAt n frame (tokensAll parts ++ us) = g.readAt n (frame ++ parts) us

end Form

/-! ## What is claimed of an expression -/

/-- The form reads the tree back where what stands behind may stand behind the level. -/
def ReadsBack (f : Form) (l : Level) (t : Tree) : Prop :=
  ∀ n us, size [t] ≤ n → Before l (kinds us) → f.readAt n [] (t.tokens ++ us) = .done [t] us []

/-- The form reads the tree and goes on like `g`, on a level that the tokens of the tree but one pay
for. -/
def Continues (f g : Form) (n : Nat) (t : Tree) (us : List Token) : Prop :=
  ∃ k, n + 1 ≤ k + size [t] ∧ f.readAt n [] (t.tokens ++ us) = g.readAt k [t] us

/-- The tree is read as an operand to which more suffixes may come. -/
def ReadsSuffixed (t : Tree) : Prop :=
  ∀ n us, size [t] ≤ n → Before .suffixed (kinds us) →
    (t.significant ∈ sizedArray → (kinds us).headD .eof ≠ .lBracket) →
    Continues Form.operand Form.suffixes n t us

/-- The tree is read as a chain of operators to which looser operators may come. -/
def ReadsChain (t : Tree) : Prop :=
  ∀ least n us, (Level.binary least).rank ≤ t.level.rank → size [t] ≤ n →
    Before .unary (kinds us) → Before t.level (kinds us) →
    Continues (Form.binary least) (Form.links least) n t us

/-- Each form reads the tree back that is tight enough for it. -/
structure Known (t : Tree) : Prop where
  suffixed : Level.suffixed.rank ≤ t.level.rank → ReadsSuffixed t
  operand : Level.unary.rank ≤ t.level.rank → ReadsBack Form.operand .unary t
  chain : (Level.binary .or).rank ≤ t.level.rank → ReadsChain t
  ternary : Level.ternary.rank ≤ t.level.rank → ReadsBack Form.ternary .ternary t
  assignment : ReadsBack Form.assignment .assignment t

/-- A regular tree that is read back with levels enough for its tokens. -/
structure Back (t : Tree) : Prop where
  regular : Regular t
  known : t.label.isExpression → Known t
  arguments : t.label = .rule .arguments → ∀ n us, size [t] ≤ n →
    Form.arguments.Takes n .empty [t] us

/-- Such a tree with a level more than it has tokens. -/
structure Ready (n : Nat) (t : Tree) : Prop extends Back t where
  room : t.isToken = false → size [t] < n

/-- Nothing is asked of tokens. -/
theorem ready_of_isToken {n : Nat} {t : Tree} (regular : Regular t) (token : t.isToken) :
    Ready n t where
  regular := regular
  known isExpr := absurd token (by simp [isToken_of_isExpression isExpr])
  arguments label := absurd token (by simp [isToken_of_rule label])
  room node := absurd token (by simp [node])

namespace Form

variable {n : Nat} {f g first second yes no body : Form} {admits : TokenKind → Bool}
  {K L : Language Tree} {p : Tree → Prop} {stop stop' : List TokenKind → Prop}

/-- The form reads back the words of a language and goes on like `g`. -/
def Reaches (n : Nat) (f : Form) (L : Language Tree) (stop : List TokenKind → Prop)
    (g : Form) : Prop :=
  ∀ parts, withoutTrivia parts ∈ L → Capped parts → (∀ t ∈ parts, Ready n t) →
    ∀ us, stop (kinds us) → f.Takes n g parts us

/-- The form reads back single nodes that are no tokens. -/
def Recovers (n : Nat) (f : Form) (p : Tree → Prop) (stop : List TokenKind → Prop) : Prop :=
  ∀ t, p t → Ready n t → ∀ us, stop (kinds us) → t.isToken = false ∧ f.Takes n empty [t] us

theorem kinds_tokensAll_append (parts : List Tree) (us : List Token) :
    kinds (tokensAll parts ++ us) = wordOf (withoutTrivia parts) ++ kinds us := by
  rw [kinds_append, wordOf_withoutTrivia, wordOf]

theorem kinds_of_word {parts : List Tree} {k : TokenKind} {w : List TokenKind}
    (word : wordOf (withoutTrivia parts) = k :: w) (us : List Token) :
    kinds (tokensAll parts ++ us) = k :: (w ++ kinds us) := by
  rw [kinds_tokensAll_append, word, List.cons_append]

theorem Reaches.mono (h : f.Reaches n L stop g) (le : K ≤ L) : f.Reaches n K stop g :=
  fun parts member => h parts (le member)

theorem Reaches.weaken (h : f.Reaches n L stop' g) (le : ∀ ks, stop ks → stop' ks) :
    f.Reaches n L stop g := fun parts member capped ready us stops =>
  h parts member capped ready us (le _ stops)

/-- Every form goes on like itself. -/
theorem Reaches.refl (g : Form) : g.Reaches n 1 stop g := by
  intro parts none capped _ us _ frame
  obtain rfl := capped.eq_nil none
  simp [tokensAll]

theorem Reaches.empty : Form.empty.Reaches n 1 stop .empty := .refl _

theorem worded_of_ready {parts : List Tree} (ready : ∀ t ∈ parts, Ready n t) :
    ∀ t ∈ withoutTrivia parts, Worded t := fun t inside =>
  (ready t (List.mem_filter.mp inside).1).regular.worded

theorem Reaches.seq (h₁ : first.Reaches n K stop' .empty) (h₂ : second.Reaches n L stop g)
    (next : Leads L stop stop') : (first >> second).Reaches n (K * L) stop g := by
  intro parts member capped ready us stops frame
  obtain ⟨k, l, rfl, inK, cappedK, inL, cappedL⟩ := split_mul member capped
  obtain ⟨readyK, readyL⟩ := List.forall_mem_append.mp ready
  rw [tokensAll_append, List.append_assoc]
  have goesOn : stop' (kinds (tokensAll l ++ us)) := by
    rw [kinds_tokensAll_append]
    exact next _ inL (worded_of_ready readyL) _ stops
  rw [readAt_seq_of_done (h₁ k inK cappedK readyK _ goesOn frame),
    h₂ l inL cappedL readyL us stops, List.append_assoc]

theorem Reaches.andThen (h : first.Reaches n L stop .empty) (g : Form) :
    (first >> g).Reaches n L stop g := by
  have both : (first >> g).Reaches n (L * 1) stop g :=
    h.seq (.refl g) (leads_one fun _ stops => stops)
  rwa [mul_one] at both

/-- Trivia before a significant token. -/
theorem exists_gap {gap : List Tree} (trivia : ∀ g ∈ gap, g.isTrivia)
    (regular : ∀ g ∈ gap, Regular g) :
    ∃ ts : List Token, gap = ts.map leaf ∧ ∀ t ∈ ts, t.isTrivia := by
  obtain ⟨ts, rfl⟩ :=
    exists_leaves (fun g member => Tree.isToken_of_isTrivia (trivia g member)) regular
  exact ⟨ts, rfl, by simpa using trivia⟩

theorem leadingTrivia_gap {gap ts : List Token} (trivia : ∀ t ∈ gap, t.isTrivia)
    (flushed : afterTrivia ts = ts) :
    leadingTrivia (gap ++ ts) = gap ∧ afterTrivia (gap ++ ts) = ts := by
  constructor
  · have none : leadingTrivia ts = [] := leadingTrivia_of_flushed flushed
    rw [leadingTrivia, List.takeWhile_append_of_pos trivia, ← leadingTrivia, none, List.append_nil]
  · rw [afterTrivia, List.dropWhile_append_of_pos trivia, ← afterTrivia, flushed]

theorem Reaches.ofToken {test : Token → Option Cause} {atEnd : Cause}
    (passes : ∀ t : Token, p (leaf t) → test t = none)
    (tokens : ∀ t, p t → t.isToken) :
    ∀ parts, withoutTrivia parts ∈ single p → Capped parts → (∀ t ∈ parts, Ready n t) → ∀ us frame,
      Reader.ofToken test atEnd frame (tokensAll parts ++ us) = .done (frame ++ parts) us [] := by
  rintro parts ⟨s, only, holds⟩ capped ready us frame
  obtain ⟨gap, rfl, trivia⟩ := split_single only capped
  obtain ⟨readyGap, readyS⟩ := List.forall_mem_append.mp ready
  obtain ⟨t, rfl⟩ := (readyS s (by simp)).regular.tidy.eq_leaf (tokens s holds)
  obtain ⟨ts, rfl, blanks⟩ := exists_gap trivia fun g inside => (readyGap g inside).regular
  have significant : t.isTrivia = false := by
    have inside : leaf t ∈ withoutTrivia (ts.map leaf ++ [leaf t]) := by simp [only]
    simpa using (List.mem_filter.mp inside).2
  have flushed : afterTrivia (t :: us) = t :: us :=
    List.dropWhile_cons_of_neg (by simpa using significant)
  obtain ⟨lead, behind⟩ := leadingTrivia_gap blanks flushed
  have split : tokensAll (ts.map leaf ++ [leaf t]) ++ us = ts ++ t :: us := by
    simp [tokensAll_append, tokensAll_leaves, tokensAll]
  rw [split, Reader.ofToken, behind]
  simp [passes t holds, lead]

theorem Reaches.token (admits : TokenKind → Bool) (expected : String) :
    (Form.token admits expected).Reaches n (tokOf admits) stop .empty := by
  intro parts member capped ready us _ frame
  refine Reaches.ofToken ?_ ?_ parts member capped ready us frame
  · rintro t ⟨k, label, admitted⟩
    obtain rfl : t.kind = k := by simpa [leaf] using label
    simp [admitted]
  · rintro t ⟨k, label, -⟩
    exact isToken_of_token label

theorem Reaches.one (k : TokenKind) : (Form.one k).Reaches n (tok k) stop .empty :=
  (Reaches.token _ _).mono (tok_le_tokOf (by simp))

theorem Reaches.string (expected : String) :
    (Form.string expected).Reaches n closedString stop .empty := by
  intro parts member capped ready us _ frame
  refine Reaches.ofToken ?_ ?_ parts member capped ready us frame
  · rintro t ⟨label, closes⟩
    have isString : t.kind = .string := by simpa [leaf] using label
    simpa [isString, leaf, Tree.ownText] using closes
  · rintro t ⟨label, -⟩
    exact isToken_of_token label

theorem Reaches.add (hK : f.Reaches n K stop g) (hL : f.Reaches n L stop g) :
    f.Reaches n (K + L) stop g := fun parts member => member.elim (hK parts) (hL parts)

theorem nextKind_tokensAll (parts : List Tree) (us : List Token) :
    nextKind (tokensAll parts ++ us) = (wordOf (withoutTrivia parts) ++ kinds us).headD .eof := by
  rw [nextKind_eq_kinds, kinds_tokensAll_append]

theorem Reaches.ifYes (h : yes.Reaches n L stop g)
    (begins : Leads L stop fun ks => admits (ks.headD .eof) = true) :
    (ifNext admits yes no).Reaches n L stop g := by
  intro parts member capped ready us stops frame
  have looked : admits (nextKind (tokensAll parts ++ us)) = true := by
    rw [nextKind_tokensAll]
    exact begins _ member (worded_of_ready ready) _ stops
  rw [readAt_ifNext, if_pos looked]
  exact h parts member capped ready us stops frame

theorem Reaches.ifNo (h : no.Reaches n L stop g)
    (differs : Leads L stop fun ks => admits (ks.headD .eof) = false) :
    (ifNext admits yes no).Reaches n L stop g := by
  intro parts member capped ready us stops frame
  have looked : admits (nextKind (tokensAll parts ++ us)) = false := by
    rw [nextKind_tokensAll]
    exact differs _ member (worded_of_ready ready) _ stops
  rw [readAt_ifNext, if_neg (by simp [looked])]
  exact h parts member capped ready us stops frame

/-- A form that may be left out is left out before tokens of certain kinds. -/
theorem Reaches.unlessNext (h : body.Reaches n L stop .empty)
    (absent : ∀ ks, stop ks → admits (ks.headD .eof) = true)
    (differs : Leads L stop fun ks => admits (ks.headD .eof) = false) :
    (Form.unlessNext admits body).Reaches n (opt L) stop .empty :=
  .add (.ifYes .empty (leads_one absent)) (.ifNo h differs)

theorem Reaches.whileNext (productive : (Form.whileNext admits body).productive)
    (h : body.Reaches n L stop' .empty)
    (begins : Leads L anything fun ks => admits (ks.headD .eof) = true)
    (stops : ∀ ks, stop ks → admits (ks.headD .eof) = false)
    (next : Leads L∗ stop stop') : (Form.whileNext admits body).Reaches n L∗ stop .empty := by
  rintro parts ⟨words, split, each⟩ capped ready us stop frame
  induction words generalizing parts frame with
  | nil =>
      obtain rfl := capped.eq_nil split
      have ended := stops _ stop
      rw [← nextKind_eq_kinds] at ended
      rw [show tokensAll [] ++ us = us from rfl, Form.whileNext, readAt_repeated productive,
        leadsTo_empty, ended]
      simp
  | cons word words ih =>
      obtain ⟨inL, later⟩ := List.forall_mem_cons.mp each
      have whole : withoutTrivia parts ∈ ({word} * {words.flatten} : Language Tree) :=
        ⟨word, rfl, words.flatten, rfl, split.symm⟩
      obtain ⟨p, q, rfl, first, cappedP, behind, cappedQ⟩ := split_mul whole capped
      obtain rfl : withoutTrivia p = word := first
      obtain ⟨readyP, readyQ⟩ := List.forall_mem_append.mp ready
      have goesOn : stop' (kinds (tokensAll q ++ us)) := by
        rw [kinds_tokensAll_append]
        exact next _ ⟨words, behind, later⟩ (worded_of_ready readyQ) _ stop
      have looked : admits (nextKind (tokensAll p ++ (tokensAll q ++ us))) = true := by
        rw [nextKind_tokensAll]
        exact begins _ inL (worded_of_ready readyP) _ trivial
      rw [tokensAll_append, List.append_assoc, Form.whileNext, readAt_repeated productive,
        leadsTo_empty, if_pos looked, h p inL cappedP readyP _ goesOn frame, readAt_empty,
        Outcome.done_andThen, ← Form.whileNext, ih q behind later cappedQ readyQ, List.append_assoc]

/-- Words with commas between them, where a word may end before a comma. -/
theorem Reaches.commaSeparated
    (productive : (Form.whileNext (· == .comma) (Form.one .comma >> body)).productive)
    (h : body.Reaches n L stop' .empty) (comma : ∀ ks, stop' (.comma :: ks))
    (stops : ∀ ks, stop ks → stop' ks ∧ (ks.headD .eof == .comma) = false) :
    (Form.commaSeparated body).Reaches n (separated L) stop .empty := by
  have goesOn : Leads (tok .comma * L)∗ stop stop' :=
    .kstar (.mul (leads_tok rfl comma)) fun ks stop => (stops ks stop).1
  refine h.seq (.whileNext productive ((Reaches.one .comma).seq h leads_anything) ?_
    (fun ks stop => (stops ks stop).2) goesOn) goesOn
  exact .mul (leads_tok rfl fun _ => rfl)

/-- Before a node that is no token trivia is read on its own. -/
theorem Takes.afterTrivia {gap : List Tree} {t : Tree} {us : List Token}
    (trivia : ∀ g ∈ gap, g.isTrivia) (regular : ∀ g ∈ gap ++ [t], Regular g)
    (node : t.isToken = false) (h : f.Takes n .empty [t] us) (g : Form) :
    (Form.trivia >> f >> g).Takes n g (gap ++ [t]) us := by
  intro frame
  obtain ⟨regularGap, regularT⟩ := List.forall_mem_append.mp regular
  obtain ⟨ts, rfl, blanks⟩ := exists_gap trivia regularGap
  have significant : t.isTrivia = false := by
    rw [← Bool.not_eq_true]
    exact fun trivia => Bool.false_ne_true (node ▸ Tree.isToken_of_isTrivia trivia)
  obtain ⟨lead, behind⟩ := leadingTrivia_gap blanks
    ((regularT t (by simp)).afterTrivia_tokens significant us)
  have split : tokensAll (ts.map leaf ++ [t]) ++ us = ts ++ (t.tokens ++ us) := by
    simp [tokensAll_append, tokensAll_leaves, tokensAll]
  have start : Form.trivia.readAt n frame (ts ++ (t.tokens ++ us)) =
      .done (frame ++ ts.map leaf) (t.tokens ++ us) [] := by
    rw [readAt_trivia, lead, behind]
  have read : f.readAt n (frame ++ ts.map leaf) (t.tokens ++ us) =
      .done (frame ++ ts.map leaf ++ [t]) us [] := by
    simpa [tokensAll] using h (frame ++ ts.map leaf)
  rw [split, readAt_seq_of_done start, readAt_seq_of_done read, List.append_assoc]

theorem Recovers.afterTrivia (h : f.Recovers n p stop') (h₂ : second.Reaches n L stop g)
    (next : Leads L stop stop') : (Form.trivia >> f >> second).Reaches n (single p * L) stop g := by
  intro parts member capped ready us stops frame
  obtain ⟨k, l, rfl, ⟨t, only, holds⟩, cappedK, inL, cappedL⟩ := split_mul member capped
  obtain ⟨gap, rfl, trivia⟩ := split_single only cappedK
  obtain ⟨readyK, readyL⟩ := List.forall_mem_append.mp ready
  have goesOn : stop' (kinds (tokensAll l ++ us)) := by
    rw [kinds_tokensAll_append]
    exact next _ inL (worded_of_ready readyL) _ stops
  obtain ⟨node, takes⟩ := h t holds (readyK t (by simp)) _ goesOn
  have regular : ∀ g ∈ gap ++ [t], Regular g := fun g inside => (readyK g inside).regular
  have first := Takes.afterTrivia trivia regular node takes second
  rw [tokensAll_append, List.append_assoc, first frame, h₂ l inL cappedL readyL us stops,
    List.append_assoc]

theorem Recovers.andThen (h : f.Recovers n p stop) (g : Form) :
    (Form.trivia >> f >> g).Reaches n (single p) stop g := by
  have both : (Form.trivia >> f >> g).Reaches n (single p * 1) stop g :=
    h.afterTrivia (.refl g) (leads_one fun _ stops => stops)
  rwa [mul_one] at both

theorem Recovers.reaches (h : f.Recovers n p stop) :
    (Form.trivia >> f).Reaches n (single p) stop .empty := by
  intro parts member capped ready us stops frame
  have done := h.andThen .empty parts member capped ready us stops frame
  obtain ⟨_, _, start, done⟩ := seq_clean.mp done
  obtain ⟨_, _, node, nothing⟩ := seq_clean.mp done
  cases nothing
  exact seq_clean.mpr ⟨_, _, start, node⟩

/-- What is put under a node in a frame of its own is read back as that node. -/
theorem Takes.node {rule : Rule} {parts : List Tree} {us : List Token}
    (h : body.Takes n empty parts us) :
    (Form.node rule body).Takes n empty [ofRule rule parts] us := by
  intro frame
  have whole : (Form.node rule body).readAt n frame (tokensAll [ofRule rule parts] ++ us) =
      ((body >> Form.close rule).readAt n [] (tokensAll parts ++ us)).into frame := by
    rw [Tree.tokensAll_ofRule]
    rfl
  rw [whole, readAt_seq_of_done (h [])]
  rfl

end Form

end QuestScript.Grammar
