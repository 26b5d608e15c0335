/-
# QuestScript.Proofs.TypeWords -- the tokens that a type is made of

Which tokens a form reads, trivia left out, is a language over kinds of tokens.
`Form.Spells` says that a form reads nothing but words of a language and puts their tokens
into the frame as leaves, `Form.Accepts` that it reads every such word where what stands
behind it lets it stop.

`typeWords d` are the words of types whose arguments are nested at most `d` deep.  With `n`
levels left a type is read if it is such a word for `n`, and nothing else is
(`Form.typeParts_spells`, `Form.typeParts_accepts`).  So what the three looks ahead at types
find is said by kinds of tokens alone, and arguments that have arguments themselves are
seen by a `>` that no expression could have there (`closes_inside`).
-/
import Mathlib.Computability.Language
import QuestScript.Proofs.Completion
import QuestScript.Proofs.Processes
import QuestScript.Proofs.Production

namespace QuestScript.Grammar

open scoped Computability

set_option autoImplicit false

/-! ## Kinds of tokens -/

/-- The kinds of the significant tokens. -/
def kinds (ts : List Token) : List TokenKind := (significant ts).map Token.kind

@[simp] theorem kinds_nil : kinds [] = [] := rfl

@[simp] theorem kinds_append (ts us : List Token) : kinds (ts ++ us) = kinds ts ++ kinds us := by
  simp [kinds]

@[simp] theorem kinds_leadingTrivia (ts : List Token) : kinds (leadingTrivia ts) = [] := by
  simp [kinds]

@[simp] theorem kinds_afterTrivia (ts : List Token) : kinds (afterTrivia ts) = kinds ts := by
  simp [kinds]

theorem kinds_singleton {t : Token} (h : t.isTrivia = false) : kinds [t] = [t.kind] := by
  simp [kinds, significant, h]

theorem kinds_of_afterTrivia {ts rest : List Token} {t : Token} (h : afterTrivia ts = t :: rest) :
    kinds ts = t.kind :: kinds rest := by
  rw [kinds, significant_of_afterTrivia h, List.map_cons, kinds]

theorem afterTrivia_of_kinds {ts : List Token} {k : TokenKind} {ks : List TokenKind}
    (h : kinds ts = k :: ks) :
    ∃ t rest, afterTrivia ts = t :: rest ∧ t.kind = k ∧ kinds rest = ks := by
  cases next : afterTrivia ts with
  | nil => rw [← kinds_afterTrivia, next] at h; simp at h
  | cons t rest =>
      rw [kinds_of_afterTrivia next, List.cons.injEq] at h
      exact ⟨t, rest, rfl, h⟩

theorem nextKind_eq_kinds (ts : List Token) : nextKind ts = (kinds ts).headD .eof := by
  rw [nextKind_eq, kinds]
  cases significant ts <;> rfl

/-- What stands before the first token of a kind is known, and what stands behind it. -/
theorem append_cons_inj {a a' b b' : List TokenKind} {k : TokenKind}
    (h : a ++ k :: b = a' ++ k :: b') (ha : k ∉ a) (ha' : k ∉ a') : a = a' ∧ b = b' := by
  induction a generalizing a' with
  | nil =>
      cases a' with
      | nil => simpa using h
      | cons x a' =>
          rw [List.mem_cons, not_or] at ha'
          exact absurd (List.cons.inj h).1 ha'.1
  | cons x a ih =>
      rw [List.mem_cons, not_or] at ha
      cases a' with
      | nil => exact absurd (List.cons.inj h).1.symm ha.1
      | cons x' a' =>
          rw [List.mem_cons, not_or] at ha'
          obtain ⟨rfl, rest⟩ := List.cons.inj h
          obtain ⟨rfl, rfl⟩ := ih rest ha.2 ha'.2
          exact ⟨rfl, rfl⟩

/-- The tokens do not end with trivia. -/
def Ended (ts : List Token) : Prop := ∀ t ∈ ts.getLast?, t.isTrivia = false

theorem Ended.append {ts us : List Token} (ht : Ended ts) (hu : Ended us) : Ended (ts ++ us) := by
  intro t last
  rw [List.getLast?_append, Option.mem_def, Option.or_eq_some_iff] at last
  exact last.elim (hu t) fun ⟨_, last⟩ => ht t last

/-- Tokens that do not end with trivia are known from their kinds and what they begin. -/
theorem Ended.eq_of_kinds {ts us rest rest' : List Token} (ht : Ended ts) (hu : Ended us)
    (split : ts ++ rest = us ++ rest') (same : kinds ts = kinds us) : ts = us ∧ rest = rest' := by
  have none {ts a : List Token} (ended : Ended (ts ++ a)) (same : kinds ts = kinds (ts ++ a)) :
      a = [] := by
    have silent : significant a = [] := by simpa [kinds] using same
    by_contra some
    have last := ended (a.getLast some) (by
      rw [List.getLast?_append, List.getLast?_eq_some_getLast some]
      rfl)
    have := List.filter_eq_nil_iff.mp silent _ (List.getLast_mem some)
    simp [last] at this
  rcases List.append_eq_append_iff.mp split with ⟨a, rfl, rfl⟩ | ⟨a, rfl, rfl⟩
  · obtain rfl := none hu same
    simp
  · obtain rfl := none ht same.symm
    simp

theorem singleton_mul_singleton (v w : List TokenKind) :
    ({v} * {w} : Language TokenKind) = {v ++ w} := by
  rw [Language.mul_def]
  exact Set.image2_singleton

/-- Words of `L` with commas between them. -/
def commaList (L : Language TokenKind) : Language TokenKind := L * ({[.comma]} * L)∗

/-! ## Which words a form reads -/

namespace Form

/-- What the form reads are words of `L`, and it puts them into the frame as they are.  It stops
right behind the last significant token of the word. -/
def Spells (n : Nat) (f : Form) (L : Language TokenKind) : Prop :=
  ∀ frame ts frame' rest reported, f.readAt n frame ts = .done frame' rest reported →
    ∃ taken, ts = taken ++ rest ∧ frame' = frame ++ taken.map Tree.leaf ∧ kinds taken ∈ L ∧
      Ended taken

/-- The form reads every word of `L` with something behind it at which it may stop. -/
def Accepts (n : Nat) (f : Form) (L : Language TokenKind) (stop : List TokenKind → Prop) : Prop :=
  ∀ word ∈ L, ∀ frame ts ks, kinds ts = word ++ ks → stop ks →
    ∃ frame' rest, f.readAt n frame ts = .done frame' rest [] ∧ kinds rest = ks

variable {n : Nat} {f first second yes no look body : Form} {admits : TokenKind → Bool}
  {K L : Language TokenKind} {stop stop' : List TokenKind → Prop}

theorem Spells.mono (h : f.Spells n K) (le : K ≤ L) : f.Spells n L := by
  intro frame ts frame' rest reported done
  obtain ⟨taken, split, leaves, member, ended⟩ := h _ _ _ _ _ done
  exact ⟨taken, split, leaves, le member, ended⟩

theorem Spells.empty : Form.empty.Spells n 1 := by
  intro frame ts frame' rest reported done
  cases done
  exact ⟨[], by simp, by simp, rfl, by simp [Ended]⟩

theorem token_done {admits : TokenKind → Bool} {expected : String} {frame frame' : List Tree}
    {ts rest : List Token} {reported : List Fault}
    (done : (token admits expected).readAt n frame ts = .done frame' rest reported) :
    ∃ t, afterTrivia ts = t :: rest ∧ admits t.kind ∧
      frame' = frame ++ (leadingTrivia ts).map Tree.leaf ++ [Tree.leaf t] := by
  rcases Reader.ofToken_cases
    (fun t => if admits t.kind then none else some (.expected expected)) (.expected expected)
    frame ts with ⟨cause, failed⟩ | ⟨t, left, next, passes, read⟩
  · simp only [readAt, Form.read, failed] at done
    cases done
  · simp only [readAt, Form.read, read] at done
    cases done
    exact ⟨t, next, by simpa using passes, rfl⟩

theorem Spells.token (admits : TokenKind → Bool) (expected : String) :
    (token admits expected).Spells n {ks | ∃ k, ks = [k] ∧ admits k} := by
  intro frame ts frame' rest reported done
  obtain ⟨t, next, admitted, rfl⟩ := token_done done
  refine ⟨leadingTrivia ts ++ [t], ?_, by simp, ⟨t.kind, ?_, admitted⟩, ?_⟩
  · rw [List.append_assoc, List.singleton_append, ← next, leadingTrivia_append_afterTrivia]
  · rw [kinds_append, kinds_leadingTrivia, kinds_singleton (isTrivia_of_afterTrivia next)]
    rfl
  · simpa [Ended] using isTrivia_of_afterTrivia next

theorem Spells.ofKind (kind : TokenKind) (expected : String) :
    (Form.token (· == kind) expected).Spells n {[kind]} :=
  (Spells.token _ _).mono (by
    rintro _ ⟨k, rfl, admitted⟩
    obtain rfl : k = kind := by simpa using admitted
    rfl)

theorem Spells.one (kind : TokenKind) : (one kind).Spells n {[kind]} := .ofKind kind _

theorem kinds_of_one {k : TokenKind} {frame frame' : List Tree} {ts rest : List Token}
    {reported : List Fault} (done : (Form.one k).readAt n frame ts = .done frame' rest reported) :
    kinds ts = k :: kinds rest := by
  obtain ⟨taken, rfl, -, same, -⟩ := Spells.one k _ _ _ _ _ done
  rw [kinds_append, show kinds taken = [k] from same]
  rfl

theorem Spells.seq (h₁ : first.Spells n K) (h₂ : second.Spells n L) :
    (first >> second).Spells n (K * L) := by
  intro frame ts frame' rest reported done
  obtain ⟨middle, between, one, two, read₁, read₂, -⟩ := seq_done.mp done
  obtain ⟨taken₁, rfl, rfl, inK, ended₁⟩ := h₁ _ _ _ _ _ read₁
  obtain ⟨taken₂, rfl, rfl, inL, ended₂⟩ := h₂ _ _ _ _ _ read₂
  refine ⟨taken₁ ++ taken₂, by simp, by simp, ?_, ended₁.append ended₂⟩
  rw [kinds_append]
  exact Language.append_mem_mul inK inL

theorem Spells.choose (h₁ : yes.Spells n K) (h₂ : no.Spells n L) :
    (choose look admits yes no).Spells n (K + L) := by
  intro frame ts frame' rest reported done
  rw [readAt_choose] at done
  split at done
  · exact (h₁.mono le_self_add) _ _ _ _ _ done
  · exact (h₂.mono le_add_self) _ _ _ _ _ done

theorem Spells.repeated (productive : (repeated look admits body).productive)
    (h : body.Spells n L) : (repeated look admits body).Spells n L∗ := by
  intro start whole frame' rest reported done
  refine (repeated_done productive
    (fun frame ts => ∃ taken, whole = taken ++ ts ∧ frame = start ++ taken.map Tree.leaf ∧
      kinds taken ∈ L∗ ∧ Ended taken) ?_
      ⟨[], by simp, by simp, Language.nil_mem_kstar L, by simp [Ended]⟩ done).1
  rintro frame ts frame' rest reported ⟨taken, rfl, rfl, inStar, ended⟩ - round
  obtain ⟨more, rfl, rfl, inL, endedMore⟩ := h _ _ _ _ _ round
  refine ⟨taken ++ more, by simp, by simp, ?_, ended.append endedMore⟩
  rw [kinds_append]
  exact (kstar_mul_le_kstar : L∗ * L ≤ L∗) (Language.append_mem_mul inStar inL)

theorem Spells.commaSeparated
    (productive : (Form.whileNext (· == .comma) (Form.one .comma >> body)).productive)
    (h : body.Spells n L) :
    (Form.commaSeparated body).Spells n (commaList L) :=
  h.seq (.repeated productive ((Spells.one .comma).seq h))

theorem readAt_ifNext (n : Nat) (admits : TokenKind → Bool) (yes no : Form) (frame : List Tree)
    (ts : List Token) : (Form.ifNext admits yes no).readAt n frame ts =
      if admits (nextKind ts) then yes.readAt n frame ts else no.readAt n frame ts := rfl

/-! ## Which words a form can read -/

theorem Accepts.token {admits : TokenKind → Bool} (expected : String) {kind : TokenKind}
    (admitted : admits kind) : (token admits expected).Accepts n {[kind]} fun _ => True := by
  rintro _ rfl frame ts ks same -
  obtain ⟨t, rest, next, rfl, behind⟩ := afterTrivia_of_kinds same
  refine ⟨frame ++ (leadingTrivia ts).map Tree.leaf ++ [Tree.leaf t], rest, ?_, behind⟩
  simp [readAt, Form.read, Reader.ofToken, next, admitted]

theorem Accepts.one (kind : TokenKind) : (one kind).Accepts n {[kind]} fun _ => True :=
  .token _ (by simp)

theorem Accepts.empty : Form.empty.Accepts n 1 stop := by
  rintro _ rfl frame ts ks same -
  exact ⟨frame, ts, rfl, same⟩

theorem Accepts.weaken (h : f.Accepts n L stop') (le : ∀ ks, stop ks → stop' ks) :
    f.Accepts n L stop :=
  fun word inL frame ts ks same stops => h word inL frame ts ks same (le ks stops)

theorem Accepts.seq (h₁ : first.Accepts n K stop') (h₂ : second.Accepts n L stop)
    (next : ∀ word ∈ L, ∀ ks, stop ks → stop' (word ++ ks)) :
    (first >> second).Accepts n (K * L) stop := by
  rintro _ ⟨k, inK, l, inL, rfl⟩ frame ts ks same stops
  obtain ⟨middle, between, read₁, left⟩ :=
    h₁ k inK frame ts (l ++ ks) (by simpa using same) (next l inL ks stops)
  obtain ⟨frame', rest, read₂, left'⟩ := h₂ l inL middle between ks left stops
  exact ⟨frame', rest, seq_done.mpr ⟨_, _, [], [], read₁, read₂, rfl⟩, left'⟩

theorem Accepts.ifNext (h₁ : yes.Accepts n K stop) (h₂ : no.Accepts n L stop)
    (begins : ∀ word ∈ K, ∀ ks, stop ks → admits ((word ++ ks).headD .eof) = true)
    (differs : ∀ word ∈ L, ∀ ks, stop ks → admits ((word ++ ks).headD .eof) = false) :
    (ifNext admits yes no).Accepts n (K + L) stop := by
  rintro word (inK | inL) frame ts ks same stops
  · have looked : admits (nextKind ts) = true := by
      rw [nextKind_eq_kinds, same, begins word inK ks stops]
    simpa only [readAt_ifNext, looked, if_pos] using h₁ word inK frame ts ks same stops
  · have failed : admits (nextKind ts) = false := by
      rw [nextKind_eq_kinds, same, differs word inL ks stops]
    simpa only [readAt_ifNext, failed, Bool.false_eq_true, if_false] using
      h₂ word inL frame ts ks same stops

/-- A repetition reads words one behind the other as long as its look ahead finds them. -/
theorem Accepts.repeated (productive : (repeated look admits body).productive)
    (h : body.Accepts n L stop')
    (goes : ∀ word ∈ L, ∀ ts ks, kinds ts = word ++ ks →
      (look.readAt n [] ts).leadsTo admits = true)
    (stops : ∀ ts, stop (kinds ts) → (look.readAt n [] ts).leadsTo admits = false)
    (next : ∀ word ∈ L∗, ∀ ks, stop ks → stop' (word ++ ks)) :
    (repeated look admits body).Accepts n L∗ stop := by
  rintro _ ⟨words, rfl, each⟩ frame ts ks same stop
  induction words generalizing frame ts with
  | nil =>
      obtain rfl : kinds ts = ks := by simpa using same
      exact ⟨frame, ts, by simp [readAt_repeated productive, stops ts stop], rfl⟩
  | cons word words ih =>
      simp only [List.forall_mem_cons] at each
      have split : kinds ts = word ++ (words.flatten ++ ks) := by simpa using same
      have looked := goes word each.1 ts _ split
      obtain ⟨middle, between, read, left⟩ := h word each.1 frame ts _ split
        (next _ (Language.join_mem_kstar each.2) ks stop)
      obtain ⟨frame', rest, read', left'⟩ := ih each.2 middle between left
      refine ⟨frame', rest, ?_, left'⟩
      rw [readAt_repeated productive, if_pos looked, read]
      simp [Outcome.andThen, read']

/-- Words with commas between them, where a word may end before a comma. -/
theorem Accepts.commaSeparated
    (productive : (Form.whileNext (· == .comma) (Form.one .comma >> body)).productive)
    (h : body.Accepts n L stop') (comma : ∀ ks, stop' (.comma :: ks))
    (stops : ∀ ks, stop ks → stop' ks ∧ ks.head? ≠ some .comma) :
    (Form.commaSeparated body).Accepts n (commaList L) stop := by
  -- What stands behind a word is another comma or what stands behind them all.
  have next (word) (inStar : word ∈ ({[.comma]} * L)∗) (ks) (stop : stop ks) :
      stop' (word ++ ks) := by
    obtain ⟨words, rfl, each⟩ := inStar
    cases words with
    | nil => exact (stops ks stop).1
    | cons word words =>
        obtain ⟨_, rfl, l, -, rfl⟩ := each word (by simp)
        simpa using comma (l ++ (words.flatten ++ ks))
  refine h.seq (.repeated productive ((Accepts.one .comma).seq h fun _ _ _ _ => trivial) ?_ ?_ next)
    next
  · rintro _ ⟨_, rfl, l, -, rfl⟩ ts ks same
    rw [leadsTo_empty, nextKind_eq_kinds, same]
    rfl
  · intro ts stop
    rw [leadsTo_empty, nextKind_eq_kinds]
    have notComma := (stops _ stop).2
    cases same : kinds ts with
    | nil => rfl
    | cons k ks => simpa [same] using notComma

/-- A token is ahead with another one behind it. -/
theorem leadsTo_one {a b : TokenKind} (notEnd : b ≠ .eof) (ts : List Token) :
    ((one a).readAt n [] ts).leadsTo (· == b) = true ↔ [a, b] <+: kinds ts := by
  cases same : kinds ts with
  | nil =>
      have failed : ¬ ∃ frame' rest reported,
          (one a).readAt n [] ts = .done frame' rest reported := by
        rintro ⟨frame', rest, reported, done⟩
        obtain ⟨taken, rfl, -, word, -⟩ := Spells.one a _ _ _ _ _ done
        rw [kinds_append, List.append_eq_nil_iff] at same
        rw [same.1] at word
        cases word
      cases read : (one a).readAt n [] ts with
      | done frame' rest reported => exact absurd ⟨_, _, _, read⟩ failed
      | failed fault reported => simp [Outcome.leadsTo]
  | cons k ks =>
      by_cases isA : k = a
      · subst isA
        obtain ⟨frame', rest, read, left⟩ :=
          Accepts.one k (n := n) [k] rfl [] ts ks (by simpa using same) trivial
        rw [read, Outcome.leadsTo, nextKind_eq_kinds, left]
        cases ks with
        | nil => simpa [List.cons_prefix_cons] using notEnd.symm
        | cons k' ks => simpa [List.cons_prefix_cons] using eq_comm
      · cases read : (one a).readAt n [] ts with
        | failed fault reported =>
            simp only [Outcome.leadsTo, Bool.false_eq_true, false_iff]
            rintro ⟨_, ahead⟩
            exact isA (List.cons.inj ahead).1.symm
        | done frame' rest reported =>
            obtain ⟨taken, rfl, -, word, -⟩ := Spells.one a _ _ _ _ _ read
            rw [kinds_append, show kinds taken = [a] from word] at same
            exact absurd (List.cons.inj same).1.symm isA

/-- Two tokens again and again, which are looked for ahead. -/
theorem accepts_pairs {a b : TokenKind} (notEnd : b ≠ .eof)
    (productive : (Form.repeated (one a) (· == b) (one a >> one b)).productive) :
    (Form.repeated (one a) (· == b) (one a >> one b)).Accepts n ({[a, b]})∗
      fun ks => ¬ [a, b] <+: ks := by
  have pair : (one a >> one b).Accepts n {[a, b]} fun _ => True := by
    rintro _ rfl
    exact (Accepts.one a).seq (Accepts.one b) (fun _ _ _ _ => trivial) [a, b]
      ⟨[a], rfl, [b], rfl, rfl⟩
  refine .repeated productive pair ?_ ?_ fun _ _ _ _ => trivial
  · rintro _ rfl ts ks same
    exact (leadsTo_one notEnd ts).mpr ⟨ks, same.symm⟩
  · intro ts stops
    rw [← Bool.not_eq_true, leadsTo_one notEnd]
    exact stops

end Form

/-! ## Types -/

/-- A name, or several with points between them. -/
def names : Language TokenKind := {[.identifier]} * ({[.dot, .identifier]})∗

/-- Brackets with nothing in them. -/
def brackets : Language TokenKind := ({[.lBracket, .rBracket]})∗

/-- A wildcard or a word of `L`. -/
def wildcardOr (L : Language TokenKind) : Language TokenKind := {[.question]} + L

/-- Words of `L` and wildcards between `<` and `>`. -/
def argumentsOf (L : Language TokenKind) : Language TokenKind :=
  {[.lt]} * ({[.gt]} + commaList (wildcardOr L) * {[.gt]})

/-- Types with a list of arguments of `args` or without. -/
def typesWith (args : Language TokenKind) : Language TokenKind := names * (1 + args) * brackets

/-- Types whose arguments are nested at most so deep. -/
def typeWords : Nat → Language TokenKind
  | 0 => typesWith 0
  | d + 1 => typesWith (argumentsOf (typeWords d))

/-- Lists of type arguments nested at most so deep. -/
def argumentWords : Nat → Language TokenKind
  | 0 => 0
  | d + 1 => argumentsOf (typeWords d)

theorem typeWords_eq (d : Nat) : typeWords d = typesWith (argumentWords d) := by cases d <;> rfl

/-- A type may end before these kinds. -/
def EndsType (ks : List TokenKind) : Prop :=
  ks.head? ≠ some .dot ∧ ks.head? ≠ some .lt ∧ ¬ [.lBracket, .rBracket] <+: ks

theorem endsType_cons {k : TokenKind} (h : k ≠ .dot ∧ k ≠ .lt ∧ k ≠ .lBracket)
    (ks : List TokenKind) : EndsType (k :: ks) := by
  refine ⟨by simpa using h.1, by simpa using h.2.1, fun pair => ?_⟩
  exact h.2.2 (List.cons_prefix_cons.mp pair).1.symm

/-! ### What words of types begin with -/

theorem cons_of_mem_names {w : List TokenKind} (h : w ∈ names) : ∃ v, w = .identifier :: v := by
  obtain ⟨_, rfl, v, -, rfl⟩ := h
  exact ⟨v, rfl⟩

theorem cons_of_mem_argumentsOf {L : Language TokenKind} {w : List TokenKind}
    (h : w ∈ argumentsOf L) : ∃ v, w = .lt :: v := by
  obtain ⟨_, rfl, v, -, rfl⟩ := h
  exact ⟨v, rfl⟩

theorem cons_of_mem_argumentWords {d : Nat} {w : List TokenKind} (h : w ∈ argumentWords d) :
    ∃ v, w = .lt :: v := by
  cases d with
  | zero => exact h.elim
  | succ d => exact cons_of_mem_argumentsOf h

theorem cons_of_mem_typesWith {args : Language TokenKind} {w : List TokenKind}
    (h : w ∈ typesWith args) : ∃ v, w = .identifier :: v := by
  obtain ⟨_, ⟨_, inNames, u, -, rfl⟩, v, -, rfl⟩ := h
  obtain ⟨t, rfl⟩ := cons_of_mem_names inNames
  exact ⟨t ++ u ++ v, by simp⟩

theorem cons_of_mem_typeWords {d : Nat} {w : List TokenKind} (h : w ∈ typeWords d) :
    ∃ v, w = .identifier :: v :=
  cons_of_mem_typesWith (typeWords_eq d ▸ h)

theorem eq_nil_or_cons_of_mem_brackets {w : List TokenKind} (h : w ∈ brackets) :
    w = [] ∨ ∃ v, w = .lBracket :: v := by
  obtain ⟨words, rfl, each⟩ := h
  cases words with
  | nil => exact .inl rfl
  | cons word words =>
      obtain rfl : word = [.lBracket, .rBracket] := each word (by simp)
      exact .inr ⟨_, rfl⟩

namespace Form

variable {n : Nat}

/-! ### Reading them -/

theorem typeParts_spells_of {args : Language TokenKind}
    (h : (enter .typeArguments).Spells n args) : typeParts.Spells n (typesWith args) := by
  have dots : (repeated (one .dot) (· == .identifier) (one .dot >> one .identifier)).Spells n _ :=
    .repeated (by decide) ((Spells.one .dot).seq (Spells.one .identifier))
  have square :
      (repeated (one .lBracket) (· == .rBracket) (one .lBracket >> one .rBracket)).Spells n _ :=
    .repeated (by decide) ((Spells.one .lBracket).seq (Spells.one .rBracket))
  have list : (whenNext (· == .lt) (enter .typeArguments)).Spells n (1 + args) := by
    rw [add_comm]
    exact .choose h .empty
  refine ((Spells.ofKind .identifier "type").seq (dots.seq (list.seq square))).mono (le_of_eq ?_)
  rw [singleton_mul_singleton, singleton_mul_singleton, typesWith, names, brackets, mul_assoc,
    mul_assoc]
  rfl

theorem typeArgument_spells {L : Language TokenKind} (h : typeParts.Spells n L) :
    typeArgument.Spells n (wildcardOr L) :=
  .choose (.one .question) h

theorem typeArguments_spells {L : Language TokenKind} (h : typeParts.Spells n L) :
    typeArguments.Spells n (argumentsOf L) := by
  have list := Spells.commaSeparated (by decide) (typeArgument_spells h)
  exact (Spells.one .lt).seq (.choose (.one .gt) (list.seq (.one .gt)))

theorem enter_typeArguments_spells (n : Nat) :
    (enter .typeArguments).Spells n (argumentWords n) := by
  induction n with
  | zero =>
      intro frame ts frame' rest reported done
      simp at done
  | succ n ih =>
      have inner := typeArguments_spells (typeParts_spells_of ih)
      rw [← typeWords_eq] at inner
      exact inner

/-- What is read of a type with `n` levels left nests its arguments at most `n` deep. -/
theorem typeParts_spells (n : Nat) : typeParts.Spells n (typeWords n) := by
  rw [typeWords_eq]
  exact typeParts_spells_of (enter_typeArguments_spells n)

theorem typeParts_accepts_of {args : Language TokenKind}
    (h : (enter .typeArguments).Accepts n args fun _ => True)
    (opens : ∀ w ∈ args, ∃ v, w = .lt :: v) :
    typeParts.Accepts n (typesWith args) EndsType := by
  have dots := accepts_pairs (n := n) (a := .dot) (b := .identifier) (by decide) (by decide)
  have square := accepts_pairs (n := n) (a := .lBracket) (b := .rBracket) (by decide) (by decide)
  have list : (whenNext (· == .lt) (enter .typeArguments)).Accepts n (args + 1)
      fun ks => ks.head? ≠ some .lt := by
    refine .ifNext (fun w inArgs frame ts ks same _ => h w inArgs frame ts ks same trivial)
      .empty ?_ ?_
    · intro w inArgs ks _
      obtain ⟨v, rfl⟩ := opens w inArgs
      rfl
    · rintro _ rfl ks notLt
      cases ks with
      | nil => rfl
      | cons k ks => simpa using notLt
  have name : (token (· == .identifier) "type").Accepts n {[.identifier]} fun _ => True :=
    .token _ rfl
  have tail : (whenNext (· == .lt) (enter .typeArguments) >>
      repeated (one .lBracket) (· == .rBracket) (one .lBracket >> one .rBracket)).Accepts n
        ((args + 1) * brackets) EndsType := by
    refine list.seq (square.weaken fun _ ends => ends.2.2) fun w inBrackets ks ends => ?_
    rcases eq_nil_or_cons_of_mem_brackets inBrackets with rfl | ⟨v, rfl⟩
    · exact ends.2.1
    · simp
  have whole := name.seq (dots.seq tail ?_) fun _ _ _ _ => trivial
  · rwa [← mul_assoc, ← mul_assoc, add_comm] at whole
  · rintro _ ⟨u, inList, v, inBrackets, rfl⟩ ks ends ⟨_, dot⟩
    have head : (u ++ v ++ ks).head? = some .dot := by rw [← dot]; rfl
    rcases inList with inArgs | rfl
    · obtain ⟨_, rfl⟩ := opens u inArgs
      simp at head
    · rcases eq_nil_or_cons_of_mem_brackets inBrackets with rfl | ⟨_, rfl⟩
      · exact ends.1 head
      · simp at head

theorem typeArgument_accepts {L : Language TokenKind} (h : typeParts.Accepts n L EndsType)
    (begins : ∀ w ∈ L, ∃ v, w = .identifier :: v) :
    typeArgument.Accepts n (wildcardOr L) EndsType := by
  refine .ifNext ((Accepts.one .question).weaken fun _ _ => trivial) h ?_ ?_
  · rintro _ rfl ks -
    rfl
  · intro w inL ks _
    obtain ⟨v, rfl⟩ := begins w inL
    rfl

theorem typeArguments_accepts {L : Language TokenKind} (h : typeParts.Accepts n L EndsType)
    (begins : ∀ w ∈ L, ∃ v, w = .identifier :: v) :
    typeArguments.Accepts n (argumentsOf L) fun _ => True := by
  have list : (commaSeparated typeArgument).Accepts n (commaList (wildcardOr L))
      fun ks => ks.head? = some .gt := by
    refine .commaSeparated (by decide) (typeArgument_accepts h begins) (endsType_cons (by decide))
      fun ks closes => ?_
    cases ks with
    | nil => simp at closes
    | cons k ks =>
        obtain rfl : k = .gt := by simpa using closes
        exact ⟨endsType_cons (by decide) ks, by simp⟩
  have inside : (ifNext (· == .gt) (one .gt) (commaSeparated typeArgument >> one .gt)).Accepts n
      ({[.gt]} + commaList (wildcardOr L) * {[.gt]}) fun _ => True := by
    refine .ifNext (.one .gt) (list.seq (.one .gt) ?_) ?_ ?_
    · rintro _ rfl ks -
      rfl
    · rintro _ rfl ks -
      rfl
    · rintro _ ⟨_, ⟨first, inL, more, -, rfl⟩, _, rfl, rfl⟩ ks -
      rcases inL with rfl | inL
      · rfl
      · obtain ⟨v, rfl⟩ := begins first inL
        rfl
  exact (Accepts.one .lt).seq inside fun _ _ _ _ => trivial

/-- A list of type arguments nested at most `n` deep is read with `n` levels left. -/
theorem enter_typeArguments_accepts (n : Nat) :
    (enter .typeArguments).Accepts n (argumentWords n) fun _ => True := by
  induction n with
  | zero => rintro _ ⟨⟩
  | succ n ih =>
      have inner := typeParts_accepts_of ih fun _ => cons_of_mem_argumentWords
      rw [← typeWords_eq] at inner
      exact typeArguments_accepts inner fun _ => cons_of_mem_typeWords

/-- A type whose arguments are nested at most `n` deep is read with `n` levels left. -/
theorem typeParts_accepts (n : Nat) : typeParts.Accepts n (typeWords n) EndsType := by
  rw [typeWords_eq]
  exact typeParts_accepts_of (enter_typeArguments_accepts n) fun _ => cons_of_mem_argumentWords

end Form

/-! ### Which words are types -/

/-- The tokens of types as words. -/
def typeAlphabet : Language TokenKind := {w | ∃ k, w = [k] ∧ isTypeToken k}

theorem letter_le {k : TokenKind} (h : isTypeToken k) : {[k]} ≤ typeAlphabet∗ := by
  refine le_trans ?_ le_kstar
  rintro _ rfl
  exact ⟨k, rfl, h⟩

theorem mul_le_alphabet {K L : Language TokenKind} (hK : K ≤ typeAlphabet∗)
    (hL : L ≤ typeAlphabet∗) : K * L ≤ typeAlphabet∗ := by
  rw [← kstar_mul_kstar]
  exact mul_le_mul' hK hL

theorem kstar_le_alphabet {L : Language TokenKind} (h : L ≤ typeAlphabet∗) :
    L∗ ≤ typeAlphabet∗ := by
  rw [← kstar_idem typeAlphabet]
  exact kstar_mono h

theorem typesWith_le_alphabet {args : Language TokenKind} (h : args ≤ typeAlphabet∗) :
    typesWith args ≤ typeAlphabet∗ := by
  have pair {a b : TokenKind} (ha : isTypeToken a) (hb : isTypeToken b) :
      {[a, b]} ≤ typeAlphabet∗ := by
    have both := mul_le_alphabet (letter_le ha) (letter_le hb)
    rwa [singleton_mul_singleton] at both
  exact mul_le_alphabet
    (mul_le_alphabet (mul_le_alphabet (letter_le rfl) (kstar_le_alphabet (pair rfl rfl)))
      (add_le one_le_kstar h)) (kstar_le_alphabet (pair rfl rfl))

theorem argumentsOf_le_alphabet {L : Language TokenKind} (h : L ≤ typeAlphabet∗) :
    argumentsOf L ≤ typeAlphabet∗ := by
  have piece : wildcardOr L ≤ typeAlphabet∗ := add_le (letter_le rfl) h
  exact mul_le_alphabet (letter_le rfl) (add_le (letter_le rfl) (mul_le_alphabet
    (mul_le_alphabet piece (kstar_le_alphabet (mul_le_alphabet (letter_le rfl) piece)))
    (letter_le rfl)))

theorem typeWords_le_alphabet (d : Nat) : typeWords d ≤ typeAlphabet∗ := by
  induction d with
  | zero => exact typesWith_le_alphabet bot_le
  | succ d ih => exact typesWith_le_alphabet (argumentsOf_le_alphabet ih)

/-- The kinds of a type are tokens of types. -/
theorem isTypeToken_of_mem {d : Nat} {w : List TokenKind} (h : w ∈ typeWords d) {k : TokenKind}
    (member : k ∈ w) : isTypeToken k := by
  obtain ⟨letters, rfl, each⟩ := typeWords_le_alphabet d h
  obtain ⟨letter, inLetters, inLetter⟩ := List.mem_flatten.mp member
  obtain ⟨k', rfl, isType⟩ := each letter inLetters
  rwa [List.mem_singleton.mp inLetter]

theorem typesWith_mono {K L : Language TokenKind} (h : K ≤ L) : typesWith K ≤ typesWith L := by
  unfold typesWith
  gcongr

theorem argumentsOf_mono {K L : Language TokenKind} (h : K ≤ L) :
    argumentsOf K ≤ argumentsOf L := by
  unfold argumentsOf wildcardOr commaList
  gcongr

/-- Deeper nesting allows for more words. -/
theorem typeWords_mono : Monotone typeWords := by
  refine monotone_nat_of_le_succ fun d => ?_
  induction d with
  | zero => exact typesWith_mono bot_le
  | succ d ih => exact typesWith_mono (argumentsOf_mono ih)

theorem cons_mem_commaList {L : Language TokenKind} {a w : List TokenKind} (ha : a ∈ L)
    (h : w ∈ commaList L) : a ++ .comma :: w ∈ commaList L := by
  obtain ⟨first, inL, _, ⟨words, rfl, each⟩, rfl⟩ := h
  refine ⟨a, ha, _, ⟨(.comma :: first) :: words, rfl, ?_⟩, by simp⟩
  exact List.forall_mem_cons.mpr ⟨⟨[.comma], rfl, first, inL, rfl⟩, each⟩

/-- A list has a part outside of a language, or it is a list of words of that language. -/
theorem mem_commaList_or {K : Language TokenKind} {w : List TokenKind} (h : w ∈ commaList K)
    (L : Language TokenKind) :
    w ∈ commaList L ∨
      ∃ pre a post, w = pre ++ a ++ post ∧ a ∈ K ∧ a ∉ L ∧ post.head?.all (· == .comma) := by
  obtain ⟨first, inK, _, ⟨words, rfl, each⟩, rfl⟩ := h
  induction words generalizing first with
  | nil =>
      by_cases inL : first ∈ L
      · exact .inl ⟨first, inL, [], Language.nil_mem_kstar _, rfl⟩
      · exact .inr ⟨[], first, [], by simp, inK, inL, rfl⟩
  | cons word words ih =>
      have ⟨head, later⟩ := List.forall_mem_cons.mp each
      obtain ⟨_, rfl, second, secondK, rfl⟩ := head
      by_cases inL : first ∈ L
      · rcases ih second secondK later with rest | ⟨pre, a, post, split, outside⟩
        · left
          simpa using cons_mem_commaList inL rest
        · refine .inr ⟨first ++ .comma :: pre, a, post, ?_, outside⟩
          simpa using congrArg (first ++ .comma :: ·) split
      · exact .inr ⟨[], first, .comma :: (second ++ words.flatten), by simp, inK, inL, rfl⟩

/-- Type arguments are outside of a language, or they are arguments from that language. -/
theorem mem_argumentsOf_or {K : Language TokenKind} {w : List TokenKind} (h : w ∈ argumentsOf K)
    (L : Language TokenKind) :
    w ∈ argumentsOf L ∨
      ∃ pre a k post, w = pre ++ a ++ k :: post ∧ a ∈ K ∧ a ∉ L ∧ (k = .comma ∨ k = .gt) := by
  obtain ⟨_, rfl, _, rfl | ⟨list, inList, _, rfl, rfl⟩, rfl⟩ := h
  · exact .inl ⟨[.lt], rfl, [.gt], .inl rfl, rfl⟩
  · rcases mem_commaList_or inList (wildcardOr L) with inL | ⟨pre, a, post, rfl, inK, notL, next⟩
    · exact .inl ⟨[.lt], rfl, _, .inr ⟨list, inL, [.gt], rfl, rfl⟩, rfl⟩
    · have inK : a ∈ K := inK.resolve_left fun wildcard => notL (.inl wildcard)
      have notL : a ∉ L := fun inL => notL (.inr inL)
      right
      cases post with
      | nil => exact ⟨.lt :: pre, a, .gt, [], by simp, inK, notL, .inr rfl⟩
      | cons k post =>
          obtain rfl : k = .comma := by simpa using next
          exact ⟨.lt :: pre, a, .comma, post ++ [.gt], by simp, inK, notL, .inl rfl⟩

/-- A type is nested no deeper than it has tokens. -/
theorem mem_typeWords_length {d : Nat} {w : List TokenKind} (h : w ∈ typeWords d) :
    w ∈ typeWords w.length := by
  induction d generalizing w with
  | zero => exact typeWords_mono (Nat.zero_le _) h
  | succ d ih =>
      obtain ⟨_, ⟨name, inNames, args, inArgs, rfl⟩, square, inBrackets, rfl⟩ := h
      obtain ⟨v, rfl⟩ := cons_of_mem_names inNames
      refine ⟨_, ⟨_, inNames, args, ?_, rfl⟩, square, inBrackets, rfl⟩
      rcases inArgs with empty | inArgs
      · exact .inl empty
      right
      rcases mem_argumentsOf_or inArgs (typeWords (v ++ args ++ square).length) with
        inside | ⟨pre, a, k, post, rfl, inside, outside, -⟩
      · exact inside
      · refine absurd (typeWords_mono ?_ (ih inside)) outside
        simp
        omega

theorem closes_of_mem_argumentWords {d : Nat} {w : List TokenKind} (h : w ∈ argumentWords d) :
    ∃ u, w = u ++ [.gt] := by
  cases d with
  | zero => exact h.elim
  | succ d =>
      obtain ⟨_, rfl, _, rfl | ⟨list, -, _, rfl, rfl⟩, rfl⟩ := h
      · exact ⟨[.lt], rfl⟩
      · exact ⟨.lt :: list, rfl⟩

/-- In a type whose arguments have arguments some `>` stands before a `>`, a comma or a bracket. -/
theorem closes_inside {d : Nat} {w : List TokenKind} (h : w ∈ typeWords d)
    (deep : w ∉ typeWords 1) :
    ∃ u k v, w = u ++ .gt :: k :: v ∧ (k = .gt ∨ k = .comma ∨ k = .lBracket) := by
  rw [typeWords_eq] at h
  obtain ⟨_, ⟨name, inNames, args, inArgs, rfl⟩, square, inBrackets, rfl⟩ := h
  have notShallow (shallow : args ∈ argumentWords 1) : False :=
    deep ⟨_, ⟨name, inNames, args, .inr shallow, rfl⟩, square, inBrackets, rfl⟩
  rcases inArgs with rfl | inArgs
  · exact absurd ⟨_, ⟨name, inNames, [], .inl rfl, rfl⟩, square, inBrackets, rfl⟩ deep
  cases d with
  | zero => exact inArgs.elim
  | succ d =>
      rcases mem_argumentsOf_or inArgs (typeWords 0) with shallow | ⟨pre, a, k, post, rfl, inside⟩
      · exact (notShallow shallow).elim
      -- The argument that has arguments ends with a `>` and brackets, or with the `>`.
      obtain ⟨typeWord, notPlain, next⟩ := inside
      rw [typeWords_eq] at typeWord
      obtain ⟨_, ⟨inner, inNames, more, inMore, rfl⟩, behind, inBehind, rfl⟩ := typeWord
      rcases inMore with rfl | inMore
      · exact absurd ⟨_, ⟨inner, inNames, [], .inl rfl, rfl⟩, behind, inBehind, rfl⟩ notPlain
      obtain ⟨u, rfl⟩ := closes_of_mem_argumentWords inMore
      rcases eq_nil_or_cons_of_mem_brackets inBehind with rfl | ⟨v, rfl⟩
      · refine ⟨name ++ pre ++ inner ++ u, k, post ++ square, by simp, ?_⟩
        exact next.elim (.inr ∘ .inl) .inl
      · exact ⟨name ++ pre ++ inner ++ u, .lBracket, v ++ k :: post ++ square, by simp,
          .inr (.inr rfl)⟩

/-! ### Looking for them ahead -/

namespace Form

variable {n : Nat} {f : Form} {admits : TokenKind → Bool} {L : Language TokenKind}
  {stop : List TokenKind → Prop}

/-- A look ahead succeeds where a word of the form stands before a token of an admitted kind. -/
theorem leadsTo_iff (spells : f.Spells n L) (accepts : f.Accepts n L stop)
    (atEnd : admits .eof = false) (stops : ∀ k ks, admits k → stop (k :: ks)) (ts : List Token) :
    (f.readAt n [] ts).leadsTo admits = true ↔
      ∃ w ∈ L, ∃ k ks, kinds ts = w ++ k :: ks ∧ admits k := by
  constructor
  · intro looked
    cases read : f.readAt n [] ts with
    | failed fault reported => simp [read, Outcome.leadsTo] at looked
    | done frame rest reported =>
        obtain ⟨taken, rfl, -, word, -⟩ := spells _ _ _ _ _ read
        rw [read, Outcome.leadsTo, nextKind_eq_kinds] at looked
        cases behind : kinds rest with
        | nil => simp [behind, atEnd] at looked
        | cons k ks => exact ⟨_, word, k, ks, by simp [behind], by simpa [behind] using looked⟩
  · rintro ⟨w, word, k, ks, same, admitted⟩
    obtain ⟨frame, rest, read, behind⟩ := accepts w word [] ts _ same (stops k ks admitted)
    rw [read, Outcome.leadsTo, nextKind_eq_kinds, behind]
    exact admitted

/-- A type and a name are ahead. -/
theorem declarationAhead_iff (n : Nat) (ts : List Token) :
    (typeParts.readAt n [] ts).leadsTo (· == .identifier) = true ↔
      ∃ w ∈ typeWords n, ∃ ks, kinds ts = w ++ .identifier :: ks := by
  rw [leadsTo_iff (typeParts_spells n) (typeParts_accepts n) rfl]
  · simp
  · intro k ks isName
    obtain rfl : k = .identifier := by simpa using isName
    exact endsType_cons (by decide) ks

/-- A type, a name and a colon are ahead. -/
theorem eachAhead_iff (n : Nat) (ts : List Token) :
    ((typeParts >> one .identifier).readAt n [] ts).leadsTo (· == .colon) = true ↔
      ∃ w ∈ typeWords n, ∃ ks, kinds ts = w ++ .identifier :: .colon :: ks := by
  have accepts := (typeParts_accepts n).seq (Accepts.one .identifier)
    (by rintro _ rfl ks -; exact endsType_cons (by decide) ks)
  rw [leadsTo_iff ((typeParts_spells n).seq (.one .identifier)) accepts rfl fun _ _ _ => trivial]
  constructor
  · rintro ⟨_, ⟨w, word, _, rfl, rfl⟩, k, ks, same, isColon⟩
    obtain rfl : k = .colon := by simpa using isColon
    exact ⟨w, word, ks, by simpa using same⟩
  · rintro ⟨w, word, ks, same⟩
    exact ⟨_, ⟨w, word, _, rfl, rfl⟩, .colon, ks, by simpa using same, rfl⟩

/-- A type in parentheses is ahead and what may be cast to it. -/
theorem castAhead_iff (n : Nat) (ts : List Token) :
    (castAhead.readAt n [] ts).leadsTo startsCastOperand = true ↔
      ∃ w ∈ typeWords n, ∃ k ks, kinds ts = .lParen :: (w ++ .rParen :: k :: ks) ∧
        startsCastOperand k := by
  have closed := (typeParts_accepts n).seq (Accepts.one .rParen)
    (by rintro _ rfl ks -; exact endsType_cons (by decide) ks)
  have accepts := (Accepts.one .lParen).seq closed fun _ _ _ _ => trivial
  have spells := (Spells.one (n := n) .lParen).seq ((typeParts_spells n).seq (.one .rParen))
  rw [castAhead, leadsTo_iff spells accepts rfl fun _ _ _ => trivial]
  constructor
  · rintro ⟨_, ⟨_, rfl, _, ⟨w, word, _, rfl, rfl⟩, rfl⟩, k, ks, same, starts⟩
    exact ⟨w, word, k, ks, by simpa using same, starts⟩
  · rintro ⟨w, word, k, ks, same, starts⟩
    exact ⟨_, ⟨_, rfl, _, ⟨w, word, _, rfl, rfl⟩, rfl⟩, k, ks, by simpa using same, starts⟩

/-- Where a type ends is known from what it begins with. -/
theorem typeWord_unique {v w ks ks' : List TokenKind} {ts : List Token} (hv : v ∈ typeWords n)
    (hw : w ∈ typeWords n) (split : kinds ts = v ++ ks) (split' : kinds ts = w ++ ks')
    (ends : EndsType ks) (ends' : EndsType ks') : v = w := by
  obtain ⟨frame, rest, read, behind⟩ := typeParts_accepts n v hv [] ts ks split ends
  obtain ⟨frame', rest', read', behind'⟩ := typeParts_accepts n w hw [] ts ks' split' ends'
  rw [read] at read'
  cases read'
  rw [behind] at behind'
  subst behind'
  exact List.append_cancel_right (split.symm.trans split')

end Form

end QuestScript.Grammar
