/-
# QuestScript.Proofs.Limits -- what a limit on nesting changes

With more levels left a form is read in the same way, unless reading ran out of levels
(`Form.Steady`).  That is clear of every form but those that look ahead for a type: a look
ahead that runs out of levels answers no, and another branch is taken.  There are three of
them, for casts, for declarations and for loops over elements, and in each of them the other
branch reads an expression.  Where no level is left that is too deep as well.  Otherwise the
type has arguments with arguments, and no expression begins like that (`Calm.not_deep`): the
other branch cannot come to its end without a report.

So a script that is accepted is accepted with more levels, as the same tree
(`Parsed.ofTokens_raise`).  What is reported of a script that only needs more levels is
another matter: it says so if no type in the script has arguments with arguments
(`Parsed.ofTokens_tooDeep`), but not always (`Parsed.ofText_misleading`).
-/
import QuestScript.Proofs.ExpressionWords

namespace QuestScript

set_option autoImplicit false

namespace Grammar

/-! ## Excuses -/

/-- The faults of reading, reported or final. -/
def Outcome.faults : Outcome → List Fault
  | .done _ _ reported => reported
  | .failed fault reported => reported ++ [fault]

/-- A type whose arguments have arguments stands somewhere in the tokens. -/
def Crowded (ts : List Token) : Prop :=
  ∃ us, us <:+ ts ∧ ∃ d, ∃ w ∈ typeWords d, w ∉ typeWords 1 ∧ w <+: kinds us

/-- Reading the tokens found a fault, and it was for want of levels or may have been. -/
def Outcome.Excused (ts : List Token) (o : Outcome) : Prop :=
  ∃ fault ∈ o.faults, fault.cause = .tooDeep ∨ Crowded ts

theorem Crowded.of_suffix {ts rest : List Token} (h : Crowded rest) (suffix : rest <:+ ts) :
    Crowded ts :=
  let ⟨us, inside, found⟩ := h
  ⟨us, inside.trans suffix, found⟩

/-- Where such a type stands some `>` stands before a `>`, a comma or a bracket. -/
theorem Crowded.closes {ts : List Token} (h : Crowded ts) :
    ∃ k ∈ [TokenKind.gt, .comma, .lBracket], [.gt, k] <:+: kinds ts := by
  obtain ⟨us, ⟨before, rfl⟩, d, w, word, deep, behind, split⟩ := h
  obtain ⟨u, k, v, rfl, next⟩ := closes_inside word deep
  exact ⟨k, by simpa using next, kinds before ++ u, v ++ behind, by simp [← split]⟩

namespace Outcome

variable {o : Outcome} {ts rest : List Token} {frame : List Tree} {reported : List Fault}

theorem Excused.of_suffix (h : o.Excused rest) (suffix : rest <:+ ts) : o.Excused ts :=
  let ⟨fault, member, why⟩ := h
  ⟨fault, member, why.imp_right fun crowded => crowded.of_suffix suffix⟩

theorem Excused.andThen (h : o.Excused ts) (next : Reader) : (o.andThen next).Excused ts := by
  obtain ⟨fault, member, why⟩ := h
  refine ⟨fault, ?_, why⟩
  cases o with
  | failed last reported => exact member
  | done frame rest reported =>
      simp only [Outcome.andThen]
      cases next frame rest <;> simp_all [faults]

theorem Excused.into (h : o.Excused ts) (outer : List Tree) : (o.into outer).Excused ts := by
  cases o <;> exact h

theorem Excused.orElse (h : o.Excused ts) (skip : List Token → Outcome) :
    (o.orElse skip).Excused ts := by
  obtain ⟨fault, member, why⟩ := h
  refine ⟨fault, ?_, why⟩
  cases o with
  | done frame rest reported => exact member
  | failed last reported =>
      have inside : fault ∈ reported ∨ fault = last := by simpa [faults] using member
      simp only [Outcome.orElse]
      cases skip last.rest <;> simp [faults] <;> tauto

/-- What is excused behind a form is excused for both. -/
theorem excused_behind {next : Reader} (done : o = .done frame rest reported)
    (h : (next frame rest).Excused rest) (suffix : rest <:+ ts) : (o.andThen next).Excused ts := by
  obtain ⟨fault, member, why⟩ := h.of_suffix suffix
  refine ⟨fault, ?_, why⟩
  subst done
  simp only [Outcome.andThen]
  cases later : next frame rest <;> simp_all [faults]

end Outcome

/-- Two outcomes are the same, or the first has an excuse. -/
def Outcome.Persists (ts : List Token) (o o' : Outcome) : Prop := o = o' ∨ o.Excused ts

theorem Outcome.Persists.andThen {o o' : Outcome} {next next' : Reader} {ts : List Token}
    (h : o.Persists ts o') (behind : ∀ frame rest reported, o = .done frame rest reported →
      rest <:+ ts ∧ (next frame rest).Persists rest (next' frame rest)) :
    (o.andThen next).Persists ts (o'.andThen next') := by
  rcases h with rfl | excused
  · cases o with
    | failed fault reported => exact .inl rfl
    | done frame rest reported =>
        obtain ⟨suffix, same | excused⟩ := behind frame rest reported rfl
        · left
          simp only [Outcome.andThen, same]
        · exact .inr (Outcome.excused_behind rfl excused suffix)
  · exact .inr (excused.andThen next)

theorem Outcome.Persists.orElse {o o' : Outcome} {skip skip' : List Token → Outcome}
    {ts : List Token} (h : o.Persists ts o')
    (behind : ∀ fault reported, o = .failed fault reported →
      fault.rest <:+ ts ∧ (skip fault.rest).Persists fault.rest (skip' fault.rest)) :
    (o.orElse skip).Persists ts (o'.orElse skip') := by
  rcases h with rfl | excused
  · cases o with
    | done frame rest reported => exact .inl rfl
    | failed last reported =>
        obtain ⟨suffix, same | excused⟩ := behind last reported rfl
        · left
          simp only [Outcome.orElse, same]
        · right
          obtain ⟨fault, member, why⟩ := excused.of_suffix suffix
          refine ⟨fault, ?_, why⟩
          simp only [Outcome.orElse]
          cases later : skip last.rest <;> simp_all [faults]
  · exact .inr (excused.orElse skip)

/-! ## Forms that do not recur -/

namespace Form

/-- The form enters nothing. -/
def levelFree : Form → Bool
  | .enter _ => false
  | .seq first second => first.levelFree && second.levelFree
  | .frame body => body.levelFree
  | .choose look _ yes no => look.levelFree && yes.levelFree && no.levelFree
  | .repeated look _ body => look.levelFree && body.levelFree
  | .recover body skip => body.levelFree && skip.levelFree
  | _ => true

/-- The form looks ahead with forms that enter nothing. -/
def flat : Form → Bool
  | .seq first second => first.flat && second.flat
  | .frame body => body.flat
  | .choose look _ yes no => look.levelFree && yes.flat && no.flat
  | .repeated look _ body => look.levelFree && body.flat
  | .recover body skip => body.flat && skip.flat
  | _ => true

/-- It does not matter to a form that enters nothing how entries are read. -/
theorem read_of_levelFree {f : Form} (h : f.levelFree) (inner inner' : Entry → Reader) :
    f.read inner = f.read inner' := by
  induction f with
  | enter entry => simp [levelFree] at h
  | seq first second ihFirst ihSecond =>
      simp only [levelFree, Bool.and_eq_true] at h
      funext frame ts
      simp only [read, ihFirst h.1, ihSecond h.2]
  | frame body ih =>
      funext frame ts
      simp only [read, ih h]
  | choose look admits yes no ihLook ihYes ihNo =>
      simp only [levelFree, Bool.and_eq_true] at h
      funext frame ts
      simp only [read, ihLook h.1.1, ihYes h.1.2, ihNo h.2]
  | repeated look admits body ihLook ihBody =>
      simp only [levelFree, Bool.and_eq_true] at h
      funext frame ts
      simp only [read, ihLook h.1, ihBody h.2]
  | recover body skip ihBody ihSkip =>
      simp only [levelFree, Bool.and_eq_true] at h
      funext frame ts
      simp only [read, ihBody h.1, ihSkip h.2]
  | _ => rfl

theorem readAt_of_levelFree {f : Form} (h : f.levelFree) (n m : Nat) : f.readAt n = f.readAt m :=
  read_of_levelFree h _ _

/-! ## Steady forms -/

/-- With `d` more levels the form is read in the same way, unless there is an excuse. -/
structure Steady (n d : Nat) (f : Form) : Prop where
  productive : f.productive
  persists : ∀ frame ts, (f.readAt n frame ts).Persists ts (f.readAt (n + d) frame ts)

variable {n d : Nat} {f first second look yes no body skip : Form} {admits : TokenKind → Bool}

theorem suffix_of_done (productive : f.productive) {frame frame' : List Tree}
    {ts rest : List Token} {reported : List Fault}
    (done : f.readAt n frame ts = .done frame' rest reported) : rest <:+ ts := by
  have suffix := readAt_suffix productive n frame ts
  rwa [done] at suffix

theorem Steady.of_levelFree (h : f.levelFree) (productive : f.productive) : f.Steady n d :=
  ⟨productive, fun frame ts => .inl (by rw [readAt_of_levelFree h n (n + d)])⟩

theorem Steady.seq (h₁ : first.Steady n d) (h₂ : second.Steady n d) :
    (first >> second).Steady n d where
  productive := Bool.and_eq_true_iff.mpr ⟨h₁.productive, h₂.productive⟩
  persists frame ts := (h₁.persists frame ts).andThen fun frame' rest _ done =>
    ⟨suffix_of_done h₁.productive done, h₂.persists frame' rest⟩

theorem Steady.frame (h : body.Steady n d) : (Form.frame body).Steady n d where
  productive := h.productive
  persists outer ts := by
    rw [readAt_frame, readAt_frame]
    exact (h.persists [] ts).imp (fun same => by rw [same]) fun excused => excused.into outer

/-- A choice is steady if its look ahead finds no less with more levels, and if there is an
excuse wherever it finds more. -/
theorem Steady.choose (hYes : yes.Steady n d) (hNo : no.Steady n d) (productive : look.productive)
    (up : ∀ ts, (look.readAt n [] ts).leadsTo admits = true →
      (look.readAt (n + d) [] ts).leadsTo admits = true)
    (cut : ∀ frame ts, (look.readAt n [] ts).leadsTo admits = false →
      (look.readAt (n + d) [] ts).leadsTo admits = true → (no.readAt n frame ts).Excused ts) :
    (choose look admits yes no).Steady n d where
  productive := by simp [Form.productive, productive, hYes.productive, hNo.productive]
  persists frame ts := by
    rw [readAt_choose, readAt_choose]
    cases low : (look.readAt n [] ts).leadsTo admits with
    | true => simpa [up ts low] using hYes.persists frame ts
    | false =>
        cases high : (look.readAt (n + d) [] ts).leadsTo admits with
        | true => exact .inr (cut frame ts low high)
        | false => exact hNo.persists frame ts

/-- A look ahead without levels finds the same with more levels. -/
theorem Steady.choose_levelFree (hYes : yes.Steady n d) (hNo : no.Steady n d)
    (productive : look.productive) (free : look.levelFree) :
    (Form.choose look admits yes no).Steady n d := by
  have same := readAt_of_levelFree free n (n + d)
  refine .choose hYes hNo productive (fun ts looked => same ▸ looked) fun frame ts low high => ?_
  rw [← same, low] at high
  simp at high

theorem Steady.ifNext (hYes : yes.Steady n d) (hNo : no.Steady n d) :
    (Form.ifNext admits yes no).Steady n d :=
  .choose_levelFree hYes hNo rfl rfl

theorem repeated_persists (productive : (repeated look admits body).productive)
    (free : look.levelFree) (h : body.Steady n d) (frame : List Tree) (ts : List Token) :
    ((repeated look admits body).readAt n frame ts).Persists ts
      ((repeated look admits body).readAt (n + d) frame ts) := by
  rw [readAt_repeated productive, readAt_repeated productive, readAt_of_levelFree free (n + d) n]
  split
  · rename_i looked
    refine (h.persists frame ts).andThen fun frame' rest reported done =>
      ⟨suffix_of_done h.productive done, ?_⟩
    have shorter : Shorter rest ts := shorter_of_round productive looked done
    exact repeated_persists productive free h frame' rest
  · exact .inl rfl
termination_by (significant ts).length
decreasing_by exact shorter

theorem Steady.recover (hBody : body.Steady n d) (hSkip : skip.Steady n d) :
    (Form.recover body skip).Steady n d where
  productive := Bool.and_eq_true_iff.mpr ⟨hBody.productive, hSkip.productive⟩
  persists frame ts := by
    rw [readAt_recover, readAt_recover]
    refine (hBody.persists frame ts).orElse fun fault reported failed => ?_
    have suffix := readAt_suffix hBody.productive n frame ts
    rw [failed] at suffix
    exact ⟨suffix, hSkip.persists frame fault.rest⟩

/-- A form that looks ahead without entering anything is steady if entries are. -/
theorem Steady.of_flat (entries : ∀ entry, (enter entry).Steady n d) (h : f.flat)
    (productive : f.productive) : f.Steady n d := by
  induction f with
  | enter entry => exact entries entry
  | seq first second ihFirst ihSecond =>
      simp only [flat, Form.productive, Bool.and_eq_true] at h productive
      exact (ihFirst h.1 productive.1).seq (ihSecond h.2 productive.2)
  | frame body ih => exact (ih h productive).frame
  | choose look admits yes no _ ihYes ihNo =>
      simp only [flat, Form.productive, Bool.and_eq_true] at h productive
      exact .choose_levelFree (ihYes h.1.2 productive.1.2) (ihNo h.2 productive.2)
        productive.1.1 h.1.1
  | repeated look admits body _ ihBody =>
      have parts := productive
      simp only [flat, Form.productive, Bool.and_eq_true] at h parts
      exact ⟨productive, repeated_persists productive h.1 (ihBody h.2 parts.1.2)⟩
  | recover body skip ihBody ihSkip =>
      simp only [flat, Form.productive, Bool.and_eq_true] at h productive
      exact (ihBody h.1 productive.1).recover (ihSkip h.2 productive.2)
  | _ => exact .of_levelFree rfl rfl

/-- What is read like a steady form is steady. -/
theorem Steady.congr {g : Form} (h : g.Steady n d) (productive : f.productive)
    (same : ∀ m frame ts, f.readAt m frame ts = g.readAt m frame ts) : f.Steady n d where
  productive := productive
  persists frame ts := by
    rw [same, same]
    exact h.persists frame ts

/-! ## Looking ahead for types -/

theorem typeLook_mono {w : List TokenKind} (h : w ∈ typeWords n) : w ∈ typeWords (n + d) :=
  typeWords_mono (Nat.le_add_right n d) h

/-- Tokens that begin with a type that needs more than `n` levels. -/
def TypeBeyond (n : Nat) (w : List TokenKind) (ts : List Token) : Prop :=
  (∃ m, w ∈ typeWords m) ∧ w ∉ typeWords n ∧ w <+: kinds ts

/-- A form that fails before a type that needs more than the levels left has an excuse, if it
fails for want of levels where none is left. -/
theorem excused_of_beyond {n : Nat} {f : Form} {frame : List Tree} {ts us : List Token}
    {w : List TokenKind} (beyond : TypeBeyond n w us) (suffix : us <:+ ts)
    (zero : n = 0 → ∃ fault ∈ (f.readAt n frame ts).faults, fault.cause = .tooDeep)
    (fails : w ∉ typeWords 1 → ∀ frame' rest, f.readAt n frame ts ≠ .done frame' rest []) :
    (f.readAt n frame ts).Excused ts := by
  cases n with
  | zero =>
      obtain ⟨fault, member, cause⟩ := zero rfl
      exact ⟨fault, member, .inl cause⟩
  | succ n =>
      obtain ⟨⟨m, word⟩, notShallow, starts⟩ := beyond
      have deep : w ∉ typeWords 1 := fun one =>
        notShallow (typeWords_mono (Nat.succ_le_succ (Nat.zero_le n)) one)
      have crowded : Crowded ts := ⟨us, suffix, m, w, word, deep, starts⟩
      cases read : f.readAt (n + 1) frame ts with
      | failed fault reported => exact ⟨fault, by simp [Outcome.faults], .inr crowded⟩
      | done frame' rest reported =>
          cases reported with
          | nil => exact absurd read (fails deep frame' rest)
          | cons fault reported => exact ⟨fault, by simp [Outcome.faults], .inr crowded⟩

/-- What stands before a token of no type does not begin with a type whose arguments have
arguments, if it is calm. -/
theorem shallow_of_calm {m : Nat} {v w ks ks' : List TokenKind} {k : TokenKind} (calm : Calm v)
    (word : w ∈ typeWords m) (split : w ++ ks = v ++ k :: ks') (notType : isTypeToken k = false) :
    w ∈ typeWords 1 := by
  rcases List.append_eq_append_iff.mp split with ⟨a, rfl, -⟩ | ⟨a, rfl, rest⟩
  · exact calm.not_deep word
  · cases a with
    | nil => exact Calm.not_deep (v := []) (by simpa using calm) word
    | cons k a =>
        obtain ⟨rfl, -⟩ := List.cons.inj rest
        rw [isTypeToken_of_mem word (by simp)] at notType
        simp at notType

/-- Before a type beyond the levels left no expression can be read that a token of no type has
to follow. -/
theorem excused_of_expression {w : List TokenKind} {ts : List Token} {k : TokenKind}
    {f tail : Form} (frame : List Tree) (beyond : TypeBeyond n w ts)
    (notType : isTypeToken k = false)
    (zero : ∃ fault, f.readAt 0 frame ts = .failed fault [] ∧ fault.cause = .tooDeep)
    (calm : ∀ frame' rest, f.readAt n frame ts = .done frame' rest [] →
      ∃ taken, ts = taken ++ rest ∧ Calm (kinds taken))
    (next : ∀ frame ts frame' rest, tail.readAt n frame ts = .done frame' rest [] →
      ∃ ks, kinds ts = k :: ks) :
    ((f >> tail).readAt n frame ts).Excused ts := by
  refine excused_of_beyond beyond List.suffix_rfl ?_ ?_
  · rintro rfl
    obtain ⟨fault, failed, cause⟩ := zero
    refine ⟨fault, ?_, cause⟩
    simp [show (f >> tail).readAt 0 frame ts = (f.readAt 0 frame ts).andThen (tail.readAt 0) from
      rfl, failed, Outcome.andThen, Outcome.faults]
  · intro deep frame' rest done
    obtain ⟨middle, between, read, later⟩ := seq_clean.mp done
    obtain ⟨taken, rfl, isCalm⟩ := calm _ _ read
    obtain ⟨ks', behind⟩ := next _ _ _ _ later
    obtain ⟨⟨m, word⟩, -, ks, starts⟩ := beyond
    rw [kinds_append, behind] at starts
    exact deep (shallow_of_calm isCalm word starts notType)

theorem nextKind_of_beyond {w : List TokenKind} {ts : List Token} (h : TypeBeyond n w ts) :
    nextKind ts = .identifier := by
  obtain ⟨⟨m, word⟩, -, ks, starts⟩ := h
  obtain ⟨v, rfl⟩ := cons_of_mem_typeWords word
  rw [nextKind_eq_kinds, ← starts]
  rfl

/-- A statement that begins with a type beyond the levels left is not an expression. -/
theorem expressionStatement_excused {w : List TokenKind} {ts : List Token} (frame : List Tree)
    (beyond : TypeBeyond n w ts) : (expressionStatement.readAt n frame ts).Excused ts := by
  have parts : ((expression >> one .semi).readAt n [] ts).Excused ts :=
    excused_of_expression [] beyond rfl ⟨_, rfl, rfl⟩ (fun _ _ => expression_calm)
      fun _ _ _ _ token => ⟨_, kinds_of_one token⟩
  have opens : (unlessNext (· == .semi) expression).readAt n [] ts = expression.readAt n [] ts := by
    rw [unlessNext, readAt_ifNext, nextKind_of_beyond beyond]
    rfl
  have same : (unlessNext (· == .semi) expression >> one .semi).readAt n [] ts =
      (expression >> one .semi).readAt n [] ts :=
    congrArg (Outcome.andThen · _) opens
  rw [← same] at parts
  exact Outcome.Excused.into (parts.andThen ((close .expressionStatement).readAt n)) frame

/-- A loop that begins with a type beyond the levels left does not begin with expressions. -/
theorem forInit_excused {w : List TokenKind} {ts : List Token} (frame : List Tree) (tail : Form)
    (beyond : TypeBeyond n w ts) :
    (((Form.trivia >> node .forInit expressions) >> one .semi >> tail).readAt n frame ts).Excused
      ts := by
  refine excused_of_expression (k := .semi) frame beyond rfl ⟨_, rfl, rfl⟩ ?_ ?_
  · intro frame' rest done
    obtain ⟨_, _, start, node⟩ := seq_clean.mp done
    cases start
    obtain ⟨inner, body, rfl⟩ := Outcome.into_eq_done.mp node
    obtain ⟨_, _, read, closed⟩ := seq_clean.mp body
    cases closed
    obtain ⟨taken, split, calm⟩ := expressions_calm read
    refine ⟨leadingTrivia ts ++ taken, ?_, by simpa using calm⟩
    rw [List.append_assoc, ← split, leadingTrivia_append_afterTrivia]
  · intro frame ts frame' rest done
    obtain ⟨_, _, token, -⟩ := seq_clean.mp done
    exact ⟨_, kinds_of_one token⟩

/-- A type beyond the levels left in parentheses is not an expression in parentheses. -/
theorem primary_excused {w ks : List TokenKind} {ts : List Token} (frame : List Tree)
    (word : ∃ m, w ∈ typeWords m) (notShallow : w ∉ typeWords n)
    (split : kinds ts = .lParen :: (w ++ .rParen :: ks)) :
    ((primary >> suffixes).readAt n frame ts).Excused ts := by
  have opens : primary.readAt n frame ts =
      (one .lParen >> trivia >> expression >> one .rParen >> close .primary).readAt n frame ts := by
    simp only [primary, readAt_ifNext, nextKind_eq_kinds, split]
    rfl
  have behind (frame : List Tree) (us : List Token) (inside : kinds us = w ++ .rParen :: ks) :
      ((trivia >> expression >> one .rParen >> close .primary).readAt n frame us).Excused us := by
    have beyond : TypeBeyond n w (afterTrivia us) :=
      ⟨word, notShallow, .rParen :: ks, by simp [inside]⟩
    refine Outcome.excused_behind rfl (excused_of_expression (k := .rParen) _ beyond rfl
      ⟨_, rfl, rfl⟩ (fun _ _ => expression_calm) ?_) (afterTrivia_suffix us)
    intro frame ts frame' rest done
    obtain ⟨_, _, token, -⟩ := seq_clean.mp done
    exact ⟨_, kinds_of_one token⟩
  obtain ⟨middle, between, token, left⟩ := Accepts.one .lParen (n := n) [.lParen] rfl frame ts
    (w ++ .rParen :: ks) split trivial
  have parts : ((one .lParen >> trivia >> expression >> one .rParen >> close .primary).readAt n
      frame ts).Excused ts :=
    Outcome.excused_behind token (behind middle between left)
      (suffix_of_done (f := one .lParen) rfl token)
  rw [← opens] at parts
  exact parts.andThen (suffixes.readAt n)

/-! ## The grammar is steady -/

theorem declaration_up (ts : List Token)
    (looked : (typeParts.readAt n [] ts).leadsTo (· == .identifier) = true) :
    (typeParts.readAt (n + d) [] ts).leadsTo (· == .identifier) = true := by
  obtain ⟨w, word, rest⟩ := (declarationAhead_iff n ts).mp looked
  exact (declarationAhead_iff (n + d) ts).mpr ⟨w, typeLook_mono word, rest⟩

theorem beyond_of_declaration {ts : List Token}
    (low : (typeParts.readAt n [] ts).leadsTo (· == .identifier) = false)
    (high : (typeParts.readAt (n + d) [] ts).leadsTo (· == .identifier) = true) :
    ∃ w, TypeBeyond n w ts := by
  obtain ⟨w, word, ks, split⟩ := (declarationAhead_iff (n + d) ts).mp high
  refine ⟨w, ⟨_, word⟩, fun inside => ?_, _, split.symm⟩
  rw [(declarationAhead_iff n ts).mpr ⟨w, inside, ks, split⟩] at low
  simp at low

/-- What stands in the header of a loop behind what it begins with. -/
def afterInit : Form :=
  unlessNext (· == .semi) (Form.trivia >> node .forCondition expression) >> one .semi >>
    unlessNext (· == .rParen) (Form.trivia >> node .forUpdate expressions)

/-- The header of a loop, where it is known what follows when it is chosen what it begins with. -/
def chosenHeader : Form :=
  ifNext (· == .semi) (one .semi >> afterInit)
    (ifDeclaration ((Form.trivia >> node .forInit declarators) >> one .semi >> afterInit)
      ((Form.trivia >> node .forInit expressions) >> one .semi >> afterInit))

theorem readAt_classicHeader (n : Nat) (frame : List Tree) (ts : List Token) :
    classicHeader.readAt n frame ts = chosenHeader.readAt n frame ts := by
  have look : (typeParts.readAt n [] (afterTrivia ts)).leadsTo (· == .identifier) =
      (typeParts.readAt n [] ts).leadsTo (· == .identifier) := by
    rw [Bool.eq_iff_iff, declarationAhead_iff, declarationAhead_iff, kinds_afterTrivia]
  have init (branch : Form)
      (chosen : (ifDeclaration declarators expressions).readAt n [] (afterTrivia ts) =
        branch.readAt n [] (afterTrivia ts)) :
      (Form.trivia >> forInit).readAt n frame ts =
        (Form.trivia >> node .forInit branch).readAt n frame ts :=
    calc (Form.trivia >> forInit).readAt n frame ts
      _ = forInit.readAt n (frame ++ (leadingTrivia ts).map Tree.leaf) (afterTrivia ts) :=
          Outcome.done_andThen _ _ _
      _ = (node .forInit branch).readAt n (frame ++ (leadingTrivia ts).map Tree.leaf)
            (afterTrivia ts) :=
          congrArg (fun o => (Outcome.andThen o ((close .forInit).readAt n)).into
            (frame ++ (leadingTrivia ts).map Tree.leaf)) chosen
      _ = (Form.trivia >> node .forInit branch).readAt n frame ts :=
          (Outcome.done_andThen _ _ _).symm
  have start : classicHeader.readAt n frame ts =
      ((unlessNext (· == .semi) (Form.trivia >> forInit)).readAt n frame ts).andThen
        ((one .semi >> afterInit).readAt n) := rfl
  rw [start, unlessNext, readAt_ifNext, chosenHeader, readAt_ifNext]
  split
  · exact Outcome.done_andThen _ _ _
  · rw [ifDeclaration, readAt_choose]
    split
    · rename_i looked
      rw [init declarators (by rw [ifDeclaration, readAt_choose, look, if_pos looked])]
      rfl
    · rename_i failed
      rw [init expressions (by rw [ifDeclaration, readAt_choose, look, if_neg failed])]
      rfl

/-- A loop over a type beyond the levels left is not one with a condition. -/
theorem classicHeader_excused {w ks : List TokenKind} {ts : List Token} (frame : List Tree)
    (beyond : TypeBeyond n w ts) (split : kinds ts = w ++ .identifier :: ks) :
    (classicHeader.readAt n frame ts).Excused ts := by
  have notAhead : (typeParts.readAt n [] ts).leadsTo (· == .identifier) = false := by
    rw [← Bool.not_eq_true, declarationAhead_iff]
    rintro ⟨v, inside, ks', split'⟩
    obtain ⟨⟨m, word⟩, outside, -⟩ := beyond
    have same : v = w :=
      typeWord_unique (typeWords_mono (Nat.le_max_left n m) inside)
        (typeWords_mono (Nat.le_max_right n m) word) split' split (endsType_cons (by decide) ks')
        (endsType_cons (by decide) ks)
    exact outside (same ▸ inside)
  rw [readAt_classicHeader, chosenHeader, readAt_ifNext, nextKind_of_beyond beyond, ifDeclaration,
    readAt_choose, notAhead]
  exact forInit_excused frame afterInit beyond

variable (entries : ∀ entry, (enter entry).Steady n d)
include entries

/-- A cast that is not seen for want of levels is read as an expression in parentheses. -/
theorem operand_steady : operand.Steady n d := by
  have flatly {f : Form} (flat : f.flat) (productive : f.productive) : f.Steady n d :=
    .of_flat entries flat productive
  refine .ifNext (entries .unary) (.choose (entries .cast) (flatly (by decide) (by decide))
    (by decide) ?_ ?_)
  · intro ts looked
    obtain ⟨w, word, rest⟩ := (castAhead_iff n ts).mp looked
    exact (castAhead_iff (n + d) ts).mpr ⟨w, typeLook_mono word, rest⟩
  · intro frame ts low high
    obtain ⟨w, word, k, ks, split, starts⟩ := (castAhead_iff (n + d) ts).mp high
    refine primary_excused frame ⟨_, word⟩ (fun inside => ?_) split
    rw [(castAhead_iff n ts).mpr ⟨w, inside, k, ks, split, starts⟩] at low
    simp at low

theorem links_steady (least : Precedence) : (links least).Steady n d :=
  .of_flat entries (by cases least <;> decide) (by cases least <;> decide)

theorem binary_steady (least : Precedence) : (binary least).Steady n d :=
  (operand_steady entries).seq (links_steady entries least)

theorem rightOperand_steady (p : Precedence) : (rightOperand p).Steady n d := by
  unfold rightOperand
  split
  · exact binary_steady entries _
  · exact operand_steady entries

theorem ternary_steady : ternary.Steady n d :=
  (binary_steady entries .or).seq (.of_flat entries (by decide) (by decide))

/-- A variable that is not seen for want of levels is read as an expression. -/
theorem anyDeclaration_steady :
    (ifDeclaration variableStatement expressionStatement).Steady n d := by
  refine .choose (.of_flat entries (by decide) (by decide))
    (.of_flat entries (by decide) (by decide))
    (by decide) declaration_up fun frame ts low high => ?_
  obtain ⟨w, beyond⟩ := beyond_of_declaration low high
  exact expressionStatement_excused frame beyond

/-- Variables that are not seen at the beginning of a loop are read as expressions. -/
theorem classicHeader_steady : classicHeader.Steady n d := by
  have chosen : chosenHeader.Steady n d := by
    refine .ifNext (.of_flat entries (by decide) (by decide)) (.choose
      (.of_flat entries (by decide) (by decide)) (.of_flat entries (by decide) (by decide))
      (by decide) declaration_up fun frame ts low high => ?_)
    obtain ⟨w, beyond⟩ := beyond_of_declaration low high
    exact forInit_excused frame _ beyond
  exact chosen.congr (by decide) readAt_classicHeader

/-- A loop over elements that is not seen for want of levels is read as one with a condition. -/
theorem forStatement_steady : forStatement.Steady n d := by
  have flatly {f : Form} (flat : f.flat) (productive : f.productive) : f.Steady n d :=
    .of_flat entries flat productive
  have header : (choose (typeParts >> one .identifier) (· == .colon) eachHeader
      classicHeader).Steady n d := by
    refine .choose (flatly (by decide) (by decide)) (classicHeader_steady entries) (by decide) ?_ ?_
    · intro ts looked
      obtain ⟨w, word, rest⟩ := (eachAhead_iff n ts).mp looked
      exact (eachAhead_iff (n + d) ts).mpr ⟨w, typeLook_mono word, rest⟩
    · intro frame ts low high
      obtain ⟨w, word, ks, split⟩ := (eachAhead_iff (n + d) ts).mp high
      refine classicHeader_excused frame ⟨⟨_, word⟩, fun inside => ?_, _, split.symm⟩ split
      rw [(eachAhead_iff n ts).mpr ⟨w, inside, ks, split⟩] at low
      simp at low
  refine .frame (.seq (.seq (flatly ?_ ?_) (.seq (flatly ?_ ?_) (header.seq (.seq (flatly ?_ ?_)
    (.seq (flatly ?_ ?_) (flatly ?_ ?_)))))) (flatly ?_ ?_)) <;> decide

theorem form_steady (entry : Entry) : entry.form.Steady n d := by
  have flatly {f : Form} (flat : f.flat) (productive : f.productive) : f.Steady n d :=
    .of_flat entries flat productive
  cases entry with
  | statement =>
      exact .ifNext (flatly (by decide) (by decide)) (.ifNext (flatly (by decide) (by decide))
        (.ifNext (forStatement_steady entries) (.ifNext (flatly (by decide) (by decide))
          (.ifNext (flatly (by decide) (by decide)) (anyDeclaration_steady entries)))))
  | assignment => exact (ternary_steady entries).seq (flatly (by decide) (by decide))
  | ternary => exact ternary_steady entries
  | unary =>
      refine (flatly ?_ ?_).seq ((flatly ?_ ?_).seq ((operand_steady entries).frame.seq
        (flatly ?_ ?_))) <;> rfl
  | cast =>
      refine (flatly ?_ ?_).seq ((flatly ?_ ?_).seq ((flatly ?_ ?_).seq ((flatly ?_ ?_).seq
        ((flatly ?_ ?_).seq ((operand_steady entries).frame.seq (flatly ?_ ?_)))))) <;> decide
  | link least own =>
      refine (flatly ?_ ?_).seq ((flatly ?_ ?_).seq ((flatly ?_ ?_).seq
        ((rightOperand_steady entries own).frame.seq ((flatly ?_ ?_).seq
          (links_steady entries least))))) <;> rfl
  | suffix => exact flatly (by decide) (by decide)
  | typeArguments => exact flatly (by decide) (by decide)

omit entries in
theorem enter_steady (n d : Nat) (entry : Entry) : (enter entry).Steady n d := by
  induction n generalizing entry with
  | zero => exact ⟨rfl, fun frame ts => .inr ⟨⟨.tooDeep, ts⟩, by simp [Outcome.faults], .inl rfl⟩⟩
  | succ n ih =>
      refine ⟨rfl, fun frame ts => ?_⟩
      rw [show n + 1 + d = n + d + 1 by omega]
      exact (form_steady ih entry).persists frame ts

omit entries in
/-- **More levels change nothing.**  A script is read in the same way with more levels, unless
there are too few of them, or a fault and a type whose arguments have arguments. -/
theorem script_steady (n d : Nat) : script.Steady n d :=
  .of_flat (enter_steady n d) (by decide) script_productive

end Form

end Grammar

/-! ## Scripts -/

namespace Parsed

open Grammar (Form Crowded)

/-- With a higher limit a script has the same tree, and is in order just as before, unless the
limit is reported, or a type whose arguments have arguments stands in a script not in order. -/
theorem ofTokens_persists {limit limit' : Nat} (le : limit ≤ limit') (ts : List Token) :
    ((ofTokens limit' ts).root = (ofTokens limit ts).root ∧
        (ofTokens limit' ts).isOk = (ofTokens limit ts).isOk) ∨
      (∃ diagnostic ∈ (ofTokens limit ts).diagnostics,
        diagnostic.problem = .nestingTooDeep limit) ∨
      (ofTokens limit ts).isOk = false ∧ Crowded (body ts) := by
  obtain ⟨d, rfl⟩ := Nat.exists_eq_add_of_le le
  obtain ⟨parts, reported, done, whole⟩ := ofTokens_eq limit ts
  obtain ⟨parts', reported', done', whole'⟩ := ofTokens_eq (limit + d) ts
  have steady := (Form.script_steady limit d).persists [] (body ts)
  rw [done, done'] at steady
  rw [whole, whole']
  rcases steady with same | ⟨fault, member, tooDeep | crowded⟩
  · obtain ⟨rfl, -, rfl⟩ := Grammar.Outcome.done.inj same
    exact .inl ⟨rfl, by simp [isOk]⟩
  · refine .inr (.inl ⟨_, List.mem_map_of_mem member, ?_⟩)
    simp [Diagnostic.ofFault, tooDeep]
  · refine .inr (.inr ⟨?_, crowded⟩)
    have reports : reported ≠ [] := List.ne_nil_of_mem member
    simpa [isOk] using reports

/-- **Raising the limit changes no accepted script.**  What is in order with some levels of nesting
is in order with more of them, and its tree is the same. -/
theorem ofTokens_raise {limit limit' : Nat} (le : limit ≤ limit') {ts : List Token}
    (ok : (ofTokens limit ts).isOk) :
    (ofTokens limit' ts).isOk ∧ (ofTokens limit' ts).root = (ofTokens limit ts).root := by
  rcases ofTokens_persists le ts with ⟨root, same⟩ | ⟨diagnostic, member, -⟩ | ⟨rejected, -⟩
  · exact ⟨same.trans ok, root⟩
  · rw [isOk_iff.mp ok] at member
    simp at member
  · simp [ok] at rejected

/-- A variable of a type that needs two levels, in a script that may have nine. -/
theorem ofTokens_raise_variable :
    let ts := Token.ofText "process p { A<B<C>> f = (D) g + 1; }".toList
    (ofTokens 4 ts).isOk = true ∧ (ofTokens 9 ts).isOk = true ∧
      (ofTokens 9 ts).root = (ofTokens 4 ts).root := by
  intro ts
  have ok : (ofTokens 4 ts).isOk = true := by decide +kernel
  exact ⟨ok, ofTokens_raise (by decide) ok⟩

/-- **Want of levels is reported.**  A script that is in order with more levels of nesting only is
reported as nested too deep, unless some type in it has arguments with arguments. -/
theorem ofTokens_tooDeep {limit limit' : Nat} (le : limit ≤ limit') {ts : List Token}
    (plain : ¬ Crowded (body ts)) (ok : (ofTokens limit' ts).isOk)
    (rejected : (ofTokens limit ts).isOk = false) :
    ∃ diagnostic ∈ (ofTokens limit ts).diagnostics,
      diagnostic.problem = .nestingTooDeep limit := by
  rcases ofTokens_persists le ts with ⟨-, same⟩ | tooDeep | ⟨-, crowded⟩
  · rw [rejected, ok] at same
    simp at same
  · exact tooDeep
  · exact absurd crowded plain

/-- Parentheses that need more levels than there are. -/
theorem ofTokens_tooDeep_parentheses :
    let ts := Token.ofText "process p { x = ((y)); }".toList
    ¬ Crowded (body ts) ∧ (ofTokens 6 ts).isOk = true ∧ (ofTokens 3 ts).isOk = false ∧
      ∃ diagnostic ∈ (ofTokens 3 ts).diagnostics, diagnostic.problem = .nestingTooDeep 3 := by
  intro ts
  have plain : ¬ Crowded (body ts) := by
    intro crowded
    have closes := crowded.closes
    revert closes
    decide +kernel
  have ok : (ofTokens 6 ts).isOk = true := by decide +kernel
  have rejected : (ofTokens 3 ts).isOk = false := by decide +kernel
  exact ⟨plain, ok, rejected, ofTokens_tooDeep (by decide) plain ok rejected⟩

/-- Where a type has arguments with arguments want of levels may be reported as something else. -/
theorem ofText_misleading :
    let source := "process p { A<B,C<D<E>>> f; }"
    (ofText 4 source).isOk = true ∧ (ofText 3 source).isOk = false ∧
      ∀ diagnostic ∈ (ofText 3 source).diagnostics,
        diagnostic.problem ≠ .nestingTooDeep 3 := by
  decide +kernel

end Parsed

end QuestScript
