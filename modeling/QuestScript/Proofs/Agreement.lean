/-
# QuestScript.Proofs.Agreement -- what is read does not depend on trivia

Two lists of tokens agree up to a point if their significant tokens do: kinds and texts,
but neither trivia nor places.  They may part at their ends, which means that they agree
altogether, or at a closing brace that both have (`Fence`).  Reading a form does the same
on both as long as it stays before that point: it comes to its end or gives up in both,
builds the same nodes, and reports the same (`Form.readAt_agrees`).

The point matters for what is looked for ahead.  No look ahead goes past a closing brace
(`Form.wary`), and so reading what stands in braces does not depend on what stands behind
them.  With the point at the end of both lists, trivia is shown not to matter for parsing:
`Parsed.ofTokens_trivia`.
-/
import QuestScript.Proofs.Completion

namespace QuestScript

set_option autoImplicit false

/-! ## Trees without trivia -/

namespace Tree

mutual

/-- The tree without trivia and without places. -/
def bare : Tree → Tree
  | ⟨label, _, children, text⟩ => ⟨label, .zero, bareAll children, text⟩

/-- Several trees, the trivia among them left out. -/
def bareAll : List Tree → List Tree
  | [] => []
  | t :: ts => if t.isTrivia then bareAll ts else t.bare :: bareAll ts

end

@[simp] theorem bareAll_nil : bareAll [] = [] := rfl

@[simp] theorem bareAll_append (ts us : List Tree) :
    bareAll (ts ++ us) = bareAll ts ++ bareAll us := by
  induction ts with
  | nil => rfl
  | cons t ts ih =>
      simp only [List.cons_append, bareAll, ih]
      split <;> rfl

theorem bareAll_trivia {ts : List Token} (h : ∀ t ∈ ts, t.isTrivia) :
    bareAll (ts.map leaf) = [] := by
  induction ts with
  | nil => rfl
  | cons t ts ih =>
      simp only [List.forall_mem_cons] at h
      rw [List.map_cons, bareAll, if_pos (show (leaf t).isTrivia from h.1), ih h.2]

/-- A leaf without its place says what its lexeme says. -/
theorem bareAll_leaf {t : Token} (h : t.isTrivia = false) :
    bareAll [leaf t] = [⟨.token t.lexeme.kind, .zero, [], some t.lexeme.text⟩] := by
  have significant : (leaf t).isTrivia = false := h
  rw [bareAll, if_neg (by simp [significant])]
  rfl

@[simp] theorem bareAll_ofRule (rule : Rule) (parts : List Tree) :
    bareAll [ofRule rule parts] = [⟨.rule rule, .zero, bareAll parts, none⟩] := rfl

end Tree

namespace Grammar

open QuestScript.Tree (bareAll bareAll_append bareAll_nil)

/-! ## Tokens without trivia -/

/-- The significant tokens without their places. -/
def wording (ts : List Token) : List Lexeme := (significant ts).map Token.lexeme

@[simp] theorem wording_afterTrivia (ts : List Token) : wording (afterTrivia ts) = wording ts := by
  rw [wording, significant_afterTrivia, wording]

theorem wording_of_afterTrivia {ts rest : List Token} {t : Token} (h : afterTrivia ts = t :: rest) :
    wording ts = t.lexeme :: wording rest := by
  rw [wording, significant_of_afterTrivia h, List.map_cons, wording]

theorem wording_suffix {ts us : List Token} (h : ts <:+ us) : wording ts <:+ wording us :=
  (h.filter _).map _

theorem afterTrivia_of_wording {ts : List Token} {l : Lexeme} {ls : List Lexeme}
    (h : wording ts = l :: ls) :
    ∃ t rest, afterTrivia ts = t :: rest ∧ t.lexeme = l ∧ wording rest = ls := by
  cases next : afterTrivia ts with
  | nil => rw [← wording_afterTrivia, next] at h; simp [wording] at h
  | cons t rest =>
      rw [wording_of_afterTrivia next, List.cons.injEq] at h
      exact ⟨t, rest, rfl, h⟩

theorem afterTrivia_of_wording_nil {ts : List Token} (h : wording ts = []) : afterTrivia ts = [] :=
  afterTrivia_eq_nil (List.map_eq_nil_iff.mp h)

theorem bareAll_leadingTrivia (ts : List Token) :
    bareAll ((leadingTrivia ts).map Tree.leaf) = [] :=
  Tree.bareAll_trivia fun _ => isTrivia_of_mem_leadingTrivia

theorem nextKind_eq_wording (ts : List Token) :
    nextKind ts = ((wording ts).head?.map Lexeme.kind).getD .eof := by
  rw [nextKind_eq, wording, List.head?_map, Option.map_map]
  rfl

/-! ## Agreement -/

/-- Where two lists of tokens may part: at the ends of both or at a closing brace in both. -/
def Fence (a b : List Lexeme) : Prop :=
  a = [] ∧ b = [] ∨
    ∃ brace as bs, a = brace :: as ∧ b = brace :: bs ∧ brace.kind = .rBrace

theorem Fence.brace {a b : List Lexeme} (h : Fence a b) : ∀ l ∈ a.head?, l.kind = .rBrace := by
  rcases h with ⟨rfl, rfl⟩ | ⟨brace, as, bs, rfl, rfl, kind⟩
  · simp
  · simpa using kind

/-- Both lists say the same, up to `a` in the one and `b` in the other. -/
def Agree (a b : List Lexeme) (ts us : List Token) : Prop :=
  ∃ common, wording ts = common ++ a ∧ wording us = common ++ b

variable {a b : List Lexeme} {ts us : List Token}

theorem Fence.head?_eq (h : Fence a b) : a.head? = b.head? := by
  rcases h with ⟨rfl, rfl⟩ | ⟨brace, as, bs, rfl, rfl, -⟩ <;> rfl

theorem Agree.suffix (h : Agree a b ts us) : a <:+ wording ts := by
  obtain ⟨common, whole, -⟩ := h
  exact ⟨common, whole.symm⟩

theorem Agree.head?_eq (h : Agree a b ts us) (fence : Fence a b) :
    (wording ts).head? = (wording us).head? := by
  obtain ⟨common, hts, hus⟩ := h
  rw [hts, hus, List.head?_append, List.head?_append, fence.head?_eq]

theorem Agree.nextKind_eq (h : Agree a b ts us) (fence : Fence a b) : nextKind ts = nextKind us := by
  rw [nextKind_eq_wording, nextKind_eq_wording, h.head?_eq fence]

theorem Agree.afterTrivia (h : Agree a b ts us) : Agree a b (afterTrivia ts) (afterTrivia us) := by
  simpa only [Agree, wording_afterTrivia] using h

/-- Lists that agree end together or go on with the same token, and agree behind it if that
is not where they part. -/
theorem Agree.next (h : Agree a b ts us) (fence : Fence a b) :
    Grammar.afterTrivia ts = [] ∧ Grammar.afterTrivia us = [] ∨
      ∃ t rest u rest', Grammar.afterTrivia ts = t :: rest ∧ Grammar.afterTrivia us = u :: rest' ∧
        t.lexeme = u.lexeme ∧ (a <:+ wording rest → Agree a b rest rest') := by
  obtain ⟨common, hts, hus⟩ := h
  cases common with
  | cons l common =>
      obtain ⟨t, rest, next, ht, hrest⟩ := afterTrivia_of_wording hts
      obtain ⟨u, rest', next', hu, hrest'⟩ := afterTrivia_of_wording hus
      exact .inr ⟨t, rest, u, rest', next, next', ht.trans hu.symm, fun _ =>
        ⟨common, hrest, hrest'⟩⟩
  | nil =>
      rcases fence with ⟨rfl, rfl⟩ | ⟨brace, as, bs, rfl, rfl, -⟩
      · exact .inl ⟨afterTrivia_of_wording_nil hts, afterTrivia_of_wording_nil hus⟩
      · obtain ⟨t, rest, next, ht, hrest⟩ := afterTrivia_of_wording hts
        obtain ⟨u, rest', next', hu, -⟩ := afterTrivia_of_wording hus
        refine .inr ⟨t, rest, u, rest', next, next', ht.trans hu.symm, fun inside => ?_⟩
        have := inside.length_le
        rw [hrest, List.length_cons] at this
        omega

/-- What a fault says without its place. -/
def Fault.view (fault : Fault) : Cause × Option Lexeme := (fault.cause, (wording fault.rest).head?)

/-- Both readings came to their ends or both gave up, with the same nodes, the same reports and
tokens left that agree. -/
def Outcome.Agrees (a b : List Lexeme) : Outcome → Outcome → Prop
  | .done frame rest reported, .done frame' rest' reported' =>
      bareAll frame = bareAll frame' ∧ Agree a b rest rest' ∧
        reported.map Fault.view = reported'.map Fault.view
  | .failed fault reported, .failed fault' reported' =>
      fault.cause = fault'.cause ∧ Agree a b fault.rest fault'.rest ∧
        reported.map Fault.view = reported'.map Fault.view
  | _, _ => False

namespace Outcome

variable {o o' : Outcome}

theorem Agrees.leadsTo_eq (h : o.Agrees a b o') (fence : Fence a b) (admits : TokenKind → Bool) :
    o.leadsTo admits = o'.leadsTo admits := by
  cases o with
  | done frame rest reported =>
      cases o' with
      | done frame' rest' reported' => rw [leadsTo, leadsTo, h.2.1.nextKind_eq fence]
      | failed fault' reported' => exact h.elim
  | failed fault reported =>
      cases o' with
      | done frame' rest' reported' => exact h.elim
      | failed fault' reported' => rfl

theorem Agrees.into {outer outer' : List Tree} (h : o.Agrees a b o')
    (same : bareAll outer = bareAll outer') : (o.into outer).Agrees a b (o'.into outer') := by
  cases o with
  | done frame rest reported =>
      cases o' with
      | done frame' rest' reported' =>
          exact ⟨by rw [bareAll_append, bareAll_append, same, h.1], h.2⟩
      | failed fault' reported' => exact h.elim
  | failed fault reported =>
      cases o' with
      | done frame' rest' reported' => exact h.elim
      | failed fault' reported' => exact h

theorem Agrees.andThen {next : Reader} (h : o.Agrees a b o')
    (hnext : ∀ frame rest reported frame' rest' reported', o = .done frame rest reported →
      o' = .done frame' rest' reported' → bareAll frame = bareAll frame' → Agree a b rest rest' →
      (next frame rest).Agrees a b (next frame' rest')) :
    (o.andThen next).Agrees a b (o'.andThen next) := by
  cases o with
  | failed fault reported =>
      cases o' with
      | done frame' rest' reported' => exact h.elim
      | failed fault' reported' => exact h
  | done frame rest reported =>
      cases o' with
      | failed fault' reported' => exact h.elim
      | done frame' rest' reported' =>
          have second := hnext _ _ _ _ _ _ rfl rfl h.1 h.2.1
          simp only [Outcome.andThen]
          cases hn : next frame rest with
          | done last rest₂ more =>
              cases hn' : next frame' rest' with
              | failed fault' more' => rw [hn, hn'] at second; exact second.elim
              | done last' rest₂' more' =>
                  rw [hn, hn'] at second
                  exact ⟨second.1, second.2.1, by rw [List.map_append, List.map_append, h.2.2,
                    second.2.2]⟩
          | failed fault more =>
              cases hn' : next frame' rest' with
              | done last' rest₂' more' => rw [hn, hn'] at second; exact second.elim
              | failed fault' more' =>
                  rw [hn, hn'] at second
                  exact ⟨second.1, second.2.1, by rw [List.map_append, List.map_append, h.2.2,
                    second.2.2]⟩

theorem Agrees.orElse {skip skip' : List Token → Outcome} (h : o.Agrees a b o')
    (fence : Fence a b)
    (hskip : ∀ fault reported fault' reported', o = .failed fault reported →
      o' = .failed fault' reported' → Agree a b fault.rest fault'.rest →
      (skip fault.rest).Agrees a b (skip' fault'.rest)) :
    (o.orElse skip).Agrees a b (o'.orElse skip') := by
  cases o with
  | done frame rest reported =>
      cases o' with
      | failed fault' reported' => exact h.elim
      | done frame' rest' reported' => exact h
  | failed fault reported =>
      cases o' with
      | done frame' rest' reported' => exact h.elim
      | failed fault' reported' =>
          have second := hskip _ _ _ _ rfl rfl h.2.1
          have view : fault.view = fault'.view :=
            Prod.ext h.1 (h.2.1.head?_eq fence)
          simp only [Outcome.orElse]
          cases hs : skip fault.rest with
          | done last rest₂ more =>
              cases hs' : skip' fault'.rest with
              | failed fault₂' more' => rw [hs, hs'] at second; exact second.elim
              | done last' rest₂' more' =>
                  rw [hs, hs'] at second
                  exact ⟨second.1, second.2.1, by simp [h.2.2, view, second.2.2]⟩
          | failed fault₂ more =>
              cases hs' : skip' fault'.rest with
              | done last' rest₂' more' => rw [hs, hs'] at second; exact second.elim
              | failed fault₂' more' =>
                  rw [hs, hs'] at second
                  exact ⟨second.1, second.2.1, by simp [h.2.2, view, second.2.2]⟩

end Outcome

/-- A test on a token's lexeme is the same for tokens that agree. -/
theorem Reader.ofToken_agrees {test : Token → Option Cause} (atEnd : Cause)
    (lexical : ∀ t u : Token, t.lexeme = u.lexeme → test t = test u) (fence : Fence a b)
    {frame frame' : List Tree} (same : bareAll frame = bareAll frame') (agree : Agree a b ts us)
    (inside : a <:+ wording (ofToken test atEnd frame ts).rest) :
    (ofToken test atEnd frame ts).Agrees a b (ofToken test atEnd frame' us) := by
  rcases agree.next fence with ⟨none, none'⟩ | ⟨t, rest, u, rest', next, next', lexeme, behind⟩
  · simp only [ofToken, none, none']
    exact ⟨rfl, agree, rfl⟩
  · simp only [ofToken, next, next', ← lexical t u lexeme] at inside ⊢
    cases tested : test t with
    | some cause => exact ⟨rfl, agree, rfl⟩
    | none =>
        simp only [tested, Outcome.rest] at inside
        refine ⟨?_, behind inside, rfl⟩
        simp only [bareAll_append, same, bareAll_leadingTrivia, List.append_nil,
          Tree.bareAll_leaf (isTrivia_of_afterTrivia next),
          Tree.bareAll_leaf (isTrivia_of_afterTrivia next'), lexeme]

/-! ## Looking ahead -/

namespace Form

/-- The form reads no closing brace; of the entries, only type arguments are looked at ahead. -/
def avoidsBrace : Form → Bool
  | .token admits _ => !admits .rBrace
  | .seq first second => first.avoidsBrace && second.avoidsBrace
  | .frame body => body.avoidsBrace
  | .choose _ _ yes no => yes.avoidsBrace && no.avoidsBrace
  | .repeated _ _ body => body.avoidsBrace
  | .enter entry => entry == .typeArguments
  | .recover body skip => body.avoidsBrace && skip.avoidsBrace
  | _ => true

/-- No look ahead in the form goes past a closing brace. -/
def wary : Form → Bool
  | .seq first second => first.wary && second.wary
  | .frame body => body.wary
  | .choose look _ yes no => look.avoidsBrace && look.wary && yes.wary && no.wary
  | .repeated look _ body => look.avoidsBrace && look.wary && body.wary
  | .recover body skip => body.wary && skip.wary
  | _ => true

end Form

theorem Entry.form_wary (entry : Entry) : entry.form.wary := by
  cases entry with
  | link least own => cases least <;> cases own <;> decide
  | _ => decide

theorem Form.shuns_of_avoidsBrace {f : Form} (avoids : f.avoidsBrace) :
    f.shuns (· == .rBrace) (· == .typeArguments) := by
  induction f with
  | token admits expected =>
      simp only [shuns, List.all_eq_true]
      intro kind _
      cases brace : kind == .rBrace <;> simp_all [avoidsBrace]
  | string expected => rfl
  | _ => simp_all [avoidsBrace, shuns]

/-- The tokens left still go on to `a`. -/
def Outcome.Before (a : List Lexeme) (o : Outcome) : Prop := a <:+ wording o.rest

namespace Outcome

variable {o : Outcome}

/-- A reading that stays before `a` was before it all the way. -/
theorem Before.of_andThen {next : Reader} (h : (o.andThen next).Before a)
    (suffix : ∀ frame rest reported, o = .done frame rest reported →
      (next frame rest).rest <:+ rest) :
    o.Before a ∧ ∀ frame rest reported, o = .done frame rest reported →
      (next frame rest).Before a :=
  rest_of_andThen (a <:+ wording ·) (fun shorter before => before.trans (wording_suffix shorter)) h
    suffix

theorem Before.of_orElse {skip : List Token → Outcome} (h : (o.orElse skip).Before a)
    (suffix : ∀ fault reported, o = .failed fault reported →
      (skip fault.rest).rest <:+ fault.rest) :
    o.Before a ∧ ∀ fault reported, o = .failed fault reported → (skip fault.rest).Before a :=
  rest_of_orElse (a <:+ wording ·) (fun shorter before => before.trans (wording_suffix shorter)) h
    suffix

end Outcome

namespace Form

/-- What reads no closing brace does not get past one. -/
theorem readAt_before {f : Form} (productive : f.productive) (avoids : f.avoidsBrace)
    (brace : ∀ l ∈ a.head?, l.kind = .rBrace) (n : Nat) (frame : List Tree)
    (start : a <:+ wording ts) : (f.readAt n frame ts).Before a := by
  have types : ∀ entry : Entry, entry == .typeArguments →
      entry.form.shuns (· == .rBrace) (· == .typeArguments) := by
    intro entry isType
    obtain rfl : entry = .typeArguments := by simpa using isType
    decide
  refine places_of_shuns (a <:+ wording ·) productive (shuns_of_avoidsBrace avoids)
    (fun start => by rwa [wording_afterTrivia]) (fun {ts t rest} start next passes => ?_) types n
    frame start _ (Outcome.rest_mem_places _)
  rw [wording_of_afterTrivia next] at start
  rcases List.suffix_cons_iff.mp start with whole | later
  · have isBrace : t.kind = .rBrace := brace t.lexeme (by simp [whole])
    simp [isBrace] at passes
  · exact later

/-! ## Reading what agrees -/

/-- The two runs look ahead with the same result, for that is done before they part. -/
theorem leadsTo_of_agree {n : Nat} {look : Form} (admits : TokenKind → Bool) (fence : Fence a b)
    (productive : look.productive) (avoids : look.avoidsBrace) (agree : Agree a b ts us)
    (ih : (look.readAt n [] ts).Before a →
      (look.readAt n [] ts).Agrees a b (look.readAt n [] us)) :
    (look.readAt n [] ts).leadsTo admits = (look.readAt n [] us).leadsTo admits :=
  (ih (readAt_before productive avoids fence.brace n [] agree.suffix)).leadsTo_eq fence admits

theorem agrees_inductive (fence : Fence a b) :
    Inductive fun n f frame ts => f.productive → f.wary → ∀ frame' us,
      bareAll frame = bareAll frame' → Agree a b ts us → (f.readAt n frame ts).Before a →
        (f.readAt n frame ts).Agrees a b (f.readAt n frame' us) where
  empty n frame ts _ _ frame' us same agree _ := ⟨same, agree, rfl⟩
  trivia n frame ts _ _ frame' us same agree _ := by
    simp only [readAt_trivia]
    exact ⟨by simp [same, bareAll_leadingTrivia], agree.afterTrivia, rfl⟩
  token n admits expected frame ts _ _ frame' us same agree inside := by
    refine Reader.ofToken_agrees _ (fun t u lexeme => ?_) fence same agree inside
    have kind : t.kind = u.kind := congrArg Lexeme.kind lexeme
    simp only [kind]
  string n expected frame ts _ _ frame' us same agree inside := by
    refine Reader.ofToken_agrees _ (fun t u lexeme => ?_) fence same agree inside
    have kind : t.kind = u.kind := congrArg Lexeme.kind lexeme
    have text : t.text = u.text := congrArg Lexeme.text lexeme
    simp only [kind, text]
  refuse n expected frame ts _ _ frame' us _ agree _ := ⟨rfl, agree, rfl⟩
  close n rule frame ts _ _ frame' us same agree _ := by
    simp only [readAt_close]
    exact ⟨by simp [same], agree, rfl⟩
  seq n first second frame ts ihFirst ihSecond productive wary frame' us same agree inside := by
    simp only [Form.productive, Form.wary, Bool.and_eq_true] at productive wary
    obtain ⟨before, later⟩ := Outcome.Before.of_andThen inside fun frame rest _ _ =>
      readAt_suffix productive.2 n frame rest
    refine (ihFirst productive.1 wary.1 frame' us same agree before).andThen ?_
    intro middle rest reported middle' rest' _ done _ same agree
    exact ihSecond middle rest reported done productive.2 wary.2 middle' rest' same agree
      (later middle rest reported done)
  frame n body outer ts ih productive wary frame' us same agree inside := by
    rw [readAt_frame, Outcome.Before, Outcome.rest_into] at inside
    exact (ih productive wary [] us rfl agree inside).into same
  choose n look admits yes no frame ts ihLook ihYes ihNo productive wary frame' us same agree
      inside := by
    simp only [Form.productive, Form.wary, Bool.and_eq_true] at productive wary
    obtain ⟨⟨lookProductive, yesProductive⟩, noProductive⟩ := productive
    obtain ⟨⟨⟨avoids, lookWary⟩, yesWary⟩, noWary⟩ := wary
    have looks := leadsTo_of_agree admits fence lookProductive avoids agree
      (ihLook lookProductive lookWary [] us rfl agree)
    rw [readAt_choose] at inside
    rw [readAt_choose, readAt_choose, ← looks]
    split at inside
    · rename_i looked
      rw [if_pos looked, if_pos looked]
      exact ihYes looked yesProductive yesWary frame' us same agree inside
    · rename_i failed
      rw [if_neg failed, if_neg failed]
      exact ihNo (by simpa using failed) noProductive noWary frame' us same agree inside
  stop n look admits body frame ts productive ihLook stopped _ wary frame' us same agree
      inside := by
    have parts := productive
    simp only [Form.productive, Form.wary, Bool.and_eq_true] at parts wary
    have looks := leadsTo_of_agree admits fence parts.1.1 wary.1.1 agree
      (ihLook parts.1.1 wary.1.2 [] us rfl agree)
    rw [readAt_repeated productive, readAt_repeated productive, ← looks, stopped]
    exact ⟨same, agree, rfl⟩
  round n look admits body frame ts productive ihLook looked ihBody ihRest _ wary frame' us same
      agree inside := by
    have parts := productive
    have wariness := wary
    simp only [Form.productive, Form.wary, Bool.and_eq_true] at parts wary
    have looks := leadsTo_of_agree admits fence parts.1.1 wary.1.1 agree
      (ihLook parts.1.1 wary.1.2 [] us rfl agree)
    rw [readAt_repeated productive, if_pos looked] at inside
    rw [readAt_repeated productive, readAt_repeated productive, ← looks, looked, if_pos rfl,
      if_pos rfl]
    obtain ⟨before, later⟩ := inside.of_andThen fun frame rest _ _ =>
      readAt_suffix productive n frame rest
    refine (ihBody parts.1.2 wary.2 frame' us same agree before).andThen ?_
    intro middle rest reported middle' rest' _ done _ same agree
    exact ihRest middle rest reported done productive wariness middle' rest' same agree
      (later middle rest reported done)
  tooDeep entry frame ts _ _ frame' us _ agree _ := ⟨rfl, agree, rfl⟩
  enter n entry frame ts ih _ _ frame' us same agree inside :=
    ih entry.form_productive entry.form_wary frame' us same agree inside
  recover n body skip frame ts ihBody ihSkip productive wary frame' us same agree inside := by
    simp only [Form.productive, Form.wary, Bool.and_eq_true] at productive wary
    rw [readAt_recover] at inside
    obtain ⟨before, later⟩ := inside.of_orElse fun fault _ _ =>
      readAt_suffix productive.2 n frame fault.rest
    refine (ihBody productive.1 wary.1 frame' us same agree before).orElse fence ?_
    intro fault reported fault' _ failed _ agree
    exact ihSkip fault reported failed productive.2 wary.2 frame' fault'.rest same agree
      (later fault reported failed)

/-- **Reading does not depend on trivia**, nor on what stands behind the point up to which two
lists of tokens agree, as long as it stays before that point. -/
theorem readAt_agrees {f : Form} (productive : f.productive) (wary : f.wary) (fence : Fence a b)
    (n : Nat) {frame frame' : List Tree} (same : bareAll frame = bareAll frame')
    (agree : Agree a b ts us) (inside : (f.readAt n frame ts).Before a) :
    (f.readAt n frame ts).Agrees a b (f.readAt n frame' us) :=
  readAt_induct (agrees_inductive fence) n productive frame ts productive wary frame' us same agree
    inside

theorem script_wary : script.wary := by decide

end Form

end Grammar

/-! ## Scripts -/

namespace Parsed

open Grammar (Form wording Agree Cause Fault)

theorem bare_rootOf (scriptEnd : Text.Span) (parts : List Tree) :
    (rootOf scriptEnd parts).bare = ⟨.rule .script, .zero, Tree.bareAll parts, none⟩ := by
  cases parts <;> rfl

/-- The problem that a fault tells of without its place. -/
def problemOf (limit : Nat) : Cause × Option Lexeme → Problem
  | (.tooDeep, _) => .nestingTooDeep limit
  | (.openString, _) => .unterminatedString
  | (.expected what, none) => .unexpectedEnd what
  | (.expected what, some next) =>
      if next.kind = .error then .invalidToken next.text
      else .unexpectedToken next.text what

theorem problem_ofFault (limit : Nat) (scriptEnd : Text.Span) (fault : Fault) :
    (Diagnostic.ofFault limit scriptEnd fault).problem = problemOf limit fault.view := by
  obtain ⟨cause, rest⟩ := fault
  have next : (wording rest).head? = (Grammar.afterTrivia rest).head?.map Token.lexeme := by
    cases left : Grammar.afterTrivia rest with
    | nil => rw [← Grammar.wording_afterTrivia, left]; rfl
    | cons t ts => rw [Grammar.wording_of_afterTrivia left]; rfl
  cases cause with
  | tooDeep => rfl
  | openString => rfl
  | expected what =>
      rw [Fault.view, next, Diagnostic.ofFault]
      cases Grammar.afterTrivia rest with
      | nil => rfl
      | cons t ts =>
          simp only [List.head?_cons, Option.map_some, problemOf, Token.lexeme]
          split <;> rfl

/-- **Trivia never changes a parse.**  Scripts with the same significant tokens have the same
tree, but for trivia and places, and the same problems in the same order. -/
theorem ofTokens_trivia (limit : Nat) (ts us : List Token)
    (same : wording (body ts) = wording (body us)) :
    (ofTokens limit ts).root.bare = (ofTokens limit us).root.bare ∧
      (ofTokens limit ts).diagnostics.map Diagnostic.problem =
        (ofTokens limit us).diagnostics.map Diagnostic.problem := by
  obtain ⟨parts, reported, done, whole⟩ := ofTokens_eq limit ts
  obtain ⟨parts', reported', done', whole'⟩ := ofTokens_eq limit us
  have agree : Agree [] [] (body ts) (body us) := ⟨wording (body ts), by simp, by simp [same]⟩
  have agrees := Form.readAt_agrees Form.script_productive Form.script_wary (.inl ⟨rfl, rfl⟩) limit
    (rfl : Tree.bareAll [] = _) agree List.nil_suffix
  rw [done, done'] at agrees
  obtain ⟨bare, -, reports⟩ := agrees
  rw [whole, whole']
  refine ⟨by simp only [bare_rootOf, bare], ?_⟩
  simp only [List.map_map]
  calc reported.map (Diagnostic.problem ∘ Diagnostic.ofFault limit (endSpan ts))
      = (reported.map Fault.view).map (problemOf limit) := by
        rw [List.map_map]
        exact List.map_congr_left fun fault _ => problem_ofFault limit _ fault
    _ = (reported'.map Fault.view).map (problemOf limit) := by rw [reports]
    _ = reported'.map (Diagnostic.problem ∘ Diagnostic.ofFault limit (endSpan us)) := by
        rw [List.map_map]
        exact List.map_congr_left fun fault _ => (problem_ofFault limit _ fault).symm

/-- A process that cannot be read is as wrong with blanks and comments in it as without. -/
theorem ofTokens_trivia_process :
    let ts := Token.ofText "process p\x7ba b;c\x7d".toList
    let us := Token.ofText " process p \x7b a/**/ b; // c\n c \x7d".toList
    wording (body ts) = wording (body us) ∧
      (ofTokens 4 ts).root.bare = (ofTokens 4 us).root.bare ∧
      (ofTokens 4 ts).diagnostics.map Diagnostic.problem =
        (ofTokens 4 us).diagnostics.map Diagnostic.problem := by
  intro ts us
  have same : wording (body ts) = wording (body us) := by decide +kernel
  exact ⟨same, ofTokens_trivia 4 ts us same⟩

end Parsed

end QuestScript
