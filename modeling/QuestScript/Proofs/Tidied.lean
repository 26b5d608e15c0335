/-
# QuestScript.Proofs.Tidied -- a tidied script is in order exactly if the script is

Reading looks at the kinds of tokens and, for a string, at whether it is closed.  So a way to
replace tokens that keeps both (`Grammar.Muffles`) can be carried through reading, block by
block: the same tokens are left, the same faults reported (`Form.readAt_echoes`).  What stands
in a string that is not closed is thus of no account, and nothing else of a script changes
when its runs of blank lines are shortened.
-/
import QuestScript.Proofs.BlankRuns
import QuestScript.Proofs.RoundTrip

namespace QuestScript

set_option autoImplicit false

namespace Grammar

variable {g : Token → Token}

/-- Tokens may say something else, if they stay of their kinds and strings that are closed, and
only these, are closed still. -/
structure Muffles (g : Token → Token) : Prop where
  kind : ∀ t, (g t).kind = t.kind
  closes : ∀ t : Token, t.kind = .string → closesQuote (g t).text = closesQuote t.text

theorem Muffles.isTrivia (h : Muffles g) (t : Token) : (g t).isTrivia = t.isTrivia := by
  rw [Token.isTrivia, h.kind, Token.isTrivia]

theorem Muffles.significant_map (h : Muffles g) (ts : List Token) :
    significant (ts.map g) = (significant ts).map g := by
  rw [significant, List.filter_map]
  exact congrArg _ (List.filter_congr fun t _ => congrArg _ (h.isTrivia t))

theorem Muffles.afterTrivia_map (h : Muffles g) (ts : List Token) :
    afterTrivia (ts.map g) = (afterTrivia ts).map g := by
  have same : Token.isTrivia ∘ g = Token.isTrivia := funext h.isTrivia
  rw [afterTrivia, List.dropWhile_map, same, afterTrivia]

theorem Muffles.nextKind_map (h : Muffles g) (ts : List Token) :
    nextKind (ts.map g) = nextKind ts := by
  have same : Token.kind ∘ g = Token.kind := funext h.kind
  rw [nextKind_eq, nextKind_eq, h.significant_map, List.head?_map, Option.map_map, same]

/-- The fault with what was left replaced. -/
def Fault.relabel (g : Token → Token) (fault : Fault) : Fault := ⟨fault.cause, fault.rest.map g⟩

/-- The second outcome is the first with tokens replaced, but for the nodes that were built. -/
def Outcome.Echoes (g : Token → Token) : Outcome → Outcome → Prop
  | .done _ rest reported, .done _ rest' reported' =>
      rest' = rest.map g ∧ reported' = reported.map (Fault.relabel g)
  | .failed fault reported, .failed fault' reported' =>
      fault' = fault.relabel g ∧ reported' = reported.map (Fault.relabel g)
  | _, _ => False

namespace Outcome

variable {o o' : Outcome}

theorem Echoes.leadsTo_eq (h : o.Echoes g o') (muffles : Muffles g) (admits : TokenKind → Bool) :
    o'.leadsTo admits = o.leadsTo admits := by
  cases o <;> cases o' <;> first
    | exact h.elim
    | rfl
    | rw [leadsTo, leadsTo, h.1, muffles.nextKind_map]

theorem Echoes.into (h : o.Echoes g o') (outer outer' : List Tree) :
    (o.into outer).Echoes g (o'.into outer') := by
  cases o <;> cases o' <;> first
    | exact h.elim
    | exact h

theorem Echoes.andThen {next : Reader} (h : o.Echoes g o')
    (hnext : ∀ frame frame' rest, (next frame rest).Echoes g (next frame' (rest.map g))) :
    (o.andThen next).Echoes g (o'.andThen next) := by
  cases o with
  | failed fault reported =>
      cases o' with
      | done frame' rest' reported' => exact h.elim
      | failed fault' reported' => exact h
  | done frame rest reported =>
      cases o' with
      | failed fault' reported' => exact h.elim
      | done frame' rest' reported' =>
          obtain ⟨rfl, rfl⟩ := h
          have second := hnext frame frame' rest
          simp only [Outcome.andThen]
          cases hn : next frame rest <;> cases hn' : next frame' (rest.map g) <;>
            rw [hn, hn'] at second <;> first
            | exact second.elim
            | exact ⟨second.1, by rw [List.map_append, second.2]⟩

theorem Echoes.orElse {skip skip' : List Token → Outcome} (h : o.Echoes g o')
    (hskip : ∀ rest, (skip rest).Echoes g (skip' (rest.map g))) :
    (o.orElse skip).Echoes g (o'.orElse skip') := by
  cases o with
  | done frame rest reported =>
      cases o' with
      | failed fault' reported' => exact h.elim
      | done frame' rest' reported' => exact h
  | failed fault reported =>
      cases o' with
      | done frame' rest' reported' => exact h.elim
      | failed fault' reported' =>
          obtain ⟨rfl, rfl⟩ := h
          have second := hskip fault.rest
          simp only [Outcome.orElse, Fault.relabel]
          cases hs : skip fault.rest <;> cases hs' : skip' (fault.rest.map g) <;>
            rw [hs, hs'] at second <;> first
            | exact second.elim
            | exact ⟨second.1, by rw [List.map_append, List.map_cons, second.2]; rfl⟩

end Outcome

theorem Reader.ofToken_echoes (muffles : Muffles g) {test : Token → Option Cause} (atEnd : Cause)
    (deaf : ∀ t, test (g t) = test t) (frame frame' : List Tree) (ts : List Token) :
    (ofToken test atEnd frame ts).Echoes g (ofToken test atEnd frame' (ts.map g)) := by
  simp only [ofToken, muffles.afterTrivia_map]
  cases afterTrivia ts with
  | nil => exact ⟨rfl, rfl⟩
  | cons t rest =>
      simp only [List.map_cons, deaf]
      cases test t <;> exact ⟨rfl, rfl⟩

theorem Reader.rounds_echoes {looks : List Token → Bool} {body : Reader}
    (same : ∀ ts, looks (ts.map g) = looks ts)
    (hbody : ∀ frame frame' ts, (body frame ts).Echoes g (body frame' (ts.map g))) (n : Nat)
    (frame frame' : List Tree) (ts : List Token) :
    (rounds looks body n frame ts).Echoes g (rounds looks body n frame' (ts.map g)) := by
  induction n generalizing frame frame' ts with
  | zero => exact ⟨rfl, rfl⟩
  | succ n ih =>
      simp only [rounds, same]
      split
      · exact (hbody frame frame' ts).andThen ih
      · exact ⟨rfl, rfl⟩

namespace Form

/-- Reading goes the same way on tokens that say something else, if the entries are read so. -/
theorem read_echoes (muffles : Muffles g) {inner : Entry → Reader}
    (hinner : ∀ entry frame frame' ts,
      (inner entry frame ts).Echoes g (inner entry frame' (ts.map g)))
    (f : Form) (frame frame' : List Tree) (ts : List Token) :
    (f.read inner frame ts).Echoes g (f.read inner frame' (ts.map g)) := by
  induction f generalizing frame frame' ts with
  | empty => exact ⟨rfl, rfl⟩
  | trivia => exact ⟨muffles.afterTrivia_map ts, rfl⟩
  | token admits expected =>
      exact Reader.ofToken_echoes muffles _ (fun t => by simp only [muffles.kind]) frame frame' ts
  | string expected =>
      refine Reader.ofToken_echoes muffles _ (fun t => ?_) frame frame' ts
      by_cases string : t.kind = .string
      · simp only [muffles.kind, muffles.closes t string]
      · simp only [muffles.kind, ne_eq, string, not_false_eq_true, if_true]
  | refuse expected => exact ⟨rfl, rfl⟩
  | seq first second ihFirst ihSecond => exact (ihFirst frame frame' ts).andThen ihSecond
  | frame body ih => exact (ih [] [] ts).into frame frame'
  | close rule => exact ⟨rfl, rfl⟩
  | choose look admits yes no ihLook ihYes ihNo =>
      simp only [read, (ihLook [] [] ts).leadsTo_eq muffles]
      split
      · exact ihYes frame frame' ts
      · exact ihNo frame frame' ts
  | repeated look admits body ihLook ihBody =>
      simp only [read, List.length_map]
      exact Reader.rounds_echoes (fun ts => (ihLook [] [] ts).leadsTo_eq muffles admits) ihBody
        (ts.length + 1) frame frame' ts
  | enter entry => exact hinner entry frame frame' ts
  | recover body skip ihBody ihSkip =>
      exact (ihBody frame frame' ts).orElse fun rest => ihSkip frame frame' rest

theorem readAt_echoes (muffles : Muffles g) (n : Nat) (f : Form) (frame frame' : List Tree)
    (ts : List Token) : (f.readAt n frame ts).Echoes g (f.readAt n frame' (ts.map g)) := by
  refine f.read_echoes muffles ?_ frame frame' ts
  induction n with
  | zero => exact fun _ _ _ _ => ⟨rfl, rfl⟩
  | succ n ih => exact fun entry => entry.form.read_echoes muffles ih

end Form

end Grammar

/-! ## Scripts -/

open Lexeme (words muted isOpen)

namespace Token

/-- The token, but for what it says if it is a string that is not closed. -/
def muted (t : Token) : Token := ⟨t.lexeme.muted.kind, t.span, t.lexeme.muted.text⟩

theorem muted_muffles : Grammar.Muffles muted where
  kind t := Lexeme.muted_kind t.lexeme
  closes t string := by
    have isOpen : t.lexeme.isOpen = !Grammar.closesQuote t.text := by
      rw [Lexeme.isOpen, show t.lexeme.kind = .string from string]
      rfl
    rw [muted, Lexeme.muted]
    cases closes : Grammar.closesQuote t.text with
    | true =>
        rw [if_neg (by simp [isOpen, closes])]
        exact closes
    | false =>
        rw [if_pos (by simp [isOpen, closes])]
        rfl

end Token

namespace Parsed

open Grammar (Form Agree wording)

theorem wording_muted (ts : List Token) :
    wording (ts.map Token.muted) = (words (ts.map Token.lexeme)).map muted := by
  rw [wording, Token.muted_muffles.significant_map, ← wording_eq_words, wording, List.map_map,
    List.map_map]
  rfl

/-- Scripts whose significant lexemes are the same but for open strings are in order together. -/
theorem isOk_of_muted (limit : Nat) {ts us : List Token}
    (same : (words ((body ts).map Token.lexeme)).map muted =
      (words ((body us).map Token.lexeme)).map muted) :
    (ofTokens limit ts).isOk = (ofTokens limit us).isOk := by
  obtain ⟨parts, reported, done, whole⟩ := ofTokens_eq limit ts
  obtain ⟨parts', reported', done', whole'⟩ := ofTokens_eq limit us
  have echo := Form.readAt_echoes Token.muted_muffles limit Form.script [] [] (body ts)
  have echo' := Form.readAt_echoes Token.muted_muffles limit Form.script [] [] (body us)
  have agree : Agree [] [] ((body ts).map Token.muted) ((body us).map Token.muted) :=
    ⟨wording ((body ts).map Token.muted), by simp, by
      rw [List.append_nil, wording_muted, wording_muted, same]⟩
  have agrees := Form.readAt_agrees Form.script_productive Form.script_wary (.inl ⟨rfl, rfl⟩) limit
    (rfl : Tree.bareAll [] = _) agree List.nil_suffix
  rw [done] at echo
  rw [done'] at echo'
  cases read : Form.script.readAt limit [] ((body ts).map Token.muted) with
  | failed fault more => rw [read] at echo; exact echo.elim
  | done nodes rest more =>
      cases read' : Form.script.readAt limit [] ((body us).map Token.muted) with
      | failed fault more' => rw [read'] at echo'; exact echo'.elim
      | done nodes' rest' more' =>
          rw [read] at echo agrees
          rw [read'] at echo' agrees
          have lengths : reported.length = reported'.length := by
            have := congrArg List.length agrees.2.2
            rwa [List.length_map, List.length_map, echo.2, echo'.2, List.length_map,
              List.length_map] at this
          rw [whole, whole', isOk, isOk, List.isEmpty_map, List.isEmpty_map]
          cases reported <;> cases reported' <;> simp_all

end Parsed

/-- **Tidying keeps the tokens**: the significant tokens of a tidied script are of the same
kinds as those of the script, in the same order, and say the same but for strings that are not
closed; so with any levels of nesting the tidied script is in order exactly if the script is. -/
theorem Parsed.ofText_tidyLines (text : String) :
    let tidied := String.ofList (Text.tidyLines text.toList)
    List.Forall₂
        (fun t u : Token => t.kind = u.kind ∧
          (t.text = u.text ∨ t.lexeme.isOpen ∧ u.lexeme.isOpen))
        (Grammar.significant (Token.ofText text.toList))
        (Grammar.significant (Token.ofText tidied.toList)) ∧
      ∀ limit, (Parsed.ofText limit text).isOk = (Parsed.ofText limit tidied).isOk := by
  intro tidied
  have same : (words (Lexeme.ofText text.toList)).map muted =
      (words (Lexeme.ofText tidied.toList)).map muted := by
    rw [String.toList_ofList, Lexeme.words_tidyLines]
  refine ⟨?_, fun limit => isOk_of_muted limit (by rw [lexemes_body, lexemes_body, same])⟩
  have tokens : (Grammar.significant (Token.ofText text.toList)).map (muted ∘ Token.lexeme) =
      (Grammar.significant (Token.ofText tidied.toList)).map (muted ∘ Token.lexeme) := by
    simp only [← List.map_map, ← Grammar.wording.eq_1, wording_eq_words, lexemes_ofText,
      Lexeme.words_append, List.map_append, same]
  rw [← List.forall₂_eq_eq_eq, List.forall₂_map_left_iff, List.forall₂_map_right_iff] at tokens
  exact tokens.imp fun t u => Lexeme.eq_or_isOpen_of_muted

/-- What a string that is not closed says may change: here it takes the blank along that
stands on the next line, and of a shortened run there is none. -/
example : words (Lexeme.ofText (Text.tidyLines "\"a\\\n \n\n".toList)) = [⟨.string, "\"a\\\n"⟩] ∧
    words (Lexeme.ofText "\"a\\\n \n\n".toList) = [⟨.string, "\"a\\\n "⟩] := by
  decide +kernel

end QuestScript
