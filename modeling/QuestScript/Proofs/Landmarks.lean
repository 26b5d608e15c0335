/-
# QuestScript.Proofs.Landmarks -- no reading gets past the beginning of an item

A token that begins an item is a landmark.  `Form.shuns` computes from a form that it reads no
token of some kinds, whatever it enters, and then reading, from wherever it starts, stands
before a landmark all the way (`Form.readAt_shuns`).  Every entry of the grammar shuns the
tokens that begin an item, and an item reads one only as its first token (`Form.opens`); only
the name of a business, which runs to a back quote, may go on over the next item.

So a script behind any other tokens is read as it is on its own, however these tokens end: by
the time reading gets there every form before it has come to an end or was given up
(`Form.script_reaches`, `Parsed.ofTokens_synchronizes`).
-/
import QuestScript.Proofs.Items
import QuestScript.Proofs.Lossless

namespace QuestScript

set_option autoImplicit false

namespace Grammar

/-! ## Landmarks -/

/-- The tokens begin with one of a kind to stop at, which is not trivia. -/
def Landmark (stops : TokenKind → Bool) : List Token → Prop
  | [] => False
  | t :: _ => t.isTrivia = false ∧ stops t.kind = true

namespace Landmark

variable {stops : TokenKind → Bool} {a ts rest : List Token} {t : Token}

theorem afterTrivia_eq (h : Landmark stops a) : afterTrivia a = a := by
  cases a with
  | nil => exact h.elim
  | cons t rest => exact List.dropWhile_cons_of_neg (by simp [h.1])

/-- The trivia that comes next is before the landmark. -/
theorem suffix_afterTrivia (h : Landmark stops a) (ahead : a <:+ ts) : a <:+ afterTrivia ts := by
  obtain ⟨before, rfl⟩ := ahead
  rw [afterTrivia, List.dropWhile_append]
  split
  · exact ⟨[], h.afterTrivia_eq.symm⟩
  · exact List.suffix_append _ a

theorem next (h : Landmark stops a) (ahead : a <:+ ts) : ∃ t rest, afterTrivia ts = t :: rest := by
  have flushed := h.suffix_afterTrivia ahead
  cases next : afterTrivia ts with
  | nil => exact absurd h (by simp [List.suffix_nil.mp (next ▸ flushed), Landmark])
  | cons t rest => exact ⟨t, rest, rfl⟩

/-- The next token is before the landmark, if it is not of a kind to stop at. -/
theorem suffix_rest (h : Landmark stops a) (ahead : a <:+ ts) (next : afterTrivia ts = t :: rest)
    (passes : stops t.kind = false) : a <:+ rest := by
  have flushed := h.suffix_afterTrivia ahead
  rw [next, List.suffix_cons_iff] at flushed
  rcases flushed with rfl | behind
  · exact absurd h.2 (by simp [passes])
  · exact behind

end Landmark

namespace Form

/-- With a token of kind `kind` next, no token of a kind to stop at is read but this one. -/
def opens (stops : TokenKind → Bool) (entries : Entry → Bool) (kind : TokenKind) : Form → Bool
  | .token _ _ | .string _ => true
  | .seq first second => first.opens stops entries kind && second.shuns stops entries
  | .frame body => body.opens stops entries kind
  | .choose look admits yes no =>
      if look.isEmpty then
        if admits kind then yes.opens stops entries kind else no.opens stops entries kind
      else yes.opens stops entries kind && no.opens stops entries kind
  | .recover body skip => body.opens stops entries kind && skip.shuns stops entries
  | other => other.shuns stops entries

variable {stops : TokenKind → Bool} {entries : Entry → Bool} {a : List Token}

/-- What reads no token to stop at stands before the landmark all the way. -/
theorem readAt_shuns {f : Form} (productive : f.productive) (landmark : Landmark stops a)
    (allowed : ∀ entry, entries entry → entry.form.shuns stops entries)
    (shuns : f.shuns stops entries) (n : Nat) (frame : List Tree) {ts : List Token}
    (ahead : a <:+ ts) : ∀ left ∈ (f.readAt n frame ts).places, a <:+ left :=
  places_of_shuns (a <:+ ·) productive shuns landmark.suffix_afterTrivia landmark.suffix_rest
    allowed n frame ahead

/-- What reads a token to stop at only as its first stands before any landmark behind that. -/
theorem readAt_opens {f : Form} (productive : f.productive) (landmark : Landmark stops a)
    (allowed : ∀ entry, entries entry → entry.form.shuns stops entries) (n : Nat)
    (frame : List Tree) {ts rest : List Token} {t : Token} (next : afterTrivia ts = t :: rest)
    (behind : a <:+ rest) (opens : f.opens stops entries t.kind) :
    ∀ left ∈ (f.readAt n frame ts).places, a <:+ left := by
  have ahead : a <:+ ts := behind.trans (suffix_of_afterTrivia next)
  -- Reading a token takes the first one, and the landmark is behind that.
  have first : ∀ {test : Token → Option Cause} {atEnd : Cause} {frame : List Tree},
      ∀ left ∈ (Reader.ofToken test atEnd frame ts).places, a <:+ left := by
    intro test atEnd frame left h
    rcases Reader.places_ofToken h with rfl | ⟨t', next', -⟩
    · exact ahead
    · obtain ⟨-, rfl⟩ := List.cons.inj (next.symm.trans next')
      exact behind
  induction f generalizing frame with
  | token admits expected => exact first
  | string expected => exact first
  | seq f g ihFirst ihSecond =>
      simp only [Form.productive, Bool.and_eq_true] at productive
      simp only [Form.opens, Bool.and_eq_true] at opens
      exact Outcome.forall_places_andThen (ihFirst productive.1 frame opens.1)
        fun frame' rest' reported done behind =>
          readAt_shuns productive.2 landmark allowed opens.2 n frame' behind
  | frame body ih => simpa using ih productive [] opens
  | choose look admits yes no _ ihYes ihNo =>
      simp only [Form.productive, Bool.and_eq_true] at productive
      rw [readAt_choose]
      by_cases empty : look.isEmpty
      · rw [eq_empty_of_isEmpty empty, leadsTo_empty, nextKind_of_afterTrivia next]
        simp only [Form.opens, empty, if_true] at opens
        split at opens
        · rename_i admitted
          rw [if_pos admitted]
          exact ihYes productive.1.2 frame opens
        · rename_i refused
          rw [if_neg refused]
          exact ihNo productive.2 frame opens
      · simp only [Form.opens, if_neg empty, Bool.and_eq_true] at opens
        split
        · exact ihYes productive.1.2 frame opens.1
        · exact ihNo productive.2 frame opens.2
  | recover body skip ihBody _ =>
      simp only [Form.productive, Bool.and_eq_true] at productive
      simp only [Form.opens, Bool.and_eq_true] at opens
      exact Outcome.forall_places_orElse (ihBody productive.1 frame opens.1)
        fun fault reported failed behind =>
          readAt_shuns productive.2 landmark allowed opens.2 n frame behind
  | _ => exact readAt_shuns productive landmark allowed opens n frame ahead

end Form

/-! ## Items as landmarks -/

variable {a : List Token}

/-- Nothing below an item reads a token that begins one. -/
theorem Entry.form_shuns (entry : Entry) :
    entry.form.shuns TokenKind.startsItem (fun _ => true) := by
  cases entry with
  | link least own => cases least <;> cases own <;> decide
  | _ => decide

theorem Form.item_opens {kind : TokenKind} (plain : kind ≠ .businessMark) :
    (recover item skippedItem).opens TokenKind.startsItem (fun _ => true) kind := by
  cases kind <;> first | exact absurd rfl plain | decide

namespace Form

/-- One item, or what is skipped instead, leaves the landmark and fewer tokens before it. -/
theorem item_reaches (n : Nat) (frame : List Tree) {us rest : List Token} {t : Token}
    (next : afterTrivia us = t :: rest) (notEnd : t.kind ≠ .eof) (plain : t.kind ≠ .businessMark)
    (landmark : Landmark TokenKind.startsItem a) :
    ∃ middle us' reported, us' <:+ us ∧ Shorter us' us ∧
      (∀ fault ∈ reported, a <:+ fault.rest) ∧
      (recover item skippedItem).readAt n frame (afterTrivia (us ++ a)) =
        .done middle (us' ++ a) reported := by
  have next' : afterTrivia (afterTrivia (us ++ a)) = t :: (rest ++ a) := by
    rw [afterTrivia_afterTrivia, afterTrivia_append next]
  obtain ⟨middle, left, reported, done⟩ :=
    Sure.recover sure_skippedItem n frame (afterTrivia (us ++ a))
  have ahead := readAt_opens (f := recover item skippedItem) (by decide) landmark
    (fun entry _ => entry.form_shuns) n frame next' (List.suffix_append rest a) (item_opens plain)
  have ends := places_suffix (f := recover item skippedItem) (by decide) n frame
    (afterTrivia (us ++ a))
  rw [done] at ahead ends
  simp only [Outcome.places, List.forall_mem_cons, List.forall_mem_map] at ahead ends
  obtain ⟨us', rfl⟩ := ahead.1
  refine ⟨middle, us', reported, ?_, ?_, ahead.2, done⟩
  · have inside := ends.1.trans (afterTrivia_suffix (us ++ a))
    exact ((List.suffix_append_inj_of_length_eq rfl).mp inside).1
  · have shorter := shorter_of_item (by rwa [nextKind_of_afterTrivia next']) done
    simpa [Shorter] using shorter

/-- A script in front of the beginning of an item is read up to there, whatever it is, and then
on as a script. -/
theorem script_reaches (n : Nat) (frame : List Tree) {us : List Token}
    (plain : ∀ t ∈ us, t.kind ≠ .eof ∧ t.kind ≠ .businessMark)
    (landmark : Landmark TokenKind.startsItem a) :
    ∃ middle reported, (∀ fault ∈ reported, a <:+ fault.rest) ∧
      script.readAt n frame (us ++ a) =
        (Outcome.done middle a reported).andThen (script.readAt n) := by
  cases next : afterTrivia us with
  | nil =>
      refine ⟨frame ++ us.map Tree.leaf, [], by simp, ?_⟩
      rw [script_trivia next, Outcome.done_andThen]
  | cons t rest =>
      have ⟨notEnd, notBusiness⟩ := plain t ((afterTrivia_suffix us).subset (by simp [next]))
      obtain ⟨between, us', one, suffix, shorter, early, item⟩ :=
        item_reaches n (frame ++ (leadingTrivia (us ++ a)).map Tree.leaf) next notEnd notBusiness
          landmark
      -- Fewer tokens stand before the landmark now, and it is the same landmark.
      obtain ⟨middle, two, late, later⟩ := script_reaches n between
        (fun t member => plain t (suffix.subset member)) landmark
      refine ⟨middle, one ++ two, ?_, ?_⟩
      · intro fault member
        exact (List.mem_append.mp member).elim (early fault) (late fault)
      · have kind : nextKind (us ++ a) ≠ .eof := by
          rwa [nextKind_of_afterTrivia (afterTrivia_append next a)]
        rw [script_round kind, item]
        simp only [Outcome.andThen, later]
        cases script.readAt n middle a <;> simp
termination_by (significant us).length
decreasing_by exact shorter

/-- A script that begins with an item is read as the same parts behind anything. -/
theorem script_anew {n : Nat} {us : List Token} {own : List Tree}
    (plain : ∀ t ∈ us, t.kind ≠ .eof ∧ t.kind ≠ .businessMark)
    (landmark : Landmark TokenKind.startsItem a)
    (alone : script.readAt n [] a = .done own [] []) :
    ∃ before reported, (∀ fault ∈ reported, a <:+ fault.rest) ∧
      script.readAt n [] (us ++ a) = .done (before ++ own) [] reported := by
  obtain ⟨before, reported, stays, reached⟩ := script_reaches n [] plain landmark
  refine ⟨before, reported, stays, ?_⟩
  simp only [reached, Outcome.andThen, script_framed alone, List.append_nil]

end Form

end Grammar

/-! ## Scripts -/

theorem TokenKind.startsItem_significant {kind : TokenKind} (begins : kind.startsItem) :
    kind.isTrivia = false ∧ kind ≠ .eof := by
  cases kind <;> first | exact ⟨rfl, by decide⟩ | simp [startsItem] at begins

theorem Diagnostic.span_ofFault {limit : Nat} {scriptEnd : Text.Span} {fault : Grammar.Fault}
    {t : Token} {rest : List Token} (next : Grammar.afterTrivia fault.rest = t :: rest) :
    (ofFault limit scriptEnd fault).span = t.span := by
  rw [ofFault, next]
  cases fault.cause with
  | expected what =>
      simp only [List.head?_cons]
      split <;> rfl
  | _ => rfl

namespace Parsed

open Grammar (Fault Form Landmark Outcome afterTrivia afterTrivia_suffix isTrivia_of_afterTrivia)
open QuestScript.Tree (tokensAll)

variable {limit : Nat} {ts us : List Token} {t : Token}

theorem body_append (noEnd : ∀ u ∈ ts, u.kind ≠ .eof) (us : List Token) :
    body (ts ++ us) = ts ++ body us :=
  List.takeWhile_append_of_pos (by simpa using noEnd)

/-- A fault before a landmark is told of one of the tokens in front of it or of its first. -/
theorem span_before_landmark {stops : TokenKind → Bool} {a : List Token} {fault : Fault}
    (landmark : Landmark stops (t :: a)) (ahead : t :: a <:+ fault.rest)
    (inside : fault.rest <:+ ts ++ t :: a) (limit : Nat) (scriptEnd : Text.Span) :
    ∃ u ∈ ts ++ [t], u.isTrivia = false ∧
      (Diagnostic.ofFault limit scriptEnd fault).span = u.span := by
  obtain ⟨before, split⟩ := landmark.suffix_afterTrivia ahead
  have within : before <:+ ts := by
    have := (afterTrivia_suffix fault.rest).trans inside
    rw [← split] at this
    exact ((List.suffix_append_inj_of_length_eq rfl).mp this).1
  obtain ⟨u, rest, next, member⟩ : ∃ u rest, afterTrivia fault.rest = u :: rest ∧
      u ∈ ts ++ [t] := by
    cases before with
    | nil => exact ⟨t, a, split.symm, by simp⟩
    | cons u rest => exact ⟨u, rest ++ t :: a, split.symm, by simp [within.subset (a := u)]⟩
  exact ⟨u, member, isTrivia_of_afterTrivia next, Diagnostic.span_ofFault next⟩

/-- **An item is read afresh.**  Let a script in order begin with an item.  Behind any tokens
without the end of a file and without a business header, however they break off, it is read as
the same parts, with none of these tokens among them, and whatever is reported stands at one of
these tokens or at the first of the script. -/
theorem ofTokens_synchronizes (plain : ∀ u ∈ ts, u.kind ≠ .eof ∧ u.kind ≠ .businessMark)
    (first : us.head? = some t) (begins : t.kind.startsItem) (ok : (ofTokens limit us).isOk) :
    (∃ before, (ofTokens limit (ts ++ us)).root.children =
        before ++ (ofTokens limit us).root.children ∧ (tokensAll before).Sublist ts) ∧
      ∀ d ∈ (ofTokens limit (ts ++ us)).diagnostics,
        ∃ u ∈ ts ++ [t], u.isTrivia = false ∧ d.span = u.span := by
  obtain ⟨us, rfl⟩ := List.head?_eq_some_iff.mp first
  have ⟨notTrivia, notEnd⟩ := TokenKind.startsItem_significant begins
  have itself : body (t :: us) = t :: body us := by simp [body, notEnd]
  have whole : body (ts ++ t :: us) = ts ++ t :: body us := by
    rw [body_append fun u member => (plain u member).1, itself]
  have landmark : Landmark TokenKind.startsItem (t :: body us) := ⟨notTrivia, begins⟩
  obtain ⟨own, alone, parsed⟩ := script_of_isOk ok
  obtain ⟨parts, reported, done, parsedBoth⟩ := ofTokens_eq limit (ts ++ t :: us)
  obtain ⟨before, reported', stays, anew⟩ := Form.script_anew plain landmark (itself ▸ alone)
  obtain ⟨rfl, rfl⟩ : before ++ own = parts ∧ reported' = reported := by
    rw [whole, anew] at done
    simpa using done
  refine ⟨⟨before, by simp only [parsed, parsedBoth, children_rootOf], ?_⟩, ?_⟩
  · have leaves := (tokens_root limit (t :: us)).2 ok
    have sublist := (tokens_root limit (ts ++ t :: us)).1
    rw [parsed, tokens_rootOf, itself] at leaves
    rw [parsedBoth, tokens_rootOf, Tree.tokensAll_append, whole, leaves] at sublist
    exact (List.append_sublist_append_right (t :: body us)).mp sublist
  · have ends := Form.places_suffix Form.script_productive limit [] (body (ts ++ t :: us))
    rw [done, whole] at ends
    rw [parsedBoth, List.forall_mem_map]
    intro fault member
    exact span_before_landmark landmark (stays fault member)
      (ends fault.rest (List.mem_cons_of_mem _ (List.mem_map_of_mem member))) limit _

/-- Behind a process that breaks off inside a call, a function is read as it is on its own, and
it is told of its first token that it was not expected there. -/
theorem ofTokens_synchronizes_unclosed :
    let broken := body (Token.ofText "process p \x7b if (a) \x7b b(1, ".toList)
    let script := Token.ofText "function f() \x7b return 1; \x7d".toList
    ∃ t, script.head? = some t ∧
      (∃ before, (ofTokens 8 (broken ++ script)).root.children =
          before ++ (ofTokens 8 script).root.children ∧ (tokensAll before).Sublist broken) ∧
      ∀ d ∈ (ofTokens 8 (broken ++ script)).diagnostics,
        ∃ u ∈ broken ++ [t], u.isTrivia = false ∧ d.span = u.span := by
  intro broken script
  obtain ⟨t, first⟩ := Option.isSome_iff_exists.mp (by decide +kernel : script.head?.isSome)
  have begins : ∀ t ∈ script.head?, t.kind.startsItem := by decide +kernel
  exact ⟨t, first, ofTokens_synchronizes (by decide +kernel) first (begins t first)
    (by decide +kernel)⟩

end Parsed

end QuestScript
