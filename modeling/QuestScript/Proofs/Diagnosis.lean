/-
# QuestScript.Proofs.Diagnosis -- where diagnostics point, and in which order

Reading only ever goes forward.  What was left where a fault was reported is an end of what
was left at the fault before it, and what is left when reading comes to its end, or gives up,
is an end of all of these: an outcome descends from the tokens it was read from
(`Outcome.Descends`, `Form.readAt_descends`).  That is so although a fault is carried up through
many forms before it is reported, for nothing is read in the meantime, and what was looked for
ahead reports nothing.

A diagnostic points at the first token that is not trivia where its fault was, or at the end of
the script (`Token.upcoming`).  The tokens of a script begin one behind the other, so its
diagnostics stand in the order of the script (`Parsed.ofText_diagnostics`).
-/
import QuestScript.Proofs.Lossless

namespace QuestScript

set_option autoImplicit false

namespace Grammar

/-! ## Reading goes forward -/

/-- What was left where faults were reported, in order, and then what is left. -/
def Outcome.trail : Outcome → List (List Token)
  | .done _ rest reported => reported.map Fault.rest ++ [rest]
  | .failed fault reported => reported.map Fault.rest ++ [fault.rest]

/-- Each place on the way leaves an end of what the places before it leave, and the way begins
at `ts`. -/
def Outcome.Descends (ts : List Token) (o : Outcome) : Prop :=
  (ts :: o.trail).Pairwise fun earlier later => later <:+ earlier

namespace Outcome

variable {o : Outcome} {frame : List Tree} {ts rest : List Token} {reported : List Fault}

@[simp] theorem trail_into (o : Outcome) (outer : List Tree) : (o.into outer).trail = o.trail := by
  cases o <;> rfl

theorem descends_done (h : rest <:+ ts) : (Outcome.done frame rest []).Descends ts := by
  simpa [Descends, trail] using h

theorem descends_failed (cause : Cause) (ts : List Token) :
    (Outcome.failed ⟨cause, ts⟩ []).Descends ts := by
  simp [Descends, trail]

/-- Two ways of which one begins where the other ends are one way. -/
theorem descends_trans {before behind : List (List Token)} {here : List Token}
    (left : (before ++ [here]).Pairwise fun earlier later => later <:+ earlier)
    (right : (here :: behind).Pairwise fun earlier later => later <:+ earlier) :
    (before ++ here :: behind).Pairwise fun earlier later => later <:+ earlier := by
  obtain ⟨first, -, reaches⟩ := List.pairwise_append.mp left
  obtain ⟨below, -⟩ := List.pairwise_cons.mp right
  refine List.pairwise_append.mpr ⟨first, right, fun earlier member later behindHere => ?_⟩
  have start : here <:+ earlier := reaches earlier member here (by simp)
  rcases List.mem_cons.mp behindHere with rfl | behindHere
  · exact start
  · exact (below later behindHere).trans start

theorem Descends.andThen {next : Reader} (h : o.Descends ts)
    (behind : ∀ frame rest reported, o = .done frame rest reported →
      (next frame rest).Descends rest) : (o.andThen next).Descends ts := by
  cases o with
  | failed fault reported => exact h
  | done frame rest reported =>
      have later := behind frame rest reported rfl
      -- The place between the two forms is no place of the sequence.
      have whole : (ts :: reported.map Fault.rest ++ rest :: (next frame rest).trail).Pairwise
          fun earlier later => later <:+ earlier := descends_trans h later
      have fewer := whole.sublist ((List.Sublist.refl (ts :: reported.map Fault.rest)).append
        (List.sublist_cons_self rest (next frame rest).trail))
      cases read : next frame rest <;> simpa [Descends, trail, Outcome.andThen, read] using fewer

theorem Descends.orElse {skip : List Token → Outcome} (h : o.Descends ts)
    (behind : ∀ fault reported, o = .failed fault reported →
      (skip fault.rest).Descends fault.rest) : (o.orElse skip).Descends ts := by
  cases o with
  | done frame rest reported => exact h
  | failed fault reported =>
      have later := behind fault reported rfl
      have whole : (ts :: reported.map Fault.rest ++ fault.rest :: (skip fault.rest).trail).Pairwise
          fun earlier later => later <:+ earlier := descends_trans h later
      cases skipped : skip fault.rest <;>
        simpa [Descends, trail, Outcome.orElse, skipped] using whole

end Outcome

theorem Reader.ofToken_descends (test : Token → Option Cause) (atEnd : Cause)
    (frame : List Tree) (ts : List Token) : (ofToken test atEnd frame ts).Descends ts := by
  rcases ofToken_cases test atEnd frame ts with ⟨cause, failed⟩ | ⟨t, rest, next, -, done⟩
  · rw [failed]
    exact Outcome.descends_failed cause ts
  · rw [done]
    exact Outcome.descends_done (suffix_of_afterTrivia next)

namespace Form

theorem descends_inductive : Inductive fun n f frame ts => (f.readAt n frame ts).Descends ts where
  empty n frame ts := Outcome.descends_done List.suffix_rfl
  trivia n frame ts := Outcome.descends_done (afterTrivia_suffix ts)
  token n admits expected frame ts := Reader.ofToken_descends _ _ frame ts
  string n expected frame ts := Reader.ofToken_descends _ _ frame ts
  refuse n expected frame ts := Outcome.descends_failed _ ts
  close n rule frame ts := Outcome.descends_done List.suffix_rfl
  seq n first second frame ts ihFirst ihSecond := ihFirst.andThen ihSecond
  frame n body outer ts ih := by simpa [Outcome.Descends] using ih
  choose n look admits yes no frame ts _ ihYes ihNo := by
    rw [readAt_choose]
    split
    · rename_i looked
      exact ihYes looked
    · rename_i failed
      exact ihNo (by simpa using failed)
  stop n look admits body frame ts productive _ stopped := by
    rw [readAt_repeated productive, stopped]
    exact Outcome.descends_done List.suffix_rfl
  round n look admits body frame ts productive _ looked ihBody ihRest := by
    rw [readAt_repeated productive, if_pos looked]
    exact ihBody.andThen ihRest
  tooDeep entry frame ts := Outcome.descends_failed _ ts
  enter n entry frame ts ih := ih
  recover n body skip frame ts ihBody ihSkip := ihBody.orElse ihSkip

/-- Reading goes forward from one report to the next. -/
theorem readAt_descends {f : Form} (productive : f.productive) (n : Nat) (frame : List Tree)
    (ts : List Token) : (f.readAt n frame ts).Descends ts :=
  readAt_induct descends_inductive n productive frame ts

end Form

end Grammar

/-! ## The tokens that diagnostics point at -/

theorem Grammar.afterTrivia_of_suffix {ts us : List Token} (h : us <:+ ts) :
    afterTrivia us <:+ afterTrivia ts := by
  obtain ⟨front, rfl⟩ := h
  simp only [afterTrivia, List.dropWhile_append]
  split
  · exact List.suffix_rfl
  · exact (List.dropWhile_suffix _).trans (List.suffix_append _ us)

namespace Token

open Grammar (afterTrivia)

/-- The next token that is not trivia, or the one at the end. -/
def upcoming (stop : Token) (ts : List Token) : Token := (afterTrivia ts).head?.getD stop

theorem head?_upcoming (stop : Token) (ts : List Token) :
    (afterTrivia ts ++ [stop]).head? = some (upcoming stop ts) := by
  rw [upcoming]
  cases afterTrivia ts <;> rfl

theorem isTrivia_upcoming {stop : Token} (plain : stop.isTrivia = false) (ts : List Token) :
    (upcoming stop ts).isTrivia = false := by
  rw [upcoming]
  cases next : afterTrivia ts with
  | nil => exact plain
  | cons t rest => exact Grammar.isTrivia_of_afterTrivia next

/-- Where less is left, the next token is one of those that were left before. -/
theorem upcoming_mem_of_suffix (stop : Token) {ts us : List Token} (h : us <:+ ts) :
    upcoming stop us ∈ afterTrivia ts ++ [stop] := by
  have first := List.mem_of_head? (head?_upcoming stop us)
  rcases List.mem_append.mp first with inside | atStop
  · exact List.mem_append_left _ ((Grammar.afterTrivia_of_suffix h).subset inside)
  · exact List.mem_append_right _ atStop

/-- Where less is left, the next token begins no earlier. -/
theorem upcoming_le {stop : Token} {ts us : List Token} (h : us <:+ ts)
    (ordered : (ts ++ [stop]).Pairwise fun t u => t.span.start.byte ≤ u.span.start.byte) :
    (upcoming stop ts).span.start.byte ≤ (upcoming stop us).span.start.byte := by
  have later := upcoming_mem_of_suffix stop h
  have row := ordered.sublist ((Grammar.afterTrivia_suffix ts).sublist.append_right [stop])
  obtain ⟨rest, whole⟩ : ∃ rest, afterTrivia ts ++ [stop] = upcoming stop ts :: rest :=
    List.head?_eq_some_iff.mp (head?_upcoming stop ts)
  rw [whole] at later row
  rcases List.mem_cons.mp later with same | behind
  · rw [same]
  · exact (List.pairwise_cons.mp row).1 _ behind

/-- Tokens that stand end to end begin one behind the other. -/
theorem EndToEnd.ordered {p : Text.Position} {ts : List Token} (h : EndToEnd p ts) :
    (∀ t ∈ ts, p.byte ≤ t.span.start.byte) ∧
      ts.Pairwise fun t u => t.span.start.byte ≤ u.span.start.byte := by
  induction ts generalizing p with
  | nil => simp
  | cons t ts ih =>
      obtain ⟨here, later⟩ := endToEnd_cons.mp h
      obtain ⟨behind, ordered⟩ := ih later
      have start : t.span.start = p := by rw [here]
      have reaches : ∀ u ∈ ts, p.byte ≤ u.span.start.byte := by
        intro u member
        have := behind u member
        rw [Text.Position.byte_after] at this
        omega
      exact ⟨List.forall_mem_cons.mpr ⟨by rw [start], reaches⟩,
        List.pairwise_cons.mpr ⟨by rwa [start], ordered⟩⟩

end Token

theorem Diagnostic.span_upcoming (limit : Nat) (stop : Token) (fault : Grammar.Fault) :
    (ofFault limit stop.span fault).span = (Token.upcoming stop fault.rest).span := by
  have place : ((Grammar.afterTrivia fault.rest).head?.map Token.span).getD stop.span =
      (Token.upcoming stop fault.rest).span := Option.getD_map ..
  unfold ofFault
  rw [← place]
  cases fault.cause with
  | tooDeep => rfl
  | openString => rfl
  | expected what =>
      cases (Grammar.afterTrivia fault.rest).head? with
      | none => rfl
      | some t => by_cases unknown : t.kind = .error <;> simp [unknown]

namespace Parsed

open Grammar (Form Fault)

/-- The tokens of a script are what is read of it and one at its end. -/
theorem ofText_eq_body (cs : List Char) :
    ∃ stop : Token, Token.ofText cs = body (Token.ofText cs) ++ [stop] ∧
      stop.isTrivia = false ∧ endSpan (Token.ofText cs) = stop.span := by
  have whole := body_ofText cs
  refine ⟨.atEnd (Text.Position.zero.after cs), by rw [whole]; rfl, rfl, ?_⟩
  have before : (Token.placed .zero (Lexeme.ofText cs)).find? (fun t => t.kind == .eof) = none := by
    rw [← whole]
    simpa using fun t => @body_ne_eof (Token.ofText cs) t
  rw [endSpan, Token.ofText, List.find?_append, before]
  rfl

/-- The tokens of a script begin one behind the other, the one at its end being the last. -/
theorem ordered_ofText (cs : List Char) :
    (Token.ofText cs).Pairwise fun t u => t.span.start.byte ≤ u.span.start.byte :=
  (Token.endToEnd_ofText cs).ordered.2

/-- The diagnostics of a script are those of faults, each of which left an end of what the faults
before it left. -/
theorem diagnostics_eq (limit : Nat) (ts : List Token) :
    ∃ reported : List Fault, (ofTokens limit ts).diagnostics =
        reported.map (Diagnostic.ofFault limit (endSpan ts)) ∧
      (body ts :: reported.map Fault.rest).Pairwise fun earlier later => later <:+ earlier := by
  obtain ⟨parts, reported, done, whole⟩ := ofTokens_eq limit ts
  have descends := Form.readAt_descends Form.script_productive limit [] (body ts)
  rw [done] at descends
  refine ⟨reported, by rw [whole], descends.sublist ?_⟩
  exact (List.sublist_append_left _ _).cons_cons (body ts)

/-- A tree that holds an error node comes with a diagnostic. -/
theorem diagnostics_of_error {limit : Nat} {ts : List Token} {node : Tree}
    (member : node ∈ (ofTokens limit ts).root.nodes) (isError : node.label = .rule .error) :
    (ofTokens limit ts).diagnostics ≠ [] := by
  intro none
  obtain ⟨parts, root, sound⟩ := root_of_isOk (isOk_iff.mpr none)
  have rooted : (rootOf (endSpan ts) parts).nodes =
      rootOf (endSpan ts) parts :: Tree.nodesAll parts := by
    cases parts <;> rfl
  rw [root, rooted, List.mem_cons] at member
  rcases member with rfl | below
  · cases parts <;> simp [rootOf, Tree.ofRule] at isError
  · obtain ⟨part, isPart, inside⟩ := Tree.mem_nodesAll.mp below
    exact (sound part isPart).2 node inside isError

/-- **Diagnostics stand in the order of the script.**  Each points at a token of the script that is
not trivia, or at its end; none begins before the one reported before it; and no tokens are under
an error node without a diagnostic. -/
theorem ofText_diagnostics (limit : Nat) (source : String) :
    let parsed := ofText limit source
    (∀ d ∈ parsed.diagnostics, ∃ t ∈ Token.ofText source.toList,
      t.isTrivia = false ∧ d.span = t.span) ∧
    parsed.diagnostics.Pairwise (fun d e => d.span.start.byte ≤ e.span.start.byte) ∧
    ((∃ node ∈ parsed.root.nodes, node.label = .rule .error) → parsed.diagnostics ≠ []) := by
  intro parsed
  have errors : (∃ node ∈ parsed.root.nodes, node.label = .rule .error) →
      parsed.diagnostics ≠ [] := fun ⟨node, member, isError⟩ => diagnostics_of_error member isError
  obtain ⟨stop, whole, plain, atEnd⟩ := ofText_eq_body source.toList
  obtain ⟨reported, same, descends⟩ := diagnostics_eq limit (Token.ofText source.toList)
  obtain ⟨within, chain⟩ := List.pairwise_cons.mp descends
  rw [atEnd] at same
  have ordered := ordered_ofText source.toList
  rw [whole] at ordered
  refine ⟨fun d member => ?_, ?_, errors⟩
  · obtain ⟨fault, isFault, rfl⟩ := List.mem_map.mp (same ▸ member)
    have next := Token.upcoming_mem_of_suffix stop (within _ (List.mem_map_of_mem isFault))
    refine ⟨Token.upcoming stop fault.rest, ?_, Token.isTrivia_upcoming plain _,
      Diagnostic.span_upcoming limit stop fault⟩
    rw [whole]
    exact ((Grammar.afterTrivia_suffix _).sublist.append_right [stop]).subset next
  · show (ofTokens limit (Token.ofText source.toList)).diagnostics.Pairwise _
    rw [same, List.pairwise_map]
    rw [List.pairwise_map] at chain
    refine chain.imp_of_mem fun {fault later} isFault _ less => ?_
    rw [Diagnostic.span_upcoming, Diagnostic.span_upcoming]
    have inside := within _ (List.mem_map_of_mem isFault)
    exact Token.upcoming_le less (ordered.sublist (inside.sublist.append_right [stop]))

/-- Two statements and an item that give up are reported in their order, and then the end. -/
theorem ofText_diagnostics_errors :
    let source := "process p \x7b a = ; f(1 2); \x7d ? process q \x7b"
    let parsed := ofText 8 source
    parsed.diagnostics.map (·.span.start.byte) = [16, 22, 28, 41] ∧
      (∃ node ∈ parsed.root.nodes, node.label = .rule .error) ∧
      (∀ d ∈ parsed.diagnostics, ∃ t ∈ Token.ofText source.toList,
        t.isTrivia = false ∧ d.span = t.span) ∧
      parsed.diagnostics.Pairwise (fun d e => d.span.start.byte ≤ e.span.start.byte) ∧
      parsed.diagnostics ≠ [] := by
  intro source parsed
  have skipped : ∃ node ∈ parsed.root.nodes, node.label = .rule .error := by decide +kernel
  have ⟨tokens, ordered, reports⟩ := ofText_diagnostics 8 source
  exact ⟨by decide +kernel, skipped, tokens, ordered, reports skipped⟩

end Parsed

end QuestScript
