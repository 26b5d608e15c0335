/-
# QuestScript.Proofs.Positions -- where the tokens of a script stand

A position moves character by character, and in the end it says what can be counted in the text
it has passed: the bytes, the newlines, and the characters behind the last of them
(`Text.Position.zero_after`).  The tokens of a script stand end to end, so where one of them
begins and ends is known from the texts before it, and these are boundaries between characters
(`Text.isValid_behind`).  Trivia is taken as far as it goes, so no other trivia stands next to it
(`Token.sparse_ofText`).
-/
import QuestScript.Proofs.Rewriting

namespace QuestScript

open Text (Position Span byteCount)

set_option autoImplicit false

namespace Text

/-! ## Counting -/

theorem byteCount_eq (cs : List Char) : byteCount cs = (String.ofList cs).utf8ByteSize := by
  induction cs with
  | nil => rfl
  | cons c cs ih =>
      rw [byteCount, ih, String.ofList_cons, String.utf8ByteSize_append,
        String.utf8ByteSize_singleton]

/-- The characters of the last line of a text. -/
def lastLine (cs : List Char) : List Char := cs.rtakeWhile (· ≠ '\n')

/-- The position behind a text, counted in the text. -/
def Position.behind (cs : List Char) : Position where
  byte := (String.ofList cs).utf8ByteSize
  line := cs.count '\n'
  column := (lastLine cs).length

/-- Reading a text from its beginning, one counts what is in it. -/
theorem Position.zero_after (cs : List Char) : Position.zero.after cs = Position.behind cs := by
  induction cs using List.reverseRecOn with
  | nil => rfl
  | append_singleton cs c ih =>
      rw [after_append, ih, after_cons, after_nil, next, behind, behind, ← byteCount_eq,
        ← byteCount_eq, byteCount_append, List.count_append, lastLine, lastLine,
        List.rtakeWhile_concat]
      by_cases newline : c = '\n'
      · simp [newline, byteCount]
      · simp [newline, byteCount]

/-- Behind the characters a text begins with is a boundary between characters of it. -/
theorem isValid_behind {text : String} {before rest : List Char}
    (split : text.toList = before ++ rest) :
    (⟨(Position.behind before).byte⟩ : String.Pos.Raw).IsValid text := by
  refine String.Pos.Raw.isValid_iff_exists_append.mpr
    ⟨String.ofList before, String.ofList rest, ?_, rfl⟩
  rw [← String.ofList_append, ← split, String.ofList_toList]

end Text

namespace Token

/-! ## Tokens end to end -/

section EndToEnd

variable {p : Position} {ts before after : List Token} {t : Token}

theorem EndToEnd.meets (h : EndToEnd p ts) :
    ts.IsChain fun t u => t.span.stop = u.span.start := by
  induction ts generalizing p with
  | nil => exact .nil
  | cons t ts ih =>
      obtain ⟨here, later⟩ := endToEnd_cons.mp h
      cases ts with
      | nil => exact .singleton t
      | cons u ts => exact .cons_cons (by rw [here, (endToEnd_cons.mp later).1]) (ih later)

/-- A token covers what is counted in the texts before it and in its own. -/
theorem EndToEnd.span_eq (h : EndToEnd .zero (before ++ t :: after)) :
    t.span = ⟨.behind (textOf before), .behind (textOf before ++ t.text.toList)⟩ := by
  rw [(endToEnd_cons.mp h.right).1, ← Position.after_append, Position.zero_after,
    Position.zero_after]

theorem EndToEnd.slice_span (h : EndToEnd .zero (before ++ t :: after)) :
    t.span.slice (textOf (before ++ t :: after)) = t.text.toList := by
  have alone : textOf [t] = t.text.toList := by simp
  rw [← alone]
  exact slice_cover (show EndToEnd .zero (before ++ (t :: [] ++ after)) from h)

end EndToEnd

/-- No trivia stands right behind trivia in a script. -/
theorem sparse_ofText (cs : List Char) :
    (ofText cs).IsChain fun t u => ¬ (t.isTrivia = true ∧ u.isTrivia = true) := by
  have stop (l : Lexeme) : ¬ (l.isTrivia = true ∧ Lexeme.isTrivia ⟨.eof, ""⟩ = true) :=
    fun both => Bool.noConfusion both.2
  have sparse : Lexeme.Sparse (Lexeme.ofText cs ++ [⟨.eof, ""⟩]) :=
    List.IsChain.append (Lexeme.row_ofText cs).sparse (.singleton _)
      (by simpa using fun l _ => stop l)
  rw [← Parsed.lexemes_ofText] at sparse
  exact (List.isChain_map lexeme).mp sparse

/-- **The tokens of a script partition it**: their texts, one behind the other, are the script;
none is empty but the last, which alone is the one for the end; no trivia stands next to trivia;
the first begins at the beginning, and each of the others where the one before it ends.  Where a
token begins and ends is counted in bytes, in newlines and in characters behind the last newline
of what stands before; these are boundaries between characters, and between them stands the text
of the token. -/
theorem ofText_partitions (text : String) :
    let ts := ofText text.toList
    String.join (ts.map Token.text) = text ∧
    ts.getLast?.map kind = some .eof ∧
    (∀ t ∈ ts.dropLast, t.text ≠ "" ∧ t.kind ≠ .eof) ∧
    ts.IsChain (fun t u => ¬ (t.kind = .trivia ∧ u.kind = .trivia)) ∧
    ts.head?.map (fun t => t.span.start) = some .zero ∧
    ts.IsChain (fun t u => t.span.stop = u.span.start) ∧
    ∀ before t after, ts = before ++ t :: after →
      t.span.start = .behind (textOf before) ∧
      t.span.stop = .behind (textOf before ++ t.text.toList) ∧
      (⟨t.span.start.byte⟩ : String.Pos.Raw).IsValid text ∧
      (⟨t.span.stop.byte⟩ : String.Pos.Raw).IsValid text ∧
      t.span.slice text.toList = t.text.toList := by
  intro ts
  have whole : textOf ts = text.toList := textOf_ofText text.toList
  have placed : EndToEnd .zero ts := endToEnd_ofText text.toList
  refine ⟨?_, by simp [ts, ofText, atEnd], fun t member => ?_, ?_, ?_, placed.meets,
    fun before t after split => ?_⟩
  · rw [← String.toList_inj, String.toList_join, List.flatMap_map]
    exact whole
  · have lexeme := lexeme_mem_of_placed (List.dropLast_concat ▸ member)
    exact ⟨fun empty => Lexeme.text_ne_nil _ lexeme (congrArg String.toList empty),
      Lexeme.kind_ne_eof _ lexeme⟩
  · exact (sparse_ofText text.toList).imp fun t u apart both =>
      apart ⟨by rw [isTrivia, both.1]; rfl, by rw [isTrivia, both.2]; rfl⟩
  · obtain ⟨first, rest, split⟩ := List.exists_cons_of_ne_nil (show ts ≠ [] by simp [ts, ofText])
    rw [split] at placed ⊢
    rw [List.head?_cons, Option.map_some, (endToEnd_cons.mp placed).1]
  · rw [split] at whole placed
    have slice := placed.slice_span
    rw [whole] at slice
    rw [textOf_append, textOf_cons] at whole
    have start := Text.isValid_behind whole.symm
    have stop := Text.isValid_behind (whole.symm.trans (List.append_assoc ..).symm)
    rw [placed.span_eq] at slice ⊢
    exact ⟨rfl, rfl, start, stop, slice⟩

/-- A string that is not closed, on the third line, behind a comment and two newlines. -/
theorem ofText_partitions_string :
    let text := "é // ½\n\n'é"
    let before : List Token := [⟨.identifier, ⟨⟨0, 0, 0⟩, ⟨2, 0, 1⟩⟩, "é"⟩,
      ⟨.trivia, ⟨⟨2, 0, 1⟩, ⟨10, 2, 0⟩⟩, " // ½\n\n"⟩]
    let t : Token := ⟨.string, ⟨⟨10, 2, 0⟩, ⟨13, 2, 2⟩⟩, "'é"⟩
    (t ∈ (ofText text.toList).dropLast ∧ t.text ≠ "" ∧ t.kind ≠ .eof) ∧
    ofText text.toList = before ++ t :: [atEnd ⟨13, 2, 2⟩] ∧
      t.span.start = .behind (textOf before) ∧
      t.span.stop = .behind (textOf before ++ t.text.toList) ∧
      (⟨t.span.start.byte⟩ : String.Pos.Raw).IsValid text ∧
      (⟨t.span.stop.byte⟩ : String.Pos.Raw).IsValid text ∧
      t.span.slice text.toList = t.text.toList := by
  intro text before t
  have split : ofText text.toList = before ++ t :: [atEnd ⟨13, 2, 2⟩] := by decide +kernel
  have member : t ∈ (ofText text.toList).dropLast := by rw [split]; decide
  obtain ⟨-, -, some, -, -, -, counted⟩ := ofText_partitions text
  exact ⟨⟨member, some t member⟩, split, counted before t _ split⟩

end Token

end QuestScript
