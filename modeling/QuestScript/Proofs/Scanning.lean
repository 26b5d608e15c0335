/-
# QuestScript.Proofs.Scanning -- the lexer as a cursor

The lexer takes the characters of a token off a list and puts tokens in their places when it
has them all.  A cursor knows nothing of tokens: it moves over one character at a time and
counts as it moves.  Both are one way to read a text (`Token.walk_ofText`): each token begins
where the cursor is, the cursor moves over the characters of the token and over no others, and
the next one begins where it is then.  A word is all that the cursor can move over before a
character that continues none, and so is an annotation behind its first character.
-/
import Mathlib.Logic.Function.Iterate
import QuestScript.Proofs.Extent
import QuestScript.Proofs.Partition
import QuestScript.Text.Cursor

namespace QuestScript

open Text (Cursor Position)

set_option autoImplicit false

/-! ## Moving a cursor -/

namespace Text.Cursor

/-- Moving over some characters, one after the other. -/
theorem iterate_advance (n : Nat) (here : Cursor) :
    advance^[n] here = ⟨here.rest.drop n, here.position.after (here.rest.take n)⟩ := by
  induction n generalizing here with
  | zero => rfl
  | succ n ih =>
      obtain ⟨rest, position⟩ := here
      rw [Function.iterate_succ_apply, ih]
      cases rest <;> simp [advance]

/-- Moving on while characters satisfy something is moving over as many as do. -/
theorem advanceWhile_eq (p : Char → Bool) (here : Cursor) :
    here.advanceWhile p = advance^[Lexeme.runExtent p here.rest] here := by
  obtain ⟨rest, position⟩ := here
  induction rest generalizing position with
  | nil => rfl
  | cons x xs ih =>
      rw [advanceWhile_cons]
      by_cases goesOn : p x
      · rw [if_pos goesOn, Lexeme.runExtent, List.takeWhile_cons_of_pos goesOn, List.length_cons,
          Function.iterate_succ_apply]
        exact ih _
      · rw [if_neg goesOn, Lexeme.runExtent, List.takeWhile_cons_of_neg goesOn]
        rfl

end Text.Cursor

/-! ## Words and annotations -/

namespace Lexeme

variable {c : Char} {cs : List Char}

/-- What begins a word continues one. -/
theorem continuesWord_of_startsWord (h : startsWord c) : continuesWord c := by
  simp only [startsWord, continuesWord, Bool.or_eq_true] at h ⊢
  exact h.imp (Or.imp Text.isAlphanumeric_of_isAlphabetic id) id

theorem not_startsWord_of_isDigit (digit : c.isDigit) : startsWord c = false := by
  simpa using of_isDigit (p := fun c => !startsWord c) (by decide +kernel) digit

theorem scan_of_startsWord (h : startsWord c) (cs : List Char) :
    scan c cs = (wordKind (c :: cs.takeWhile continuesWord), runExtent continuesWord cs) := by
  have other {d : Char} (no : startsWord d = false) : c ≠ d := by
    rintro rfl
    simp [h] at no
  have quiet : Quiet (c :: cs) := quiet_cons.mpr
    ⟨isBlank_of_continuesWord (continuesWord_of_startsWord h),
      fun slash => absurd slash (other (by decide +kernel))⟩
  have notQuote : (c = '"' || c = '\'') = false := by
    simp [other (d := '"') (by decide +kernel), other (d := '\'') (by decide +kernel)]
  have notDigit : c.isDigit = false := Bool.eq_false_iff.mpr fun digit => by
    simp [not_startsWord_of_isDigit digit] at h
  simp only [scan, show triviaExtent .blank (c :: cs) = 0 from quiet, gt_iff_lt, Nat.lt_irrefl,
    if_false]
  split <;> first
    | exact absurd h (by decide +kernel)
    | simp [notQuote, notDigit, h]

theorem scan_mark (cs : List Char) :
    scan '@' cs = (markKind ('@' :: cs.takeWhile continuesMark), runExtent continuesMark cs) := by
  have quiet : Quiet ('@' :: cs) := quiet_cons.mpr ⟨by decide, by simp⟩
  simp only [scan, show triviaExtent .blank ('@' :: cs) = 0 from quiet, gt_iff_lt, Nat.lt_irrefl,
    if_false]

end Lexeme

/-! ## Tokens -/

namespace Token

open Lexeme (scan scan_induction startsWord continuesWord continuesMark)

/-- The cursor moves over the token. -/
structure Passes (here : Cursor) (t : Token) (behind : Cursor) : Prop where
  written : t.text.toList ≠ []
  moved : behind = Cursor.advance^[t.text.toList.length] here
  text : here.rest = t.text.toList ++ behind.rest
  span : t.span = ⟨here.position, behind.position⟩
  word : ∀ c, here.peek = some c → startsWord c → behind = here.advanceWhile continuesWord
  mark : here.peek = some '@' → behind = here.advance.advanceWhile continuesMark

/-- The cursor moves over the tokens, one after the other, up to the end. -/
inductive Walk : Cursor → List Token → Prop
  | atEnd {here : Cursor} (done : here.isAtEnd) : Walk here [Token.atEnd here.position]
  | pass {here behind : Cursor} {t : Token} {ts : List Token} (passes : Passes here t behind)
      (others : Walk behind ts) : Walk here (t :: ts)

/-- A cursor moves over what the lexer takes off. -/
theorem passes_scan (c : Char) (cs : List Char) (p : Position) :
    let text := c :: cs.take (scan c cs).2
    Passes ⟨c :: cs, p⟩ ⟨(scan c cs).1, ⟨p, p.after text⟩, String.ofList text⟩
      ⟨cs.drop (scan c cs).2, p.after text⟩ := by
  intro text
  have length : text.length = (scan c cs).2 + 1 := by
    rw [List.length_cons, List.length_take, Nat.min_eq_left (Lexeme.scan_le c cs)]
  have moved : (⟨cs.drop (scan c cs).2, p.after text⟩ : Cursor) =
      Cursor.advance^[(scan c cs).2 + 1] ⟨c :: cs, p⟩ := by
    rw [Cursor.iterate_advance]
    rfl
  refine ⟨by simp [text], ?_, ?_, rfl, fun d first starts => ?_, fun first => ?_⟩
  · rw [moved, String.toList_ofList, length]
  · simp [text]
  · obtain rfl : c = d := Option.some.inj first
    have continues := Lexeme.continuesWord_of_startsWord starts
    rw [moved, Cursor.advanceWhile_eq, Lexeme.scan_of_startsWord starts, Lexeme.runExtent,
      Lexeme.runExtent, List.takeWhile_cons_of_pos continues, List.length_cons]
  · obtain rfl : c = '@' := Option.some.inj first
    rw [moved, Cursor.advanceWhile_eq, Lexeme.scan_mark, Function.iterate_succ_apply]
    rfl

/-- **The tokens of a text are those that a cursor moves over.** -/
theorem walk_ofText (cs : List Char) : Walk (Cursor.ofText cs) (ofText cs) := by
  rw [ofText, Cursor.ofText]
  generalize Position.zero = p
  induction cs using scan_induction generalizing p with
  | nil => exact .atEnd rfl
  | cons c cs ih =>
      have others := ih (p.after (c :: cs.take (scan c cs).2))
      rw [← Position.after_append, List.cons_append, List.take_append_drop] at others
      rw [Lexeme.ofText_cons, placed, String.toList_ofList]
      exact .pass (passes_scan c cs p) others

end Token

end QuestScript
