/-
# QuestScript.Proofs.Partition -- the lexer cuts a script into stretches

Nothing of a script is lost in its tokens: their texts, one behind the other, are the
script, and they stand end to end (`Token.textOf_ofText`, `Parsed.endToEnd_body`).  Only
the last token is one for the end of the script.
-/
import QuestScript.Parsed
import QuestScript.Proofs.Slicing

namespace QuestScript

open Text (Position)

set_option autoImplicit false

namespace Lexeme

variable {kind : TokenKind}

theorem joined_ne (cs : List Char) {pairs : List (Char × TokenKind)} {alone : TokenKind}
    (hp : ∀ pair ∈ pairs, pair.2 ≠ kind) (ha : alone ≠ kind) : (joined cs pairs alone).1 ≠ kind := by
  unfold joined
  split
  · rename_i pair found
    exact hp pair (List.mem_of_find?_eq_some found)
  · exact ha

/-- A word is a keyword or a name. -/
theorem wordKind_ne (word : List Char) (notKeyword : kind.isKeyword = false)
    (notName : kind ≠ .identifier) : wordKind word ≠ kind := by
  unfold wordKind
  cases found : TokenKind.keywords.find? fun kind => kind.display.toList = word with
  | none => exact notName.symm
  | some keyword =>
      have isKeyword := (List.mem_filter.mp (List.mem_of_find?_eq_some found)).2
      rintro rfl
      exact absurd isKeyword (by simpa using notKeyword)

theorem markKind_ne (mark : List Char) (notMark : kind ≠ .kindMark ∧ kind ≠ .businessMark)
    (notError : kind ≠ .error) : markKind mark ≠ kind := by
  unfold markKind
  cases found : [TokenKind.kindMark, .businessMark].find? fun kind => kind.display.toList = mark with
  | none => exact notError.symm
  | some kind =>
      have member := List.mem_of_find?_eq_some found
      simp only [List.mem_cons, List.not_mem_nil, or_false] at member
      rcases member with rfl | rfl
      · exact notMark.1.symm
      · exact notMark.2.symm

/-- No stretch of a script is the end of it. -/
theorem scan_ne_eof (c : Char) (cs : List Char) : (scan c cs).1 ≠ .eof := by
  unfold scan
  simp only
  split
  · simp
  · split <;> first
      | exact markKind_ne _ (by simp) (by simp)
      | (apply joined_ne <;> simp)
      | skip
    all_goals repeat' split
    all_goals first
      | exact wordKind_ne _ rfl (by simp)
      | simp

/-- Induction along the lexer: from what one token leaves to the whole text. -/
theorem scan_induction {motive : List Char → Prop} (nil : motive [])
    (cons : ∀ c cs, motive (cs.drop (scan c cs).2) → motive (c :: cs)) (cs : List Char) :
    motive cs := by
  cases cs with
  | nil => exact nil
  | cons c cs => exact cons c cs (scan_induction nil cons (cs.drop (scan c cs).2))
termination_by cs.length
decreasing_by
  rw [List.length_drop, List.length_cons]
  omega

theorem kind_ne_eof {cs : List Char} : ∀ l ∈ ofText cs, l.kind ≠ .eof := by
  induction cs using scan_induction with
  | nil => simp
  | cons c cs ih =>
      rw [ofText_cons]
      intro l member
      rcases List.mem_cons.mp member with rfl | later
      · exact scan_ne_eof c cs
      · exact ih l later

theorem text_ne_nil {cs : List Char} : ∀ l ∈ ofText cs, l.text.toList ≠ [] := by
  induction cs using scan_induction with
  | nil => simp
  | cons c cs ih =>
      rw [ofText_cons]
      intro l member
      rcases List.mem_cons.mp member with rfl | later
      · simp
      · exact ih l later

/-- The characters of some lexemes, one behind the other. -/
def textOf (ls : List Lexeme) : List Char := ls.flatMap fun l => l.text.toList

/-- The lexemes of a script are the script. -/
theorem textOf_ofText (cs : List Char) : textOf (ofText cs) = cs := by
  induction cs using scan_induction with
  | nil => rfl
  | cons c cs ih =>
      rw [ofText_cons, textOf, List.flatMap_cons, ← textOf, ih, String.toList_ofList,
        List.cons_append, List.take_append_drop]

end Lexeme

namespace Token

theorem textOf_placed (p : Position) (ls : List Lexeme) :
    textOf (placed p ls) = Lexeme.textOf ls := by
  induction ls generalizing p with
  | nil => rfl
  | cons l ls ih => simp [placed, ih, Lexeme.textOf]

theorem textOf_ofText (cs : List Char) : textOf (ofText cs) = cs := by
  rw [ofText, textOf_append, textOf_placed, Lexeme.textOf_ofText]
  exact List.append_nil cs

/-- The tokens of a script stand end to end, that of its end included. -/
theorem endToEnd_ofText (cs : List Char) : EndToEnd .zero (ofText cs) := by
  refine endToEnd_append.mpr ⟨endToEnd_placed .zero _, ?_⟩
  rw [textOf_placed, Lexeme.textOf_ofText]
  rfl

theorem lexeme_mem_of_placed {p : Position} {ls : List Lexeme} {t : Token} (h : t ∈ placed p ls) :
    t.lexeme ∈ ls := by
  rw [← lexeme_placed p ls]
  exact List.mem_map_of_mem h

end Token

namespace Parsed

/-- The tokens of a script before its end. -/
theorem body_ofText (cs : List Char) :
    body (Token.ofText cs) = Token.placed .zero (Lexeme.ofText cs) := by
  have kinds : ∀ t ∈ Token.placed .zero (Lexeme.ofText cs), (t.kind != .eof) = true := by
    intro t member
    simpa [Token.lexeme] using Lexeme.kind_ne_eof _ (Token.lexeme_mem_of_placed member)
  rw [body, Token.ofText, List.takeWhile_append_of_pos kinds]
  simp [Token.atEnd]

theorem lexemes_ofText (cs : List Char) :
    (Token.ofText cs).map Token.lexeme = Lexeme.ofText cs ++ [⟨.eof, ""⟩] := by
  rw [Token.ofText, List.map_append, Token.lexeme_placed]
  rfl

theorem lexemes_body (cs : List Char) :
    (body (Token.ofText cs)).map Token.lexeme = Lexeme.ofText cs := by
  rw [body_ofText, Token.lexeme_placed]

theorem textOf_body (cs : List Char) : Token.textOf (body (Token.ofText cs)) = cs := by
  rw [body_ofText, Token.textOf_placed, Lexeme.textOf_ofText]

theorem text_ne_nil_of_mem_body {cs : List Char} :
    ∀ t ∈ body (Token.ofText cs), t.text.toList ≠ [] := by
  rw [body_ofText]
  exact fun t member => Lexeme.text_ne_nil _ (Token.lexeme_mem_of_placed member)

theorem endToEnd_body (cs : List Char) : Token.EndToEnd .zero (body (Token.ofText cs)) := by
  rw [body_ofText]
  exact Token.endToEnd_placed .zero _

end Parsed

end QuestScript
