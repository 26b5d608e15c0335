/-
# QuestScript.Proofs.Spellings -- tokens on their own

Where a token ends is decided by what stands behind it, but it does not take the rest of the
script to decide it so: a token that stands before a text stands at the end of one as well
(`Lexeme.Stands.alone`).  So the text of a token, read on its own, is that token again.

The kinds that are spelled in one way are therefore known from the text: a token is of such a
kind just if it is spelled like it (`Lexeme.Stands.kind_eq_iff`), and a name is spelled like none
of them.
-/
import QuestScript.Proofs.Rendered

namespace QuestScript

set_option autoImplicit false

namespace Lexeme

variable {l : Lexeme} {rest : List Char}

/-! ## Without the text behind -/

/-- What ends a string is part of it, or a newline that is left. -/
theorem stringExtent_alone {quote : Char} {escaped : Bool} {cs : List Char}
    (whole : stringExtent quote escaped (cs ++ rest) = cs.length) :
    stringExtent quote escaped cs = cs.length := by
  induction cs generalizing escaped with
  | nil => cases escaped <;> rfl
  | cons c cs ih =>
      obtain ⟨rfl, rfl, rfl⟩ | ⟨goesOn, more⟩ := stringExtent_cons whole
      · simp [stringExtent]
      · rw [stringExtent_of_goesOn goesOn, ih more, List.length_cons]

theorem triviaExtent_alone {text : List Char}
    (whole : triviaExtent .blank (text ++ rest) = text.length) :
    triviaExtent .blank text = text.length := by
  by_cases ends : rest = []
  · rwa [ends, List.append_nil] at whole
  · have none : triviaExtent .blank [] = 0 := rfl
    simpa [none] using (triviaExtent_closed ends whole).2 []

/-- What stands before a text stands at the end of one. -/
theorem Stands.alone (h : l.Stands rest) : l.Stands [] := by
  by_cases trivia : l.kind = .trivia
  · obtain ⟨some, whole⟩ := (stands_trivia trivia).mp h
    exact (stands_trivia trivia).mpr ⟨some, by rw [List.append_nil]; exact triviaExtent_alone whole⟩
  by_cases string : l.kind = .string
  · obtain ⟨quote, body, text, isQuote, whole⟩ := (stands_string string).mp h
    exact (stands_string string).mpr
      ⟨quote, body, text, isQuote, by rw [List.append_nil]; exact stringExtent_alone whole⟩
  · have significant : l.isTrivia = false :=
      Bool.eq_false_iff.mpr fun isTrivia => trivia (kind_of_isTrivia isTrivia)
    exact h.replace ⟨significant, fun isString => absurd isString string⟩
      ⟨by simp, by simp [opensFraction]⟩

/-- The text of a lexeme is read as that lexeme. -/
theorem Stands.ofText (h : l.Stands rest) : ofText l.text.toList = [l] := by
  have row : Row [l] [] := row_singleton.mpr h.alone
  simpa using row.ofText

/-! ## Spellings -/

theorem ofText_display {kind : TokenKind} (spelled : kind.isSpelled) :
    ofText kind.display.toList = [⟨kind, kind.display⟩] := by
  cases kind <;> first
    | decide +kernel
    | simp [TokenKind.isSpelled] at spelled

/-- A lexeme is of a kind that is spelled in one way just if it is spelled so. -/
theorem Stands.kind_eq_iff (h : l.Stands rest) {kind : TokenKind} (spelled : kind.isSpelled) :
    l.kind = kind ↔ l.text = kind.display := by
  constructor
  · rintro rfl
    have significant : l.isTrivia = false := by
      cases kind : l.kind <;> simp_all [isTrivia, TokenKind.isTrivia, TokenKind.isSpelled]
    have quiet := h.quiet significant
    obtain ⟨c, cs, text, scanned⟩ := h
    rw [text, List.cons_append] at quiet
    have spelling := scan_display quiet (by rwa [scanned])
    rw [scanned, List.take_left', ← text] at spelling
    · exact String.toList_inj.mp spelling
    · rfl
  · intro same
    have alone := h.ofText
    rw [same, ofText_display spelled, List.singleton_inj] at alone
    rw [← alone]

end Lexeme

/-! ## Scripts -/

/-- **Tokens stand for themselves**: the text of a token of a script, read on its own, is that
token and nothing else.  If the token is a keyword, an annotation, an operator or a delimiter, its
text is the spelling of its kind; if it is a name, its text is not the spelling of a keyword. -/
theorem Token.ofText_alone (text : String) (t : Token) (member : t ∈ Token.ofText text.toList)
    (notEnd : t.kind ≠ .eof) :
    (Token.ofText t.text.toList).map Token.lexeme = [⟨t.kind, t.text⟩, ⟨.eof, ""⟩] ∧
    (t.kind.isSpelled → t.text = t.kind.display) ∧
    (t.kind = .identifier → ∀ keyword : TokenKind, keyword.isKeyword →
      t.text ≠ keyword.display) := by
  obtain ⟨rest, stands⟩ : ∃ rest, t.lexeme.Stands rest := by
    refine (Lexeme.row_ofText text.toList).stands ?_
    rcases List.mem_append.mp member with placed | atEnd
    · exact lexeme_mem_of_placed placed
    · rw [List.mem_singleton.mp atEnd] at notEnd
      exact absurd rfl notEnd
  have whole : Lexeme.ofText t.text.toList = [t.lexeme] := stands.ofText
  refine ⟨by rw [Parsed.lexemes_ofText, whole]; rfl,
    fun spelled => (stands.kind_eq_iff spelled).mp rfl, ?_⟩
  intro name keyword isKeyword same
  have spelled : keyword.isSpelled := by
    cases keyword <;> first | rfl | simp [TokenKind.isKeyword] at isKeyword
  have sameKind : t.kind = keyword := (stands.kind_eq_iff spelled).mpr same
  rw [← sameKind, name] at isKeyword
  cases isKeyword

/-- A number that a point follows, an operator that nothing joins, and a name that begins with a
keyword. -/
theorem Token.ofText_alone_quotient :
    let ts := Token.ofText "returns/1.5.f".toList
    let name : Token := ⟨.identifier, ⟨⟨0, 0, 0⟩, ⟨7, 0, 7⟩⟩, "returns"⟩
    let slash : Token := ⟨.slash, ⟨⟨7, 0, 7⟩, ⟨8, 0, 8⟩⟩, "/"⟩
    let number : Token := ⟨.number, ⟨⟨8, 0, 8⟩, ⟨11, 0, 11⟩⟩, "1.5"⟩
    (number ∈ ts ∧ number.kind ≠ .eof ∧
      (Token.ofText "1.5".toList).map Token.lexeme = [⟨.number, "1.5"⟩, ⟨.eof, ""⟩]) ∧
    (slash ∈ ts ∧ slash.kind.isSpelled ∧ slash.text = slash.kind.display) ∧
    name ∈ ts ∧ name.kind = .identifier ∧ TokenKind.kwReturn.isKeyword ∧
      name.text ≠ TokenKind.kwReturn.display := by
  intro ts name slash number
  have isNumber : number ∈ ts := by decide +kernel
  have isSlash : slash ∈ ts := by decide +kernel
  have isName : name ∈ ts := by decide +kernel
  exact ⟨⟨isNumber, by decide, (ofText_alone _ number isNumber (by decide)).1⟩,
    ⟨isSlash, rfl, (ofText_alone _ slash isSlash (by decide)).2.1 rfl⟩,
    isName, rfl, rfl, (ofText_alone _ name isName (by decide)).2.2 rfl .kwReturn rfl⟩

end QuestScript
