/-
# QuestScript.Proofs.Separation -- what keeps the tokens of a script apart

A string ends with a quote of its own, or else where its line or the script ends.  The lexer
finds out which by reading from its first character on (`Lexeme.stringCloses`), the grammar by
looking at the last ones of its text (`Grammar.closesQuote`).  Both say the same
(`Lexeme.closesQuote_eq`): backslashes escape one another in pairs, so what matters is whether
their number before the quote is even.

A string without its quote would go on if a blank stood where its line ends.  Behind any other
token a blank does what trivia does, so in a script whose strings are all closed every stretch of
trivia may be written as one blank (`Lexeme.Row.plain`).
-/
import QuestScript.Proofs.Rewriting

namespace QuestScript

set_option autoImplicit false

namespace Lexeme

/-! ## The ends of strings -/

section Strings

variable {quote : Char} {escaped : Bool} {c : Char} {cs body rest : List Char}

theorem stringCloses_of_goesOn (goesOn : escaped = false → c ≠ quote ∧ c ≠ '\n')
    (cs : List Char) : stringCloses quote escaped (c :: cs) =
      stringCloses quote (!escaped && c = '\\') cs := by
  cases escaped with
  | true => rfl
  | false =>
      rw [stringCloses, if_neg (goesOn rfl).1, if_neg (goesOn rfl).2]
      rfl

/-- Where a string stops without its quote, the line or the script ends. -/
theorem stringCloses_of_stops (stops : stringExtent quote escaped rest = 0) :
    stringCloses quote escaped rest = false ∧ ∀ c ∈ rest.head?, c = '\n' := by
  cases rest with
  | nil => cases escaped <;> simp [stringCloses]
  | cons c rest =>
      by_cases goesOn : escaped = false → c ≠ quote ∧ c ≠ '\n'
      · rw [stringExtent_of_goesOn goesOn] at stops
        cases stops
      · obtain ⟨rfl, ends⟩ := Classical.not_imp.mp goesOn
        rw [stringExtent] at stops
        have notQuote : c ≠ quote := by
          rintro rfl
          simp at stops
        obtain rfl : c = '\n' := by_contra fun notLine => ends ⟨notQuote, notLine⟩
        simp [stringCloses, notQuote]

/-- What continues a string ends in its quote, not escaped, just if the quote closes the string. -/
theorem stringCloses_iff (whole : stringExtent quote escaped (body ++ rest) = body.length) :
    stringCloses quote escaped (body ++ rest) = true ↔
      ∃ inner, body = inner ++ [quote] ∧ escapedAfter escaped inner = false := by
  induction body generalizing escaped with
  | nil => simpa using (stringCloses_of_stops whole).1
  | cons c cs ih =>
      obtain ⟨rfl, rfl, rfl⟩ | ⟨goesOn, more⟩ := stringExtent_cons whole
      · simp [stringCloses, escapedAfter]
      rw [List.cons_append, stringCloses_of_goesOn goesOn, ih more]
      constructor
      · rintro ⟨inner, rfl, even⟩
        exact ⟨c :: inner, rfl, even⟩
      · rintro ⟨inner, split, even⟩
        cases inner with
        | nil =>
            obtain ⟨rfl, -⟩ : c = quote ∧ cs = [] := by simpa using split
            exact absurd rfl (goesOn even).1
        | cons x inner =>
            obtain ⟨rfl, rfl⟩ : c = x ∧ cs = inner ++ [quote] := by simpa using split
            exact ⟨inner, rfl, even⟩

/-- Behind a string without its quote, the line or the script ends. -/
theorem head_of_not_stringCloses
    (whole : stringExtent quote escaped (body ++ rest) = body.length)
    (opened : stringCloses quote escaped (body ++ rest) = false) :
    ∀ c ∈ rest.head?, c = '\n' := by
  induction body generalizing escaped with
  | nil => exact (stringCloses_of_stops whole).2
  | cons c cs ih =>
      obtain ⟨rfl, rfl, rfl⟩ | ⟨goesOn, more⟩ := stringExtent_cons whole
      · simp [stringCloses] at opened
      · rw [List.cons_append, stringCloses_of_goesOn goesOn] at opened
        exact ih more opened

/-- The end of a string's text says whether its quote was read. -/
theorem closesQuote_eq {text : String} (spelled : text.toList = quote :: body)
    (whole : stringExtent quote false (body ++ rest) = body.length) :
    Grammar.closesQuote text = stringCloses quote false (body ++ rest) := by
  rw [Bool.eq_iff_iff, closesQuote_iff spelled, stringCloses_iff whole]

end Strings

/-! ## Single blanks -/

variable {l : Lexeme} {ls : List Lexeme}

/-- Trivia as one blank, and everything else as it is. -/
def plain (l : Lexeme) : Lexeme := if l.isTrivia then blank else l

theorem Rewrites.plain (closed : Sealed ls) : Rewrites ls (ls.map plain) := by
  refine .map fun l member => ?_
  rw [Lexeme.plain]
  split
  · rename_i trivia
    exact .toBlank (kind_of_isTrivia trivia)
  · rename_i significant
    exact .token ⟨by simpa using significant, closed l member⟩

/-- What stands before a lexeme at the end of a script stands before it as one blank. -/
theorem Stands.standsIn_plain (h : l.Stands []) : StandsIn (textOf [l]) (textOf [l.plain]) := by
  rw [Lexeme.plain]
  split
  · rename_i trivia
    have behind : StandsIn (l.text.toList ++ []) (textOf [blank] ++ []) :=
      h.standsIn_blank (kind_of_isTrivia trivia)
    simpa using behind
  · exact .refl _

theorem Stands.plain (h : l.Stands []) : l.plain.Stands [] := by
  rw [Lexeme.plain]
  split
  · exact stands_blank rfl
  · exact h

/-- The trivia of a script may be written as single blanks. -/
theorem Row.plain (row : Row ls []) (closed : Sealed ls) : Row (ls.map plain) [] := by
  rcases List.eq_nil_or_concat' ls with rfl | ⟨init, last, rfl⟩
  · trivial
  -- A comment at the end may be open, so what goes for trivia before a text does not go for it.
  rw [row_append, row_singleton, List.append_nil] at row
  obtain ⟨front, stands⟩ := row
  have goesOn : textOf [last] ≠ [] := by simpa using stands.text_ne_nil
  rw [List.map_append, row_append, List.append_nil]
  exact ⟨(Rewrites.plain (sealed_append.mp closed).1 _ _ goesOn front stands.standsIn_plain).1,
    row_singleton.mpr stands.plain⟩

end Lexeme

/-! ## Scripts -/

namespace Token

/-- A token of a script stands before the text of those behind it. -/
theorem stands_of_split {cs : List Char} {before after : List Token} {t : Token}
    (split : ofText cs = before ++ t :: after) (notEnd : t.kind ≠ .eof) :
    t.lexeme.Stands (textOf after) := by
  rcases List.eq_nil_or_concat' after with rfl | ⟨after, last, rfl⟩
  · obtain ⟨-, same⟩ := List.append_inj' split rfl
    rw [← List.singleton_inj.mp same] at notEnd
    exact absurd rfl notEnd
  · rw [← List.cons_append, ← List.append_assoc] at split
    obtain ⟨placed, same⟩ := List.append_inj' split rfl
    have row := Lexeme.row_ofText cs
    rw [← lexeme_placed .zero (Lexeme.ofText cs), placed, List.map_append, List.map_cons,
      Lexeme.row_append] at row
    have behind : textOf (after ++ [last]) = Lexeme.textOf (after.map lexeme) ++ [] := by
      rw [← List.singleton_inj.mp same]
      simp [atEnd, textOf, Lexeme.textOf, List.flatMap_map, lexeme]
    rw [behind]
    exact row.2.1

/-- **The end of a string says whether it was closed**: the lexer stops behind a quote of its own
just if the text of the string ends in the quote it begins with, with an even number of backslashes
before it.  Reading from the first character on, that quote is then not escaped; and if the string
stops without it, its line or the script ends there. -/
theorem ofText_closesQuote (text : String) (before after : List Token) (t : Token)
    (split : ofText text.toList = before ++ t :: after) (string : t.kind = .string) :
    ∃ quote cs, text.toList = textOf before ++ quote :: cs ∧ (quote = '"' ∨ quote = '\'') ∧
      t.text.toList = quote :: cs.take (Lexeme.stringExtent quote false cs) ∧
      textOf after = cs.drop (Lexeme.stringExtent quote false cs) ∧
      (Grammar.closesQuote t.text ↔ Lexeme.stringCloses quote false cs) ∧
      (Lexeme.stringCloses quote false cs ↔ ∃ inner,
        t.text.toList = quote :: (inner ++ [quote]) ∧ Lexeme.escapedAfter false inner = false) ∧
      (¬ Lexeme.stringCloses quote false cs → ∀ c ∈ (textOf after).head?, c = '\n') := by
  obtain ⟨quote, body, whole, isQuote, extent⟩ :=
    (Lexeme.stands_string string).mp (stands_of_split split (by simp [string]))
  replace whole : t.text.toList = quote :: body := whole
  have texts := textOf_ofText text.toList
  rw [split, textOf_append, textOf_cons, whole, List.cons_append] at texts
  refine ⟨quote, body ++ textOf after, texts.symm, isQuote, ?_, ?_, ?_, ?_, fun opened => ?_⟩
  · rw [extent, whole, List.take_left]
  · rw [extent, List.drop_left]
  · rw [Lexeme.closesQuote_eq whole extent]
  · simp [Lexeme.stringCloses_iff extent, whole]
  · exact Lexeme.head_of_not_stringCloses extent (by simpa using opened)

/-- A string that ends in an escaped quote, at the end of its line, and one that ends in an escaped
backslash and its quote. -/
theorem ofText_closesQuote_backslashes :
    let text := "'b\\'\n\"a\\\"\\\\\""
    let opened : Token := ⟨.string, ⟨⟨0, 0, 0⟩, ⟨4, 0, 4⟩⟩, "'b\\'"⟩
    let line : Token := ⟨.trivia, ⟨⟨4, 0, 4⟩, ⟨5, 1, 0⟩⟩, "\n"⟩
    let closed : Token := ⟨.string, ⟨⟨5, 1, 0⟩, ⟨12, 1, 7⟩⟩, "\"a\\\"\\\\\""⟩
    let stop : Token := atEnd ⟨12, 1, 7⟩
    (ofText text.toList = [opened, line, closed, stop] ∧ opened.kind = .string ∧
      closed.kind = .string) ∧
    (Grammar.closesQuote opened.text = false ∧ ∃ cs, text.toList = '\'' :: cs ∧
      Lexeme.stringCloses '\'' false cs = false) ∧
    Grammar.closesQuote closed.text = true ∧
      ∃ cs, text.toList = textOf [opened, line] ++ '"' :: cs ∧
        Lexeme.stringCloses '"' false cs = true := by
  intro text opened line closed stop
  have tokens : ofText text.toList = [opened, line, closed, stop] := by decide +kernel
  have ends : Grammar.closesQuote opened.text = false := by decide
  have ends' : Grammar.closesQuote closed.text = true := by decide
  refine ⟨⟨tokens, rfl, rfl⟩, ⟨ends, ?_⟩, ends', ?_⟩
  · obtain ⟨quote, cs, split, -, whole, -, same, -⟩ :=
      ofText_closesQuote text [] [line, closed, stop] opened tokens rfl
    have spelled : opened.text.toList = ['\'', 'b', '\\', '\''] := by decide
    obtain rfl : '\'' = quote := (List.cons.inj (spelled.symm.trans whole)).1
    exact ⟨cs, split, Bool.eq_false_iff.mpr fun closes => by simp [same.mpr closes] at ends⟩
  · obtain ⟨quote, cs, split, -, whole, -, same, -⟩ :=
      ofText_closesQuote text [opened, line] [stop] closed tokens rfl
    have spelled : closed.text.toList = ['"', 'a', '\\', '"', '\\', '\\', '"'] := by decide
    obtain rfl : '"' = quote := (List.cons.inj (spelled.symm.trans whole)).1
    exact ⟨cs, split, same.mp ends'⟩

/-- **A blank keeps tokens apart as well as any trivia**: in a script whose strings are all closed,
each stretch of trivia may be written as one blank; the tokens are the same, with the blanks for
the trivia. -/
theorem ofText_plain (text : String)
    (closed : ∀ t ∈ ofText text.toList, t.kind = .string → Grammar.closesQuote t.text) :
    let plain := (ofText text.toList).map fun t => t.lexeme.plain
    (ofText (String.join (plain.map Lexeme.text)).toList).map lexeme = plain := by
  intro plain
  have strings : Lexeme.Sealed (Lexeme.ofText text.toList) := by
    intro l member string
    rw [← lexeme_placed .zero (Lexeme.ofText text.toList)] at member
    obtain ⟨t, placed, rfl⟩ := List.mem_map.mp member
    exact closed t (List.mem_append_left _ placed) string
  have lexemes : plain = (Lexeme.ofText text.toList).map Lexeme.plain ++ [⟨.eof, ""⟩] := by
    have split := congrArg (List.map Lexeme.plain) (Parsed.lexemes_ofText text.toList)
    rw [List.map_map, List.map_append] at split
    exact split
  have written : (String.join (plain.map Lexeme.text)).toList =
      Lexeme.textOf ((Lexeme.ofText text.toList).map Lexeme.plain) := by
    rw [String.toList_join, List.flatMap_map, lexemes]
    simp [Lexeme.textOf]
  have row := (Lexeme.row_ofText text.toList).plain strings
  rw [written, Parsed.lexemes_ofText, lexemes]
  simpa using row.ofText

/-- Comments between signs that would be one operator or one number, a comment with a quote, and
one at the end that is open. -/
theorem ofText_plain_comments :
    let text := "a/**/+ /*x*/+1 /**/.5/\n/*\"*/'b'// ("
    let plain : List Lexeme := [⟨.identifier, "a"⟩, ⟨.trivia, " "⟩, ⟨.plus, "+"⟩, ⟨.trivia, " "⟩,
      ⟨.plus, "+"⟩, ⟨.number, "1"⟩, ⟨.trivia, " "⟩, ⟨.dot, "."⟩, ⟨.number, "5"⟩, ⟨.slash, "/"⟩,
      ⟨.trivia, " "⟩, ⟨.string, "'b'"⟩, ⟨.trivia, " "⟩, ⟨.eof, ""⟩]
    (∀ t ∈ ofText text.toList, t.kind = .string → Grammar.closesQuote t.text) ∧
    (ofText text.toList).map (fun t => t.lexeme.plain) = plain ∧
    String.join (plain.map Lexeme.text) = "a + +1 .5/ 'b' " ∧
    (ofText "a + +1 .5/ 'b' ".toList).map lexeme = plain := by
  intro text plain
  have closed : ∀ t ∈ ofText text.toList, t.kind = .string → Grammar.closesQuote t.text := by
    decide +kernel
  have lexemes : (ofText text.toList).map (fun t => t.lexeme.plain) = plain := by decide +kernel
  have written : String.join (plain.map Lexeme.text) = "a + +1 .5/ 'b' " := by decide +kernel
  refine ⟨closed, lexemes, written, ?_⟩
  rw [← written, ← lexemes]
  exact ofText_plain text closed

/-- A string that is not closed goes on behind a blank. -/
example : (ofText "'a\nb".toList).map lexeme = [⟨.string, "'a"⟩, ⟨.trivia, "\n"⟩,
      ⟨.identifier, "b"⟩, ⟨.eof, ""⟩] ∧
    (ofText "'a b".toList).map lexeme = [⟨.string, "'a b"⟩, ⟨.eof, ""⟩] := by decide +kernel

end Token

end QuestScript
