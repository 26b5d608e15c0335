/-
# QuestScript.Proofs.Standing -- which text a token may stand before

A lexeme stands before a text if the lexer, given both, takes just the lexeme
(`Lexeme.Stands`).  It keeps standing if the text is replaced by one that is no worse to
stand before (`Stands.replace`); a delimiter stands before anything (`Stands.delimiter`),
and trivia without an open comment before what does not go on with it (`Closed.stands`).
-/
import QuestScript.Proofs.Extent

namespace QuestScript.Lexeme

open Text (isBlank)

set_option autoImplicit false

variable {old new rest : List Char}

/-! ## Tokens before a text -/

/-- Blanks and comments. -/
def isTrivia (l : Lexeme) : Bool := l.kind.isTrivia

/-- The lexer takes just the lexeme from its text and what stands behind it. -/
def Stands (l : Lexeme) (rest : List Char) : Prop :=
  ∃ c cs, l.text.toList = c :: cs ∧ scan c (cs ++ rest) = (l.kind, cs.length)

/-- A lexeme that says something, and not a string that lacks its closing quote. -/
def Solid (l : Lexeme) : Prop :=
  l.isTrivia = false ∧ (l.kind = .string → Grammar.closesQuote l.text)

variable {l : Lexeme}

theorem Stands.quiet (h : l.Stands rest) (significant : l.isTrivia = false) :
    Quiet (l.text.toList ++ rest) := by
  obtain ⟨c, cs, text, scanned⟩ := h
  rw [text, List.cons_append]
  refine Nat.eq_zero_of_not_pos fun begins => ?_
  simp only [scan, if_pos begins, Prod.mk.injEq] at scanned
  rw [isTrivia, ← scanned.1] at significant
  cases significant

/-- A token keeps its place if what stands behind it is replaced. -/
theorem Stands.replace (h : l.Stands old) (solid : l.Solid) (behind : Replaces old new) :
    l.Stands new := by
  have quiet := h.quiet solid.1
  obtain ⟨c, cs, text, scanned⟩ := h
  rw [text, List.cons_append] at quiet
  have quiet' := quiet.replace behind
  refine ⟨c, cs, text, ?_⟩
  cases scans c with
  | alone kind scans =>
      rw [scans _ quiet] at scanned
      rw [scans _ quiet', scanned]
  | paired pairs kind scans apart =>
      rw [scans _ quiet] at scanned
      rw [scans _ quiet', joined_replace behind (fun pair member => (apart pair member).1)
        (congrArg Prod.snd scanned), scanned]
  | run p kind scans apart _ =>
      rw [scans _ quiet, Prod.mk.injEq] at scanned
      obtain ⟨inside, stop⟩ := runExtent_eq_iff.mp scanned.2
      rw [takeWhile_eq inside stop] at scanned
      rw [scans _ quiet', takeWhile_eq inside (behind.stop apart stop), scanned.1,
        runExtent_eq_iff.mpr ⟨inside, behind.stop apart stop⟩]
  | string scans =>
      rw [scans _ quiet, Prod.mk.injEq] at scanned
      obtain ⟨inner, rfl, even⟩ := (closesQuote_iff text).mp (solid.2 scanned.1.symm)
      have whole := scanned.2
      simp only [List.append_assoc, List.singleton_append, List.length_append, List.length_cons,
        List.length_nil] at whole
      rw [scans _ quiet', ← scanned.1, List.append_assoc, List.singleton_append,
        stringExtent_closed whole even]
      simp
  | number scans =>
      rw [scans _ quiet, Prod.mk.injEq] at scanned
      rw [scans _ quiet', numberExtent_replace behind scanned.2, scanned.1]

/-! ## Trivia, strings and delimiters -/

/-- Trivia stands before what does not go on with it. -/
theorem stands_trivia {l : Lexeme} (kind : l.kind = .trivia) : l.Stands rest ↔
    l.text.toList ≠ [] ∧ triviaExtent .blank (l.text.toList ++ rest) = l.text.toList.length := by
  constructor
  · rintro ⟨c, cs, text, scanned⟩
    rw [text]
    refine ⟨by simp, ?_⟩
    by_cases begins : 0 < triviaExtent .blank (c :: (cs ++ rest))
    · simp only [scan, if_pos begins, Prod.mk.injEq] at scanned
      rw [List.cons_append, List.length_cons]
      omega
    · have quiet : Quiet (c :: (cs ++ rest)) := Nat.eq_zero_of_not_pos begins
      exact absurd (by rw [scanned, kind]) (scan_ne_trivia quiet)
  · rintro ⟨some, whole⟩
    cases text : l.text.toList with
    | nil => exact absurd text some
    | cons c cs =>
        rw [text, List.cons_append, List.length_cons] at whole
        refine ⟨c, cs, text, ?_⟩
        simp only [scan, whole, gt_iff_lt, Nat.succ_pos, if_true, kind, Nat.add_sub_cancel]

theorem Stands.closed (h : l.Stands rest) (kind : l.kind = .trivia) (goesOn : rest ≠ []) :
    Closed l.text.toList ∧ Quiet rest := by
  obtain ⟨-, whole⟩ := (stands_trivia kind).mp h
  obtain ⟨quiet, more⟩ := triviaExtent_closed goesOn whole
  exact ⟨more, quiet⟩

theorem Closed.stands (h : Closed l.text.toList) (kind : l.kind = .trivia)
    (some : l.text.toList ≠ []) (quiet : Quiet rest) : l.Stands rest :=
  (stands_trivia kind).mpr ⟨some, by rw [h, show triviaExtent .blank rest = 0 from quiet]; simp⟩

/-- A string stands before what does not go on with it. -/
theorem stands_string (string : l.kind = .string) : l.Stands rest ↔
    ∃ quote body, l.text.toList = quote :: body ∧ (quote = '"' ∨ quote = '\'') ∧
      stringExtent quote false (body ++ rest) = body.length := by
  have quiet {c : Char} (quote : c = '"' ∨ c = '\'') (cs : List Char) : Quiet (c :: cs) :=
    quiet_cons.mpr (by rcases quote with rfl | rfl <;> exact ⟨by decide, by simp⟩)
  constructor
  · rintro ⟨c, cs, text, scanned⟩
    have quote := quote_of_scan ((congrArg Prod.fst scanned).trans string)
    rw [scan_of_quote quote (quiet quote _), Prod.mk.injEq] at scanned
    exact ⟨c, cs, text, quote, scanned.2⟩
  · rintro ⟨c, cs, text, quote, extent⟩
    exact ⟨c, cs, text, by rw [scan_of_quote quote (quiet quote _), extent, string]⟩

theorem isTrivia_of_isDelimiter (h : l.kind.isDelimiter) : l.isTrivia = false := by
  cases kind : l.kind <;> simp_all [isTrivia, TokenKind.isTrivia, TokenKind.isDelimiter]

/-- A delimiter is its spelling, and stands before any text. -/
theorem Stands.delimiter (h : l.Stands rest) (delimiter : l.kind.isDelimiter) :
    l.text = l.kind.display ∧ ∀ new, l.Stands new := by
  have quiet := h.quiet (isTrivia_of_isDelimiter delimiter)
  obtain ⟨c, cs, text, scanned⟩ := h
  rw [text, List.cons_append] at quiet
  obtain ⟨spelling, alone⟩ := scan_delimiter quiet (by rw [scanned]; exact delimiter)
  rw [scanned] at spelling alone
  obtain rfl : cs = [] := List.length_eq_zero_iff.mp alone
  refine ⟨String.toList_inj.mp (text.trans spelling), fun new => ⟨c, [], text, ?_⟩⟩
  have fixed : ∀ kind : TokenKind, kind.isDelimiter → [c] = kind.display.toList →
      scan c new = (kind, 0) := by
    intro kind isDelimiter spelling
    cases kind <;> simp [TokenKind.isDelimiter] at isDelimiter <;>
      (simp [TokenKind.display] at spelling; subst spelling; rfl)
  exact fixed l.kind delimiter spelling

/-! ## The ends of tokens -/

theorem Stands.head_not_blank (h : l.Stands rest) (significant : l.isTrivia = false) :
    ∀ c ∈ l.text.toList.head?, isBlank c = false := by
  have quiet := h.quiet significant
  obtain ⟨c, cs, text, -⟩ := h
  rw [text] at quiet ⊢
  rintro _ ⟨⟩
  exact (quiet_cons.mp quiet).1

/-- A token does not end in a blank. -/
theorem Stands.getLast_not_blank (h : l.Stands rest) (solid : l.Solid) :
    ∀ c ∈ l.text.toList.getLast?, isBlank c = false := by
  have quiet := h.quiet solid.1
  obtain ⟨c, cs, text, scanned⟩ := h
  rw [text, List.cons_append] at quiet
  have first := (quiet_cons.mp quiet).1
  have tail (inside : ∀ x ∈ cs, isBlank x = false) :
      ∀ x ∈ l.text.toList.getLast?, isBlank x = false := by
    intro x last
    rw [text] at last
    rcases List.mem_cons.mp (List.mem_of_getLast? last) with rfl | member
    · exact first
    · exact inside x member
  cases scans c with
  | alone kind scans =>
      rw [scans _ quiet, Prod.mk.injEq] at scanned
      obtain rfl : cs = [] := List.length_eq_zero_iff.mp scanned.2.symm
      exact tail (by simp)
  | paired pairs kind scans apart =>
      rw [scans _ quiet] at scanned
      exact tail (joined_solid (fun pair member => (apart pair member).2)
        (congrArg Prod.snd scanned))
  | run p kind scans apart solid =>
      rw [scans _ quiet, Prod.mk.injEq] at scanned
      exact tail fun x member => solid x ((runExtent_eq_iff.mp scanned.2).1 x member)
  | string scans =>
      rw [scans _ quiet, Prod.mk.injEq] at scanned
      obtain ⟨inner, rfl, -⟩ := (closesQuote_iff text).mp (solid.2 scanned.1.symm)
      rw [text, ← List.cons_append, List.getLast?_concat]
      rintro _ ⟨⟩
      exact first
  | number scans =>
      rw [scans _ quiet, Prod.mk.injEq] at scanned
      exact tail (numberExtent_solid scanned.2)

/-- A name does not begin with a digit. -/
theorem Stands.name_head (h : l.Stands rest) (name : l.kind = .identifier) :
    ∀ c ∈ l.text.toList.head?, c.isDigit = false := by
  have quiet := h.quiet (by simp [isTrivia, name, TokenKind.isTrivia])
  obtain ⟨c, cs, text, scanned⟩ := h
  rw [text] at quiet ⊢
  rintro _ ⟨⟩
  refine Bool.eq_false_iff.mpr fun digit => ?_
  have number : (scan c (cs ++ rest)).1 = .number := scan_of_isDigit digit quiet
  rw [scanned, name] at number
  cases number

end QuestScript.Lexeme
