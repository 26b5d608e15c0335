/-
# QuestScript.Proofs.BlankRuns -- shortening runs of blank lines changes no token

`Text.tidyLines` knows nothing of tokens: a run it shortens may stand between two of them, in
a comment, or in a string behind a backslash that stands at the end of a line.  A run as it
was and as it becomes are both a `Break`: white space that begins with a newline and has a
second one if anything stands behind it.  What was read before a break goes on into it in one
of three ways, and none of them tells one break from another (`Lexeme.words_break`):

* a token other than trivia ends before it;
* trivia goes on through it, and behind it in the same part (`triviaExtent_break`);
* a string whose last character is a backslash takes the newline, and ends at the next one.

The third is the only one where a token differs, and there neither string is closed.
-/
import Mathlib.Data.List.Forall2
import QuestScript.Proofs.Leaves
import QuestScript.Text.BlankLines

namespace QuestScript

open Text (isBlank squeeze squeezeFrom endLine tidyLines keptNewlines)

set_option autoImplicit false

namespace Lexeme

/-! ## Strings that are not closed -/

/-- The lexeme is a string without its closing quote. -/
def isOpen (l : Lexeme) : Bool := l.kind = .string && !Grammar.closesQuote l.text

/-- The lexeme, but for what it says if it is a string that is not closed. -/
def muted (l : Lexeme) : Lexeme := if l.isOpen then ⟨.string, ""⟩ else l

theorem muted_of_isOpen {l : Lexeme} (isOpen : l.isOpen) : l.muted = ⟨.string, ""⟩ := if_pos isOpen

theorem muted_kind (l : Lexeme) : l.muted.kind = l.kind := by
  rw [muted]
  split
  · rename_i opened
    simp only [isOpen, Bool.and_eq_true, decide_eq_true_eq] at opened
    exact opened.1.symm
  · rfl

/-- Lexemes that are the same but for open strings are equal, or both of them open strings. -/
theorem eq_or_isOpen_of_muted {l m : Lexeme} (same : l.muted = m.muted) :
    l.kind = m.kind ∧ (l.text = m.text ∨ l.isOpen ∧ m.isOpen) := by
  refine ⟨by rw [← muted_kind, same, muted_kind], ?_⟩
  have empty : isOpen ⟨.string, ""⟩ := by decide
  by_cases first : l.isOpen <;> by_cases second : m.isOpen
  · exact .inr ⟨first, second⟩
  · rw [muted, muted, if_pos first, if_neg second] at same
    exact absurd (same ▸ empty) second
  · rw [muted, muted, if_neg first, if_pos second] at same
    exact absurd (same ▸ empty) first
  · rw [muted, muted, if_neg first, if_neg second] at same
    exact .inl (congrArg Lexeme.text same)

/-! ## Breaks -/

/-- White space that begins with a newline, with `rest` behind it; there is none at all only
at the end of a text, and a second newline unless it stands there. -/
structure Break (w rest : List Char) : Prop where
  blank : ∀ c ∈ w, isBlank c
  head : ∀ c ∈ (w ++ rest).head?, c = '\n'
  again : rest ≠ [] → 2 ≤ w.count '\n'

variable {w v rest : List Char}

theorem Break.cases (h : Break w rest) : (w = [] ∧ rest = []) ∨ ∃ u, w = '\n' :: u := by
  cases w with
  | nil =>
      refine .inl ⟨rfl, by_contra fun more => ?_⟩
      have := h.again more
      simp at this
  | cons c u => exact .inr ⟨u, by rw [h.head c rfl]⟩

/-- What is looked for ahead is seen in the one text in front of a break as in any other. -/
theorem Break.ahead (h : Break w rest) {x : Char} (notLine : x ≠ '\n') {cs : List Char} :
    (cs ++ (w ++ rest)).head? = some x ↔ cs.head? = some x := by
  cases cs with
  | cons c cs => rfl
  | nil => simpa using fun first => notLine (h.head x first)

/-! ## Trivia -/

/-- What trivia is in the middle of when a line's end and blanks were read. -/
def TriviaPart.pastLine : TriviaPart → TriviaPart
  | .blockOpen | .blockComment => .blockComment
  | _ => .blank

theorem TriviaPart.pastLine_pastLine (part : TriviaPart) :
    part.pastLine.pastLine = part.pastLine := by
  cases part <;> rfl

/-- A newline leads to blanks or further into a comment in signs. -/
theorem TriviaPart.next?_newline (part : TriviaPart) (ahead : Option Char) :
    part.next? '\n' ahead = some part.pastLine := by
  have blank : isBlank '\n' = true := by decide
  cases part <;> simp [next?, pastLine, blank]

/-- There blanks change nothing. -/
theorem TriviaPart.next?_of_isBlank {part : TriviaPart} (settled : part.pastLine = part) {c : Char}
    (blank : isBlank c) (ahead : Option Char) : part.next? c ahead = some part := by
  have notStar : c ≠ '*' := by
    rintro rfl
    exact absurd blank (by decide)
  cases part <;> first
    | exact absurd settled (by decide)
    | simp [next?, blank, notStar]

theorem triviaExtent_blanks {part : TriviaPart} (settled : part.pastLine = part)
    (blank : ∀ c ∈ w, isBlank c) :
    triviaExtent part (w ++ rest) = w.length + triviaExtent part rest := by
  induction w with
  | nil => simp
  | cons c w ih =>
      obtain ⟨first, others⟩ := List.forall_mem_cons.mp blank
      rw [List.cons_append, triviaExtent_cons, TriviaPart.next?_of_isBlank settled first,
        Option.elim_some, ih others, List.length_cons]
      omega

/-- Trivia takes all of a break. -/
theorem Break.triviaExtent (h : Break w rest) (part : TriviaPart) :
    triviaExtent part (w ++ rest) = w.length + triviaExtent part.pastLine rest := by
  rcases h.cases with ⟨rfl, rfl⟩ | ⟨u, rfl⟩
  · simp [Lexeme.triviaExtent]
  · rw [List.cons_append, triviaExtent_cons, part.next?_newline, Option.elim_some,
      triviaExtent_blanks part.pastLine_pastLine (List.forall_mem_cons.mp h.blank).2,
      List.length_cons]
    omega

/-- A character is followed by the same part of trivia, whatever break there is further on. -/
theorem Break.next? (h : Break w rest) (part : TriviaPart) (c : Char) (cs : List Char) :
    part.next? c (cs ++ (w ++ rest)).head? = part.next? c cs.head? :=
  TriviaPart.next?_congr (h.ahead (by decide)) (h.ahead (by decide))

/-- Trivia ends before a break, or goes on behind it, whatever break it is. -/
theorem triviaExtent_break (part : TriviaPart) (cs rest : List Char) :
    (∃ k ≤ cs.length, ∀ w, Break w rest → triviaExtent part (cs ++ (w ++ rest)) = k) ∨
    ∃ next, ∀ w, Break w rest → triviaExtent part (cs ++ (w ++ rest)) =
      cs.length + (w.length + triviaExtent next rest) := by
  induction cs generalizing part with
  | nil => exact .inr ⟨part.pastLine, fun w h => by simpa using h.triviaExtent part⟩
  | cons c cs ih =>
      cases step : part.next? c cs.head? with
      | none =>
          refine .inl ⟨0, Nat.zero_le _, fun w h => ?_⟩
          rw [List.cons_append, triviaExtent_cons, h.next?, step, Option.elim_none]
      | some next =>
          rcases ih next with ⟨k, le, before⟩ | ⟨last, through⟩
          · refine .inl ⟨k + 1, Nat.succ_le_succ le, fun w h => ?_⟩
            rw [List.cons_append, triviaExtent_cons, h.next?, step, Option.elim_some, before w h]
          · refine .inr ⟨last, fun w h => ?_⟩
            rw [List.cons_append, triviaExtent_cons, h.next?, step, Option.elim_some, through w h,
              List.length_cons]
            omega

/-! ## Strings -/

/-- A string that goes on with `cs` ends before any break behind it, or its next character is
escaped there, so that it takes the newline along. -/
def MeetsBreak (quote : Char) (escaped : Bool) (cs rest : List Char) : Prop :=
  (∃ k ≤ cs.length, ∀ w, Break w rest → stringExtent quote escaped (cs ++ (w ++ rest)) = k) ∨
    escapedAfter escaped cs = true ∧ ∀ w, Break w rest →
      stringExtent quote escaped (cs ++ (w ++ rest)) =
        cs.length + stringExtent quote true (w ++ rest)

theorem MeetsBreak.cons {quote : Char} {escaped : Bool} {c : Char} {cs rest : List Char}
    (h : MeetsBreak quote (!escaped && c = '\\') cs rest)
    (goesOn : escaped = false → c ≠ quote ∧ c ≠ '\n') :
    MeetsBreak quote escaped (c :: cs) rest := by
  rcases h with ⟨k, le, before⟩ | ⟨escapes, through⟩
  · exact .inl ⟨k + 1, Nat.succ_le_succ le, fun w h => by
      rw [List.cons_append, stringExtent_of_goesOn goesOn, before w h]⟩
  · refine .inr ⟨escapes, fun w h => ?_⟩
    rw [List.cons_append, stringExtent_of_goesOn goesOn, through w h, List.length_cons]
    omega

theorem meetsBreak {quote : Char} (notLine : quote ≠ '\n') (escaped : Bool) (cs rest : List Char) :
    MeetsBreak quote escaped cs rest := by
  induction cs generalizing escaped with
  | nil =>
      cases escaped with
      | true => exact .inr ⟨rfl, fun w _ => by simp⟩
      | false =>
          refine .inl ⟨0, Nat.zero_le _, fun w h => ?_⟩
          rcases h.cases with ⟨rfl, rfl⟩ | ⟨u, rfl⟩
          · rfl
          · simp [stringExtent, notLine.symm]
  | cons c cs ih =>
      cases escaped with
      | true => exact (ih _).cons (by simp)
      | false =>
          by_cases closes : c = quote
          · exact .inl ⟨1, by simp, fun w _ => by simp [stringExtent, closes]⟩
          by_cases line : c = '\n'
          · exact .inl ⟨0, by simp, fun w _ => by simp [stringExtent, line, notLine.symm]⟩
          · exact (ih _).cons fun _ => ⟨closes, line⟩

/-- Behind a backslash a string takes the newline and the blanks up to the next one. -/
theorem stringExtent_blanks {quote : Char} (solid : isBlank quote = false)
    (blank : ∀ c ∈ w, isBlank c) (ends : rest = [] ∨ '\n' ∈ w) :
    ∃ u v, w = u ++ v ∧ stringExtent quote false (w ++ rest) = u.length := by
  induction w with
  | nil =>
      obtain rfl := ends.resolve_right (by simp)
      exact ⟨[], [], rfl, rfl⟩
  | cons c w ih =>
      obtain ⟨first, others⟩ := List.forall_mem_cons.mp blank
      have notQuote : c ≠ quote := by
        rintro rfl
        simp [first] at solid
      have notBackslash : c ≠ '\\' := by
        rintro rfl
        exact absurd first (by decide)
      by_cases line : c = '\n'
      · subst line
        exact ⟨[], _, rfl, by simp [stringExtent, notQuote]⟩
      · obtain ⟨u, v, whole, extent⟩ := ih others (ends.imp id fun member =>
          (List.mem_cons.mp member).resolve_left (Ne.symm line))
        exact ⟨c :: u, v, by rw [whole, List.cons_append], by
          simp [stringExtent, notQuote, line, notBackslash, extent]⟩

theorem Break.stringExtent (h : Break w rest) {quote : Char} (solid : isBlank quote = false) :
    ∃ u v, w = u ++ v ∧ stringExtent quote true (w ++ rest) = u.length := by
  rcases h.cases with ⟨rfl, rfl⟩ | ⟨t, rfl⟩
  · exact ⟨[], [], rfl, rfl⟩
  · have ends : rest = [] ∨ '\n' ∈ t := by
      by_cases more : rest = []
      · exact .inl more
      · have twice := h.again more
        rw [List.count_cons_self] at twice
        exact .inr (List.count_pos_iff.mp (by omega))
    obtain ⟨u, v, whole, extent⟩ :=
      stringExtent_blanks solid (List.forall_mem_cons.mp h.blank).2 ends
    exact ⟨'\n' :: u, v, by rw [whole, List.cons_append], by
      simp [Lexeme.stringExtent, extent]⟩

/-- A string that ends in white space, or in a backslash that escapes what is behind it, is not
closed. -/
theorem isOpen_of_escapes {quote : Char} {cs u : List Char} (isQuote : quote = '"' ∨ quote = '\'')
    (escapes : escapedAfter false cs = true) (blank : ∀ c ∈ u, isBlank c) :
    isOpen ⟨.string, String.ofList (quote :: (cs ++ u))⟩ := by
  have solid : isBlank quote = false := by rcases isQuote with rfl | rfl <;> decide
  simp only [isOpen, decide_true, Bool.true_and, Bool.not_eq_true']
  refine Bool.eq_false_iff.mpr fun closes => ?_
  obtain ⟨inner, whole, even⟩ := (closesQuote_iff (String.toList_ofList ..)).mp closes
  rcases List.eq_nil_or_concat' u with rfl | ⟨init, last, rfl⟩
  · rw [List.append_nil] at whole
    rw [whole, escapedAfter_concat, Bool.and_eq_true, decide_eq_true_eq] at escapes
    rcases isQuote with rfl | rfl <;> exact absurd escapes.2 (by decide)
  · rw [← List.append_assoc] at whole
    obtain ⟨-, same⟩ := List.append_inj' whole rfl
    have := blank last (by simp)
    rw [List.singleton_inj.mp same, solid] at this
    cases this

/-! ## Tokens -/

/-- Leading trivia may be left out. -/
theorem words_drop_trivia (cs : List Char) :
    words (ofText (cs.drop (triviaExtent .blank cs))) = words (ofText cs) := by
  cases cs with
  | nil => rfl
  | cons c cs =>
      by_cases begins : 0 < triviaExtent .blank (c :: cs)
      · have scanned : scan c cs = (.trivia, triviaExtent .blank (c :: cs) - 1) := by
          simp only [scan, if_pos begins]
        obtain ⟨k, extent⟩ := Nat.exists_eq_succ_of_ne_zero begins.ne'
        rw [ofText_cons, scanned, words_cons, extent, List.drop_succ_cons]
        rfl
      · rw [Nat.eq_zero_of_not_pos begins, List.drop_zero]

theorem words_blanks (blank : ∀ c ∈ w, isBlank c) :
    words (ofText (w ++ rest)) = words (ofText rest) := by
  rw [← words_drop_trivia, triviaExtent_blanks rfl blank, List.drop_length_add_append,
    words_drop_trivia]

theorem Break.quiet (h : Break w rest) {c : Char} {cs : List Char} :
    Quiet (c :: (cs ++ (w ++ rest))) ↔ Quiet (c :: cs) := by
  rw [quiet_cons, quiet_cons, ne_eq, ne_eq, h.ahead (by decide), h.ahead (by decide)]

/-- Where a token ends, a break may stand behind what follows it. -/
theorem Break.replaces (h : Break w rest) (cs : List Char) : Replaces cs (cs ++ (w ++ rest)) where
  head c first := by
    cases cs with
    | cons x cs => exact .inl first
    | nil => exact .inr (by rw [h.head c first]; decide)
  point opens := by
    cases cs with
    | nil =>
        rcases h.cases with ⟨rfl, rfl⟩ | ⟨u, rfl⟩
        · exact opens
        · simp [opensFraction] at opens
    | cons x cs =>
        simp only [List.cons_append, opensFraction, Bool.and_eq_true, Option.any_eq_true] at opens ⊢
        obtain ⟨point, digit, first, isDigit⟩ := opens
        exact ⟨point, digit, (h.ahead (by rintro rfl; simp at isDigit)).mp first, isDigit⟩

/-- The first token ends before a break, and is the same whatever break it is, or it is a string
that is not closed, and what is behind the break follows. -/
theorem token_break {c : Char} {cs : List Char} (quiet : Quiet (c :: cs)) (rest : List Char) :
    (∃ l k, k ≤ cs.length ∧ l.isTrivia = false ∧ ∀ w, Break w rest →
      ofText (c :: (cs ++ (w ++ rest))) = l :: ofText (cs.drop k ++ (w ++ rest))) ∨
    ∀ w, Break w rest → ∃ l, l.isOpen ∧
      words (ofText (c :: (cs ++ (w ++ rest)))) = l :: words (ofText rest) := by
  by_cases isQuote : c = '"' ∨ c = '\''
  · have string {text : List Char} (quiet : Quiet (c :: text)) := scan_of_quote isQuote quiet
    have solid : isBlank c = false := by rcases isQuote with rfl | rfl <;> decide
    have notLine : c ≠ '\n' := by rcases isQuote with rfl | rfl <;> decide
    rcases meetsBreak notLine false cs rest with ⟨k, le, before⟩ | ⟨escapes, through⟩
    · refine .inl ⟨⟨.string, String.ofList (c :: cs.take k)⟩, k, le, rfl, fun w h => ?_⟩
      rw [ofText_cons, string (h.quiet.mpr quiet), before w h,
        List.take_append_of_le_length le, List.drop_append_of_le_length le]
    · refine .inr fun w h => ?_
      obtain ⟨u, v, rfl, extent⟩ := h.stringExtent solid
      have blank := List.forall_mem_append.mp h.blank
      refine ⟨_, isOpen_of_escapes isQuote escapes blank.1, ?_⟩
      rw [ofText_cons, string (h.quiet.mpr quiet), through _ h, extent, words_cons,
        List.append_assoc, List.take_length_add_append, List.drop_length_add_append,
        List.take_left, List.drop_left, words_blanks blank.2]
      rfl
  · let l : Lexeme := ⟨(scan c cs).1, String.ofList (c :: cs.take (scan c cs).2)⟩
    have notString : l.kind ≠ .string := fun string => isQuote (quote_of_scan string)
    have significant : l.isTrivia = false := by
      refine Bool.eq_false_iff.mpr fun trivia => scan_ne_trivia quiet (kind_of_isTrivia trivia)
    have stands : l.Stands (cs.drop (scan c cs).2) := by
      refine ⟨c, cs.take (scan c cs).2, String.toList_ofList, ?_⟩
      rw [List.take_append_drop, List.length_take, Nat.min_eq_left (scan_le c cs)]
    refine .inl ⟨l, (scan c cs).2, scan_le c cs, significant, fun w h => ?_⟩
    have moved := stands.replace ⟨significant, fun string => absurd string notString⟩
      (h.replaces (cs.drop (scan c cs).2))
    have read := (row_singleton.mpr moved).ofText
    simpa [l, textOf, ← List.append_assoc] using read

/-- **One break is as good as another**: what is before and behind it is cut into the same
tokens, but for a string that is not closed. -/
theorem words_break (hw : Break w rest) (hv : Break v rest) (cs : List Char) :
    (words (ofText (cs ++ (w ++ rest)))).map muted =
      (words (ofText (cs ++ (v ++ rest)))).map muted := by
  induction length : cs.length using Nat.strongRecOn generalizing cs with
  | ind n ih =>
      cases cs with
      | nil => rw [List.nil_append, List.nil_append, words_blanks hw.blank, words_blanks hv.blank]
      | cons c cs =>
          rw [List.length_cons] at length
          rcases triviaExtent_break .blank (c :: cs) rest with ⟨k, le, before⟩ | ⟨last, through⟩
          · cases k with
            | succ k =>
                rw [← words_drop_trivia, before w hw, ← words_drop_trivia (_ ++ (v ++ rest)),
                  before v hv, List.drop_append_of_le_length le, List.drop_append_of_le_length le]
                exact ih _ (by rw [List.length_drop, List.length_cons]; omega) _ rfl
            | zero =>
                have quiet : Quiet (c :: cs) := hw.quiet.mp (before w hw)
                rcases token_break quiet rest with
                  ⟨l, k, le, significant, first⟩ | first
                · rw [List.cons_append, List.cons_append, first w hw, first v hv]
                  simp only [words_cons, significant, Bool.false_eq_true, if_false, List.map_cons]
                  rw [ih (cs.drop k).length (by rw [List.length_drop]; omega) _ rfl]
                · obtain ⟨l, isOpen, read⟩ := first w hw
                  obtain ⟨m, isOpen', read'⟩ := first v hv
                  rw [List.cons_append, List.cons_append, read, read', List.map_cons, List.map_cons,
                    muted_of_isOpen isOpen, muted_of_isOpen isOpen']
          · rw [← words_drop_trivia, through w hw, ← words_drop_trivia (_ ++ (v ++ rest)),
              through v hv]
            simp only [List.drop_length_add_append]

/-! ## Tidying -/

/-- A run that is shortened is a break before and after. -/
theorem words_squeeze (blank : ∀ c ∈ w, isBlank c) (begins : ∀ c ∈ w.head?, c = '\n')
    (cs rest : List Char) :
    (words (ofText (cs ++ (squeeze w ++ rest)))).map muted =
      (words (ofText (cs ++ (w ++ rest)))).map muted := by
  unfold squeeze
  split
  · rename_i many
    refine words_break ⟨?_, ?_, ?_⟩ ⟨blank, ?_, ?_⟩ cs
    · intro c member
      rcases List.mem_append.mp member with line | last
      · rw [List.eq_of_mem_replicate line]
        decide
      · exact blank c (List.mem_reverse.mp
          (List.takeWhile_subset _ (List.mem_reverse.mp last)))
    · intro c first
      simpa [keptNewlines, List.replicate] using first.symm
    · intro _
      simp [keptNewlines]
    · intro c first
      cases w with
      | nil => simp at many
      | cons x w => exact begins c first
    · intro _
      rw [keptNewlines] at many
      omega
  · rfl

theorem words_squeezeFrom (blank : ∀ c ∈ w, isBlank c) (begins : ∀ c ∈ w.head?, c = '\n')
    (cs text : List Char) :
    (words (ofText (cs ++ squeezeFrom w text))).map muted =
      (words (ofText (cs ++ (w ++ text)))).map muted := by
  induction text generalizing w cs with
  | nil => simpa [squeezeFrom] using words_squeeze blank begins cs []
  | cons c text ih =>
      rw [squeezeFrom]
      split
      · rename_i goesOn
        simp only [Bool.and_eq_true, Bool.or_eq_true, decide_eq_true_eq] at goesOn
        rw [ih _ _ cs, List.append_assoc, List.singleton_append]
        · exact List.forall_mem_append.mpr ⟨blank, by simpa using goesOn.1⟩
        · cases w with
          | nil => simpa using goesOn.2
          | cons x w => exact begins
      · have others := ih (w := []) (by simp) (by simp) (cs ++ (squeeze w ++ [c]))
        simp only [List.append_assoc, List.singleton_append, List.nil_append] at others
        rw [others, words_squeeze blank begins cs (c :: text)]

/-- **Shortening runs of blank lines changes no token**: the significant lexemes of a tidied
text are those of the text, but for what strings say that are not closed. -/
theorem words_tidyLines (text : List Char) :
    (words (ofText (tidyLines text))).map muted = (words (ofText text)).map muted := by
  have squeezed := words_squeezeFrom (w := []) (by simp) (by simp) [] text
  rw [List.nil_append, List.nil_append, List.nil_append] at squeezed
  rw [tidyLines, endLine]
  split
  · exact squeezed
  · have ended : Break ['\n'] [] := ⟨List.forall_mem_singleton.mpr rfl, by simp, by simp⟩
    have open' : Break [] [] := ⟨by simp, by simp, by simp⟩
    have := words_break ended open' (squeezeFrom [] text)
    rw [List.append_nil, List.append_nil, List.append_nil] at this
    rw [this, squeezed]

end Lexeme

end QuestScript
