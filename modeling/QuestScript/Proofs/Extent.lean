/-
# QuestScript.Proofs.Extent -- what decides how far a token reaches

How a token scans is decided by its first character, in one of five ways
(`Lexeme.scans`), and how far it reaches by little of what stands behind it: the next
character at most, but for a number, which looks behind a point.  So a text may be
replaced behind any token if the new text begins with the same character as the old one,
or with one that goes on with no token (`Lexeme.Replaces`).  There is one lemma for each
way of scanning.

Trivia that ends before the end of the script has no open comment
(`triviaExtent_closed`); blanks may be taken from its front, and from its end if no line
comment may be there (`Closed.dropWhile`, `Closed.rdropWhile`).  If there is one, it goes on
without them (`Closed.leaves_rdropWhile`).
-/
import Mathlib.Data.List.DropRight
import Mathlib.Data.List.Induction
import Mathlib.Data.List.TakeWhile
import Mathlib.Tactic.FinCases
import QuestScript.Proofs.Partition

namespace QuestScript

open Text (isBlank isAlphabetic isAlphanumeric)

set_option autoImplicit false

/-- Brackets, separators and quotes, which are one character each. -/
def TokenKind.isDelimiter : TokenKind → Bool
  | .lParen | .rParen | .lBracket | .rBracket | .lBrace | .rBrace | .semi | .comma | .dot
  | .question | .colon | .backquote => true
  | _ => false

/-- Keywords, annotations, operators and delimiters, each of which is spelled in one way. -/
def TokenKind.isSpelled : TokenKind → Bool
  | .number | .string | .identifier | .trivia | .eof | .error => false
  | _ => true

theorem TokenKind.isSpelled_of_isDelimiter {kind : TokenKind} (h : kind.isDelimiter) :
    kind.isSpelled := by
  cases kind <;> first | rfl | simp [isDelimiter] at h

namespace Lexeme

/-! ## How far a token reaches -/

/-- No trivia stands at the front of the text. -/
def Quiet (text : List Char) : Prop := triviaExtent .blank text = 0

theorem quiet_cons {c : Char} {cs : List Char} :
    Quiet (c :: cs) ↔
      isBlank c = false ∧ (c = '/' → cs.head? ≠ some '/' ∧ cs.head? ≠ some '*') := by
  unfold Quiet
  rw [triviaExtent]
  by_cases blank : isBlank c = true
  · simp [blank]
  · by_cases slash : c = '/'
    · subst slash
      by_cases line : cs.head? = some '/'
      · simp [blank, line]
      · by_cases star : cs.head? = some '*'
        · simp [blank, star]
        · simp [blank, line, star]
    · simp [blank, slash]

/-- Characters that go on with no token; a point does if a digit follows. -/
def neutral : List Char := [' ', '\n', '(', ')', '.']

theorem forall_mem_neutral {p : Char → Prop} :
    (∀ x ∈ neutral, p x) ↔ p ' ' ∧ p '\n' ∧ p '(' ∧ p ')' ∧ p '.' := by
  simp [neutral]

/-- The ways in which a token that begins with `c` is scanned where no trivia begins: it is one
character, or may be joined by one of some others, or is a run of characters, or a string, or a
number. -/
inductive Scans (c : Char) : Prop where
  | alone (kind : TokenKind) (scans : ∀ cs, Quiet (c :: cs) → scan c cs = (kind, 0))
  | paired (pairs : List (Char × TokenKind)) (kind : TokenKind)
      (scans : ∀ cs, Quiet (c :: cs) → scan c cs = joined cs pairs kind)
      (apart : ∀ pair ∈ pairs, pair.1 ∉ neutral ∧ isBlank pair.1 = false)
  | run (p : Char → Bool) (kind : List Char → TokenKind)
      (scans : ∀ cs, Quiet (c :: cs) → scan c cs = (kind (cs.takeWhile p), runExtent p cs))
      (apart : ∀ x ∈ neutral, p x = false) (solid : ∀ x, p x → isBlank x = false)
  | string (scans : ∀ cs, Quiet (c :: cs) → scan c cs = (.string, stringExtent c false cs))
  | number (scans : ∀ cs, Quiet (c :: cs) → scan c cs = (.number, numberExtent .whole cs))

theorem isBlank_of_isAlphanumeric {c : Char} (h : isAlphanumeric c = true) : isBlank c = false := by
  refine Bool.eq_false_iff.mpr fun blank => ?_
  obtain ⟨range, member, low, high⟩ := Text.Ranges.exists_of_has blank
  have spaces : ∀ range ∈ Text.blankRanges, ∀ n, n < range.2 + 1 - range.1 →
      isAlphanumeric (Char.ofNat (range.1 + n)) = false := by decide +kernel
  have this := spaces range member (c.toNat - range.1) (by omega)
  rw [Nat.add_sub_cancel' low, Char.ofNat_toNat, h] at this
  cases this

theorem isBlank_of_continuesWord {c : Char} (h : continuesWord c = true) : isBlank c = false := by
  simp only [continuesWord, Bool.or_eq_true, decide_eq_true_eq] at h
  rcases h with (letter | rfl) | rfl
  · exact isBlank_of_isAlphanumeric letter
  · decide
  · decide

theorem isBlank_of_continuesMark {c : Char} (h : continuesMark c = true) : isBlank c = false :=
  isBlank_of_continuesWord (by
    simp only [continuesMark, continuesWord, Bool.or_eq_true] at h ⊢
    exact .inl h)

/-- Every token is scanned in one of the five ways. -/
theorem scans (c : Char) : Scans c := by
  by_cases special : c ∈ "()[]\x7b\x7d;,.?:\x60+-*/%=!<>&|@".toList
  · simp at special
    rcases special with rfl | rfl | rfl | rfl | rfl | rfl | rfl | rfl | rfl | rfl | rfl | rfl |
      rfl | rfl | rfl | rfl | rfl | rfl | rfl | rfl | rfl | rfl | rfl | rfl
    all_goals first
      | exact .alone _ fun cs quiet => by simp only [scan, show _ = 0 from quiet]; rfl
      | exact .paired _ _ (fun cs quiet => by simp only [scan, show _ = 0 from quiet]; rfl)
          (by decide)
      | exact .run continuesMark (fun mark => markKind ('@' :: mark))
          (fun cs quiet => by simp only [scan, show _ = 0 from quiet]; rfl)
          (forall_mem_neutral.mpr (by decide +kernel)) fun _ => isBlank_of_continuesMark
  · have scan_eq (cs : List Char) (quiet : Quiet (c :: cs)) : scan c cs =
        if c = '"' || c = '\'' then (.string, stringExtent c false cs)
        else if c.isDigit then (.number, numberExtent .whole cs)
        else if startsWord c then
          (wordKind (c :: cs.takeWhile continuesWord), runExtent continuesWord cs)
        else (.error, 0) := by
      simp only [scan, show _ = 0 from quiet]
      simp at special
      split <;> simp_all
    by_cases quote : c = '"' || c = '\''
    · exact .string fun cs quiet => by rw [scan_eq cs quiet, if_pos quote]
    by_cases digit : c.isDigit
    · exact .number fun cs quiet => by rw [scan_eq cs quiet, if_neg quote, if_pos digit]
    by_cases word : startsWord c
    · refine .run continuesWord (fun word => wordKind (c :: word)) (fun cs quiet => ?_)
        (forall_mem_neutral.mpr (by decide +kernel)) fun _ => isBlank_of_continuesWord
      rw [scan_eq cs quiet, if_neg quote, if_neg digit, if_pos word]
    · exact .alone .error fun cs quiet => by
        rw [scan_eq cs quiet, if_neg quote, if_neg digit, if_neg word]

/-! ## What may stand behind a token -/

/-- The text goes on with the fraction of a number, were there one before it. -/
def opensFraction : List Char → Bool
  | [] => false
  | c :: cs => c = '.' && cs.head?.any Char.isDigit

/-- A token that stands before `old` may as well stand before `new`: that begins with the same
character, or with one that goes on with no token. -/
structure Replaces (old new : List Char) : Prop where
  head : ∀ c ∈ new.head?, c ∈ old.head? ∨ c ∈ neutral
  point : opensFraction new → opensFraction old

variable {old new rest : List Char} {c : Char} {cs : List Char}

theorem Replaces.stop (h : Replaces old new) {p : Char → Bool} (apart : ∀ x ∈ neutral, p x = false)
    (stop : ∀ x ∈ old.head?, p x = false) : ∀ x ∈ new.head?, p x = false := by
  intro x first
  rcases h.head x first with same | plain
  · exact stop x same
  · exact apart x plain

theorem Replaces.digit (h : Replaces old new) (digit : new.head?.any Char.isDigit) :
    old.head?.any Char.isDigit := by
  cases new with
  | nil => simp at digit
  | cons x xs =>
      rcases h.head x rfl with same | plain
      · rw [same]
        exact digit
      · fin_cases plain <;> simp at digit

/-- A run ends where it ends because the next character does not belong to it. -/
theorem runExtent_eq_iff {p : Char → Bool} : runExtent p (cs ++ rest) = cs.length ↔
    (∀ x ∈ cs, p x) ∧ ∀ x ∈ rest.head?, p x = false := by
  constructor
  · intro whole
    have taken : (cs ++ rest).takeWhile p = cs :=
      (List.prefix_of_prefix_length_le (List.takeWhile_prefix p) (List.prefix_append cs rest)
        whole.le).eq_of_length whole
    have inside : ∀ x ∈ cs, p x := by
      rw [← taken]
      exact fun x => List.mem_takeWhile_imp (p := p)
    refine ⟨inside, fun x first => ?_⟩
    rw [List.takeWhile_append_of_pos inside, List.append_right_eq_self] at taken
    cases rest with
    | nil => simp at first
    | cons y ys => simp_all
  · rintro ⟨inside, stop⟩
    rw [runExtent, List.takeWhile_append_of_pos inside]
    cases rest with
    | nil => simp
    | cons y ys => simp [stop y rfl]

theorem takeWhile_eq {p : Char → Bool} (inside : ∀ x ∈ cs, p x)
    (stop : ∀ x ∈ rest.head?, p x = false) : (cs ++ rest).takeWhile p = cs := by
  rw [List.takeWhile_append_of_pos inside]
  cases rest with
  | nil => simp
  | cons y ys => simp [stop y rfl]

/-- An operator of one character is alone because none follows that joins it. -/
theorem joined_extent_eq_zero {pairs : List (Char × TokenKind)} {kind : TokenKind} :
    (joined cs pairs kind).2 = 0 ↔ ∀ pair ∈ pairs, cs.head? ≠ some pair.1 := by
  unfold joined
  cases found : pairs.find? fun pair => cs.head? = some pair.1 with
  | none => simpa using found
  | some pair =>
      have same := List.find?_some found
      simp only [Nat.one_ne_zero, false_iff, not_forall]
      exact ⟨pair, List.mem_of_find?_eq_some found, by simpa using same⟩

theorem joined_of_alone {pairs : List (Char × TokenKind)} {kind : TokenKind}
    (apart : ∀ pair ∈ pairs, cs.head? ≠ some pair.1) : joined cs pairs kind = (kind, 0) := by
  have found : pairs.find? (fun pair => cs.head? = some pair.1) = none := by
    simpa using apart
  rw [joined, found]

/-- An operator is joined before the one text as before the other. -/
theorem joined_replace (h : Replaces old new) {pairs : List (Char × TokenKind)} {kind : TokenKind}
    (apart : ∀ pair ∈ pairs, pair.1 ∉ neutral)
    (whole : (joined (cs ++ old) pairs kind).2 = cs.length) :
    joined (cs ++ new) pairs kind = joined (cs ++ old) pairs kind := by
  cases cs with
  | cons x cs => rfl
  | nil =>
      have none := joined_extent_eq_zero.mp whole
      have none' : ∀ pair ∈ pairs, new.head? ≠ some pair.1 := by
        intro pair member same
        rcases h.head _ same with same | plain
        · exact none pair member same
        · exact apart pair member plain
      exact (joined_of_alone none').trans (joined_of_alone none).symm

/-- No blank is part of an operator. -/
theorem joined_solid {pairs : List (Char × TokenKind)} {kind : TokenKind}
    (solid : ∀ pair ∈ pairs, isBlank pair.1 = false)
    (whole : (joined (cs ++ rest) pairs kind).2 = cs.length) : ∀ x ∈ cs, isBlank x = false := by
  cases cs with
  | nil => simp
  | cons x cs =>
      unfold joined at whole
      split at whole
      · rename_i pair found
        obtain rfl : cs = [] := List.length_eq_zero_iff.mp (Nat.succ.inj whole).symm
        obtain rfl : pair.1 = x := by simpa [eq_comm] using List.find?_some found
        simpa using solid pair (List.mem_of_find?_eq_some found)
      · cases whole

theorem Quiet.replace {c : Char} {cs : List Char} (h : Replaces old new)
    (quiet : Quiet (c :: (cs ++ old))) : Quiet (c :: (cs ++ new)) := by
  rw [quiet_cons] at quiet ⊢
  refine ⟨quiet.1, fun slash => ?_⟩
  cases cs with
  | cons x cs => exact quiet.2 slash
  | nil =>
      constructor
      all_goals
        intro first
        rcases h.head _ first with same | plain
        · have := quiet.2 slash
          simp_all
        · revert plain
          decide

/-! ## Numbers -/

/-- A number ends where it ends because the next character cannot continue it. -/
theorem numberExtent_stop (h : Replaces old new) {part : NumberPart}
    (stop : numberExtent part old = 0) : numberExtent part new = 0 := by
  have point := h.point
  cases new with
  | nil => rfl
  | cons x xs =>
      by_cases same : x ∈ old.head?
      · cases old with
        | nil => simp at same
        | cons y ys =>
            obtain rfl : y = x := by simpa using same
            simp only [opensFraction] at point
            simp only [numberExtent] at stop ⊢
            grind
      · have plain := (h.head x rfl).resolve_left same
        -- Of the neutral characters only a point could continue a number.
        have fraction : opensFraction (x :: xs) = false := by
          refine Bool.eq_false_iff.mpr fun opens => same ?_
          have opens' := point opens
          cases old with
          | nil => simp [opensFraction] at opens'
          | cons y ys =>
              simp only [opensFraction, Bool.and_eq_true, decide_eq_true_eq] at opens opens'
              simp [opens.1, opens'.1]
        fin_cases plain <;> cases part <;> simp_all [numberExtent, opensFraction, isNumberSuffix]

theorem numberExtent_replace (h : Replaces old new) {part : NumberPart}
    (whole : numberExtent part (cs ++ old) = cs.length) :
    numberExtent part (cs ++ new) = cs.length := by
  induction cs generalizing part with
  | nil => exact numberExtent_stop h whole
  | cons c cs ih =>
      have ahead : c = '.' → (cs ++ old).head? = (cs ++ new).head? := by
        rintro rfl
        cases cs with
        | cons x cs => rfl
        | nil =>
            cases old with
            | nil => simp [numberExtent, isNumberSuffix] at whole
            | cons y ys => 
              simp [numberExtent, isNumberSuffix] at whole
              grind
      simp only [List.cons_append, numberExtent, List.length_cons] at whole ⊢
      grind

/-- What holds of the ten digits holds of any. -/
theorem of_isDigit {p : Char → Bool} {c : Char} (digits : ∀ n, n < 10 → p (Char.ofNat (48 + n)))
    (h : c.isDigit) : p c := by
  simp only [Char.isDigit, Bool.and_eq_true, decide_eq_true_eq, ge_iff_le,
    UInt32.le_iff_toNat_le] at h
  have low : 48 ≤ c.toNat := h.1
  have high : c.toNat ≤ 57 := h.2
  have digit := digits (c.toNat - 48) (by omega)
  rwa [Nat.add_sub_cancel' low, Char.ofNat_toNat] at digit

theorem isBlank_of_isDigit {c : Char} (h : c.isDigit = true) : isBlank c = false := by
  simpa using of_isDigit (p := fun c => !isBlank c) (by decide) h

theorem numberExtent_of_isBlank {c : Char} (blank : isBlank c = true) (part : NumberPart)
    (cs : List Char) : numberExtent part (c :: cs) = 0 := by
  have notDigit : c.isDigit = false := Bool.eq_false_iff.mpr fun digit => by
    simp [isBlank_of_isDigit digit] at blank
  have other : c ∉ ['_', '.', 'e', 'E', '+', '-', 'l', 'L', 'd', 'D', 'f', 'F'] := fun member => by
    fin_cases member <;> revert blank <;> decide
  simp only [List.mem_cons, List.not_mem_nil, or_false, not_or] at other
  simp [numberExtent, isNumberSuffix, notDigit, other]

/-- No blank is part of a number. -/
theorem numberExtent_solid {part : NumberPart}
    (whole : numberExtent part (cs ++ rest) = cs.length) :
    ∀ x ∈ cs, isBlank x = false := by
  induction cs generalizing part with
  | nil => simp
  | cons c cs ih =>
      have first : isBlank c = false := Bool.eq_false_iff.mpr fun blank => by
        simp [numberExtent_of_isBlank blank] at whole
      have more : ∀ x ∈ cs, isBlank x = false := by
        simp only [List.cons_append, numberExtent, List.length_cons] at whole
        repeat' split at whole
        all_goals first
          | exact ih (Nat.add_right_cancel whole)
          | omega
          | (obtain rfl : cs = [] := List.length_eq_zero_iff.mp (by omega)
             simp)
      simpa using ⟨first, more⟩

/-! ## Strings -/

/-- After these characters of a string, the next one is escaped. -/
def escapedAfter (escaped : Bool) : List Char → Bool
  | [] => escaped
  | c :: cs => escapedAfter (!escaped && c = '\\') cs

theorem escapedAfter_concat (escaped : Bool) (cs : List Char) (c : Char) :
    escapedAfter escaped (cs ++ [c]) = (!escapedAfter escaped cs && c = '\\') := by
  induction cs generalizing escaped with
  | nil => rfl
  | cons x cs ih => exact ih _

/-- A character is escaped if an odd number of backslashes stands before it. -/
theorem escapedAfter_eq (cs : List Char) : escapedAfter false cs =
    !((cs.reverse.takeWhile (· == '\\')).length % 2 == 0) := by
  induction cs using List.reverseRecOn with
  | nil => rfl
  | append_singleton cs c ih =>
      rw [escapedAfter_concat, ih, List.reverse_append, List.reverse_singleton,
        List.singleton_append, List.takeWhile_cons]
      by_cases backslash : c = '\\'
      · subst backslash
        simp
        grind
      · simp [backslash]

theorem closesQuote_iff {text : String} {quote : Char} {body : List Char}
    (whole : text.toList = quote :: body) : Grammar.closesQuote text = true ↔
      ∃ inner, body = inner ++ [quote] ∧ escapedAfter false inner = false := by
  unfold Grammar.closesQuote
  rw [whole]
  cases body using List.reverseRecOn with
  | nil => simp
  | append_singleton inner last =>
      simp [escapedAfter_eq]

/-- The first character of what continues a string closes it or leads on to the others. -/
theorem stringExtent_cons {quote : Char} {escaped : Bool}
    (whole : stringExtent quote escaped (c :: (cs ++ rest)) = cs.length + 1) :
    escaped = false ∧ c = quote ∧ cs = [] ∨
      (escaped = false → c ≠ quote ∧ c ≠ '\n') ∧
        stringExtent quote (!escaped && c = '\\') (cs ++ rest) = cs.length := by
  cases escaped with
  | true => exact .inr ⟨by simp, Nat.add_right_cancel whole⟩
  | false =>
      rw [stringExtent] at whole
      by_cases closes : c = quote
      · rw [if_pos closes] at whole
        exact .inl ⟨rfl, closes, List.length_eq_zero_iff.mp (by omega)⟩
      by_cases line : c = '\n'
      · rw [if_neg closes, if_pos line] at whole
        cases whole
      · rw [if_neg closes, if_neg line] at whole
        exact .inr ⟨fun _ => ⟨closes, line⟩, Nat.add_right_cancel whole⟩

/-- A character that does not end a string belongs to it. -/
theorem stringExtent_of_goesOn {quote : Char} {escaped : Bool}
    (goesOn : escaped = false → c ≠ quote ∧ c ≠ '\n') (cs : List Char) :
    stringExtent quote escaped (c :: cs) = stringExtent quote (!escaped && c = '\\') cs + 1 := by
  cases escaped with
  | true => rfl
  | false =>
      rw [stringExtent, if_neg (goesOn rfl).1, if_neg (goesOn rfl).2]
      rfl

/-- A string that is closed is closed before any text. -/
theorem stringExtent_closed {quote : Char} {inner : List Char} {escaped : Bool}
    (whole : stringExtent quote escaped (inner ++ quote :: old) = inner.length + 1)
    (closed : escapedAfter escaped inner = false) :
    stringExtent quote escaped (inner ++ quote :: new) = inner.length + 1 := by
  induction inner generalizing escaped with
  | nil =>
      simp only [escapedAfter] at closed
      subst closed
      simp [stringExtent]
  | cons c inner ih =>
      have step : stringExtent quote escaped (c :: ((inner ++ [quote]) ++ old)) =
          (inner ++ [quote]).length + 1 := by simpa using whole
      obtain ⟨-, -, none⟩ | ⟨goesOn, more⟩ := stringExtent_cons step
      · simp at none
      · rw [List.cons_append, stringExtent_of_goesOn goesOn, ih (by simpa using more) closed,
          List.length_cons]

/-! ## Trivia -/

namespace TriviaPart

/-- What trivia is in the middle of behind a character, if it goes on with it.  The character
behind that one is looked at where comments begin and end. -/
def next? : TriviaPart → Char → Option Char → Option TriviaPart
  | .blank, c, ahead =>
      if isBlank c then some .blank
      else if c = '/' && ahead = some '/' then some .lineComment
      else if c = '/' && ahead = some '*' then some .blockOpen
      else none
  | .lineComment, c, _ => if c = '\n' then some .blank else some .lineComment
  | .blockOpen, _, _ => some .blockComment
  | .blockComment, c, ahead =>
      if c = '*' && ahead = some '/' then some .blockClose else some .blockComment
  | .blockClose, _, _ => some .blank

variable {part next : TriviaPart} {ahead : Option Char}

/-- Only a slash and a star are looked for ahead. -/
theorem next?_congr {ahead' : Option Char} (slash : ahead = some '/' ↔ ahead' = some '/')
    (star : ahead = some '*' ↔ ahead' = some '*') : part.next? c ahead = part.next? c ahead' := by
  cases part <;> simp only [next?, slash, star]

/-- A comment goes on with any character. -/
theorem next?_of_inside (inside : part ≠ .blank) : ∃ next, part.next? c ahead = some next := by
  cases part <;> simp only [next?] <;> first | exact absurd rfl inside | (split <;> simp) | simp

/-- Without a slash and a star ahead trivia goes on in the same way, unless it is inside a comment
in signs. -/
theorem next?_of_plain (slash : ahead ≠ some '/') (star : ahead ≠ some '*')
    (h : part.next? c ahead = some next) (outside : next ≠ .blockComment) (ahead' : Option Char) :
    part.next? c ahead' = some next := by
  cases part <;> simp only [next?, slash, star, decide_false, Bool.and_false, Bool.false_eq_true,
    if_false, Option.some.injEq] at h ⊢ <;> first
    | exact h
    | exact absurd h.symm outside
    | (split at h <;> simp_all)

/-- What leads to blanks does so whatever stands ahead. -/
theorem next?_blank (h : part.next? c ahead = some .blank) (ahead' : Option Char) :
    part.next? c ahead' = some .blank := by
  cases part <;> simp only [next?] at h ⊢ <;> grind

theorem next?_lineComment (h : part.next? c ahead = some .lineComment) :
    part = .lineComment ∨ c = '/' ∧ ahead = some '/' := by
  cases part <;> simp only [next?] at h <;> grind

theorem next?_blockOpen (h : part.next? c ahead = some .blockOpen) : ahead = some '*' := by
  cases part <;> simp only [next?] at h <;> grind

theorem next?_blockClose (h : part.next? c ahead = some .blockClose) : ahead = some '/' := by
  cases part <;> simp only [next?] at h <;> grind

end TriviaPart

/-- Trivia reaches as far as its parts follow each other. -/
theorem triviaExtent_cons (part : TriviaPart) (c : Char) (cs : List Char) :
    triviaExtent part (c :: cs) =
      (part.next? c cs.head?).elim 0 fun next => triviaExtent next cs + 1 := by
  cases part <;> simp only [triviaExtent, TriviaPart.next?] <;> repeat' split
  all_goals rfl

/-- Trivia that goes on only if the text behind it begins with trivia: no comment is open. -/
def Closed (text : List Char) : Prop :=
  ∀ rest, triviaExtent .blank (text ++ rest) = text.length + triviaExtent .blank rest

theorem triviaExtent_pos {part : TriviaPart} (inside : part ≠ .blank) (goesOn : rest ≠ []) :
    0 < triviaExtent part rest := by
  cases rest with
  | nil => simp at goesOn
  | cons c cs =>
      obtain ⟨next, step⟩ := TriviaPart.next?_of_inside inside
      rw [triviaExtent_cons, step]
      exact Nat.succ_pos _

/-- Where trivia ends before the end of the script, no comment is open. -/
theorem triviaExtent_closed {part : TriviaPart} {text : List Char} (goesOn : rest ≠ [])
    (whole : triviaExtent part (text ++ rest) = text.length) :
    Quiet rest ∧ ∀ new, triviaExtent part (text ++ new) =
      text.length + triviaExtent .blank new := by
  induction text generalizing part with
  | nil =>
      obtain rfl : part = .blank := by
        by_contra inside
        exact (triviaExtent_pos inside goesOn).ne' whole
      exact ⟨whole, fun new => by simp⟩
  | cons c text ih =>
      rw [List.cons_append, triviaExtent_cons, List.length_cons] at whole
      cases step : part.next? c (text ++ rest).head? with
      | none =>
          rw [step] at whole
          cases whole
      | some next =>
          rw [step, Option.elim_some] at whole
          have others : triviaExtent next (text ++ rest) = text.length := Nat.add_right_cancel whole
          -- What is looked at ahead lies in the text, for no part but a blank one ends with it.
          have again (new : List Char) : part.next? c (text ++ new).head? = some next := by
            cases text with
            | cons x text => exact step
            | nil =>
                obtain rfl : next = .blank := by
                  by_contra inside
                  exact (triviaExtent_pos inside goesOn).ne' others
                exact TriviaPart.next?_blank step _
          obtain ⟨quiet, more⟩ := ih others
          refine ⟨quiet, fun new => ?_⟩
          rw [List.cons_append, triviaExtent_cons, again, Option.elim_some, more, List.length_cons]
          omega

/-- Behind the text, trivia that is read as `part` goes on as `next`. -/
def Leaves (part next : TriviaPart) (text : List Char) : Prop :=
  ∀ rest, triviaExtent part (text ++ rest) = text.length + triviaExtent next rest

theorem Leaves.dropWhile {next : TriviaPart} {text : List Char} (h : Leaves .blank next text) :
    Leaves .blank next (text.dropWhile isBlank) := by
  induction text with
  | nil => exact h
  | cons c text ih =>
      rw [List.dropWhile_cons]
      split
      · rename_i blank
        refine ih fun rest => ?_
        have whole := h rest
        simp only [List.cons_append, triviaExtent, blank, if_true, List.length_cons] at whole
        omega
      · exact h

theorem Closed.dropWhile {text : List Char} (h : Closed text) : Closed (text.dropWhile isBlank) :=
  Leaves.dropWhile h

/-- A blank that ends trivia lies behind a comment or is the end of a line with one. -/
theorem Leaves.of_concat {part next : TriviaPart} {text : List Char} {b : Char}
    (blank : isBlank b = true) (outside : next = .blank ∨ next = .lineComment)
    (opens : part = .blockOpen → (text ++ [b]).head? = some '*')
    (closes : part = .blockClose → (text ++ [b]).head? = some '/')
    (h : Leaves part next (text ++ [b])) : Leaves part .blank text ∨
      Leaves part .lineComment text ∧ (part ≠ .lineComment → ['/', '/'] <:+: text) := by
  have notSlash : b ≠ '/' := by rintro rfl; revert blank; decide
  have notStar : b ≠ '*' := by rintro rfl; revert blank; decide
  -- A text that ends inside a comment in signs goes on with anything.
  have notInside (h : Leaves .blockComment next [b]) : False := by
    have one := h ['\n', 'x']
    rcases outside with rfl | rfl <;>
      simp [triviaExtent, notStar, show isBlank '\n' = true by decide,
        show isBlank 'x' = false by decide] at one
  induction text generalizing part with
  | nil =>
      simp only [List.nil_append, List.head?_cons, Option.some.injEq] at opens closes h
      cases part with
      | blank => exact .inl fun rest => by simp
      | lineComment => exact .inr ⟨fun rest => by simp, fun notLine => absurd rfl notLine⟩
      | blockOpen => exact absurd (opens rfl) notStar
      | blockComment => exact (notInside h).elim
      | blockClose => exact absurd (closes rfl) notSlash
  | cons c text ih =>
      have first (rest : List Char) : (text ++ [b] ++ rest).head? = (text ++ [b]).head? := by
        cases text <;> rfl
      have whole (rest : List Char) := h rest
      simp only [List.cons_append, triviaExtent_cons, first, List.length_cons] at whole
      cases step : part.next? c (text ++ [b]).head? with
      | none =>
          have stuck := whole []
          rw [step, Option.elim_none] at stuck
          omega
      | some between =>
          simp only [step, Option.elim_some] at whole
          have inner : Leaves between next (text ++ [b]) := fun rest => by
            have one := whole rest
            omega
          have again (rest : List Char) : part.next? c (text ++ rest).head? = some between := by
            cases text with
            | cons x text => exact step
            | nil =>
                exact TriviaPart.next?_of_plain (by simpa using notSlash) (by simpa using notStar)
                  step (fun inside => notInside (inside ▸ inner)) _
          have shift {last : TriviaPart} (h : Leaves between last text) :
              Leaves part last (c :: text) := fun rest => by
            rw [List.cons_append, triviaExtent_cons, again, Option.elim_some, h rest,
              List.length_cons]
            omega
          refine (ih (fun opened => TriviaPart.next?_blockOpen (opened ▸ step))
            (fun closed => TriviaPart.next?_blockClose (closed ▸ step)) inner).imp shift
            fun ⟨runs, comment⟩ => ⟨shift runs, fun notLine => ?_⟩
          by_cases isLine : between = .lineComment
          · obtain ⟨rfl, slash⟩ :=
              (TriviaPart.next?_lineComment (isLine ▸ step)).resolve_left notLine
            cases text with
            | nil => exact absurd (by simpa using slash) notSlash
            | cons x text =>
                obtain rfl : x = '/' := by simpa using slash
                exact ⟨[], text, rfl⟩
          · exact (comment isLine).trans (List.suffix_cons c text).isInfix

/-- Without the blanks at its end, closed trivia is closed or ends with a line comment. -/
theorem Closed.leaves_rdropWhile {text : List Char} (h : Closed text) :
    Closed (text.rdropWhile isBlank) ∨
      Leaves .blank .lineComment (text.rdropWhile isBlank) ∧ ['/', '/'] <:+: text := by
  suffices general : ∀ next, next = .blank ∨ next = .lineComment ∧ ['/', '/'] <:+: text →
      Leaves .blank next text → Closed (text.rdropWhile isBlank) ∨
        Leaves .blank .lineComment (text.rdropWhile isBlank) ∧ ['/', '/'] <:+: text from
    general .blank (.inl rfl) h
  clear h
  induction text using List.reverseRecOn with
  | nil =>
      rintro next (rfl | ⟨rfl, comment⟩) h
      · exact .inl h
      · simp at comment
  | append_singleton text b ih =>
      intro next outside h
      rw [List.rdropWhile_concat]
      split
      · rename_i blank
        have within {more : List Char} (inside : ['/', '/'] <:+: text) :
            ['/', '/'] <:+: text ++ more := inside.trans (List.prefix_append text more).isInfix
        rcases h.of_concat blank (outside.imp_right And.left) (by simp) (by simp) with
          closed | ⟨runs, comment⟩
        · exact (ih .blank (.inl rfl) closed).imp_right (And.imp_right within)
        · exact (ih .lineComment (.inr ⟨rfl, comment (by simp)⟩) runs).imp_right
            (And.imp_right within)
      · rcases outside with rfl | ⟨rfl, comment⟩
        · exact .inl h
        · exact .inr ⟨h, comment⟩

theorem Closed.rdropWhile {text : List Char} (h : Closed text) (noLine : ¬ ['/', '/'] <:+: text) :
    Closed (text.rdropWhile isBlank) :=
  h.leaves_rdropWhile.resolve_right fun ⟨_, comment⟩ => noLine comment

/-! ## Tokens reach no further than the script -/

theorem triviaExtent_le (part : TriviaPart) (text : List Char) :
    triviaExtent part text ≤ text.length := by
  induction text generalizing part with
  | nil => cases part <;> simp [triviaExtent]
  | cons c cs ih =>
      rw [triviaExtent_cons]
      cases part.next? c cs.head? with
      | none => exact Nat.zero_le _
      | some next => exact Nat.succ_le_succ (ih next)

theorem stringExtent_le (quote : Char) (escaped : Bool) (text : List Char) :
    stringExtent quote escaped text ≤ text.length := by
  induction text generalizing escaped with
  | nil => cases escaped <;> simp [stringExtent]
  | cons c cs ih =>
      cases escaped <;> simp only [stringExtent, List.length_cons] <;> repeat' split
      all_goals first
        | exact Nat.succ_le_succ (ih _)
        | omega

theorem numberExtent_le (part : NumberPart) (text : List Char) :
    numberExtent part text ≤ text.length := by
  induction text generalizing part with
  | nil => simp [numberExtent]
  | cons c cs ih =>
      simp only [numberExtent, List.length_cons]
      repeat' split
      all_goals first
        | exact Nat.succ_le_succ (ih _)
        | omega

theorem joined_le (cs : List Char) (pairs : List (Char × TokenKind)) (alone : TokenKind) :
    (joined cs pairs alone).2 ≤ cs.length := by
  unfold joined
  split
  · rename_i pair found
    have next : cs.head? = some pair.1 := by simpa using List.find?_some found
    cases cs with
    | nil => simp at next
    | cons x cs => simp
  · simp

theorem scan_le (c : Char) (cs : List Char) : (scan c cs).2 ≤ cs.length := by
  by_cases begins : 0 < triviaExtent .blank (c :: cs)
  · have whole := triviaExtent_le .blank (c :: cs)
    simp only [scan, if_pos begins]
    rw [List.length_cons] at whole
    omega
  · have quiet : Quiet (c :: cs) := Nat.eq_zero_of_not_pos begins
    cases scans c with
    | alone kind scans => simp [scans cs quiet]
    | paired pairs kind scans _ => rw [scans cs quiet]; exact joined_le cs pairs kind
    | run p kind scans _ _ =>
        rw [scans cs quiet]
        exact (List.takeWhile_prefix p).length_le
    | string scans => rw [scans cs quiet]; exact stringExtent_le c false cs
    | number scans => rw [scans cs quiet]; exact numberExtent_le .whole cs

/-! ## Kinds and spellings -/

theorem scan_ne_trivia {c : Char} {cs : List Char} (quiet : Quiet (c :: cs)) :
    (scan c cs).1 ≠ .trivia := by
  simp only [scan, show triviaExtent .blank (c :: cs) = 0 from quiet, gt_iff_lt, Nat.lt_irrefl,
    if_false]
  split <;> first
    | exact markKind_ne _ (by simp) (by simp)
    | (apply joined_ne <;> simp)
    | skip
  all_goals repeat' split
  all_goals first
    | exact wordKind_ne _ rfl (by simp)
    | simp

/-- Only a quote begins a string. -/
theorem quote_of_scan {c : Char} {cs : List Char} (string : (scan c cs).1 = .string) :
    c = '"' ∨ c = '\'' := by
  by_contra other
  refine absurd string ?_
  unfold scan
  simp only
  split
  · simp
  · split <;> first
      | exact markKind_ne _ (by simp) (by simp)
      | (apply joined_ne <;> simp)
      | skip
    all_goals repeat' split
    all_goals first
      | exact wordKind_ne _ rfl (by simp)
      | simp_all

theorem scan_of_quote {c : Char} {cs : List Char} (quote : c = '"' ∨ c = '\'')
    (quiet : Quiet (c :: cs)) : scan c cs = (.string, stringExtent c false cs) := by
  rcases quote with rfl | rfl <;> simp [scan, show _ = 0 from quiet]

theorem scan_of_isDigit {c : Char} {cs : List Char} (digit : c.isDigit)
    (quiet : Quiet (c :: cs)) : (scan c cs).1 = .number := by
  have notQuote : (c = '"' || c = '\'') = false := by
    refine Bool.eq_false_iff.mpr fun quote => ?_
    simp only [Bool.or_eq_true, decide_eq_true_eq] at quote
    rcases quote with rfl | rfl <;> revert digit <;> decide
  simp only [scan, show triviaExtent .blank (c :: cs) = 0 from quiet, gt_iff_lt, Nat.lt_irrefl,
    if_false]
  split <;> first
    | exact absurd digit (by decide)
    | simp [notQuote, digit]

theorem joined_display {c : Char} {cs : List Char} {pairs : List (Char × TokenKind)}
    {alone : TokenKind} (hp : ∀ pair ∈ pairs, pair.2.display.toList = [c, pair.1])
    (ha : alone.isSpelled → alone.display.toList = [c])
    (spelled : (joined cs pairs alone).1.isSpelled) :
    c :: cs.take (joined cs pairs alone).2 = (joined cs pairs alone).1.display.toList := by
  unfold joined at spelled ⊢
  split at spelled
  · rename_i pair found
    have next : cs.head? = some pair.1 := by simpa using List.find?_some found
    obtain ⟨rest, rfl⟩ := List.head?_eq_some_iff.mp next
    rw [hp pair (List.mem_of_find?_eq_some found)]
    rfl
  · rw [ha spelled]
    rfl

theorem wordKind_display {word : List Char} (spelled : (wordKind word).isSpelled) :
    word = (wordKind word).display.toList := by
  unfold wordKind at spelled ⊢
  cases found : TokenKind.keywords.find? fun kind => kind.display.toList = word with
  | none => simp [found, TokenKind.isSpelled] at spelled
  | some keyword => simpa [eq_comm] using List.find?_some found

theorem markKind_display {mark : List Char} (spelled : (markKind mark).isSpelled) :
    mark = (markKind mark).display.toList := by
  unfold markKind at spelled ⊢
  cases found : [TokenKind.kindMark, .businessMark].find? fun kind =>
      kind.display.toList = mark with
  | none => simp [found, TokenKind.isSpelled] at spelled
  | some kind => simpa [eq_comm] using List.find?_some found

theorem take_runExtent (p : Char → Bool) (cs : List Char) :
    cs.take (runExtent p cs) = cs.takeWhile p :=
  (List.prefix_iff_eq_take.mp (List.takeWhile_prefix p)).symm

/-- A token of a kind that is spelled in one way is its spelling. -/
theorem scan_display {c : Char} {cs : List Char} (quiet : Quiet (c :: cs))
    (spelled : (scan c cs).1.isSpelled) :
    c :: cs.take (scan c cs).2 = (scan c cs).1.display.toList := by
  revert spelled
  simp only [scan, show triviaExtent .blank (c :: cs) = 0 from quiet, gt_iff_lt, Nat.lt_irrefl,
    if_false]
  split <;> first
    | exact fun _ => rfl
    | exact joined_display (by decide) (by decide)
    | exact fun spelled => by rw [take_runExtent]; exact markKind_display spelled
    | skip
  repeat' split
  all_goals first
    | exact fun spelled => by rw [take_runExtent]; exact wordKind_display spelled
    | exact fun impossible => nomatch impossible

theorem scan_delimiter {c : Char} {cs : List Char} (quiet : Quiet (c :: cs))
    (delimiter : (scan c cs).1.isDelimiter) :
    [c] = (scan c cs).1.display.toList ∧ (scan c cs).2 = 0 := by
  have spelling := scan_display quiet (TokenKind.isSpelled_of_isDelimiter delimiter)
  have single : ∀ kind : TokenKind, kind.isDelimiter → kind.display.toList.length = 1 := by
    intro kind isDelimiter
    cases kind <;> first | rfl | simp [TokenKind.isDelimiter] at isDelimiter
  have alone := single _ delimiter
  have inside := scan_le c cs
  rw [← spelling, List.length_cons, List.length_take] at alone
  have none : (scan c cs).2 = 0 := by omega
  exact ⟨by rw [← spelling, none, List.take_zero], none⟩

end Lexeme

end QuestScript
