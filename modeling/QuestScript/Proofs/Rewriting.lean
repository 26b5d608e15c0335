/-
# QuestScript.Proofs.Rewriting -- which tokens may be written for which

Some lexemes are a row before a text if each of them stands before those behind it and
the text; that is what the lexer makes of them (`Lexeme.Row`, `Row.ofText`).  There is no
trivia behind trivia in a row (`Row.sparse`).  Lexemes may be rewritten as others if these
are a row wherever the first ones are, and no worse to stand before (`Lexeme.Rewrites`).
Such rewritings go together (`Rewrites.append`), so no two tokens are joined and none is
split if every one of a few steps is right:

* tokens and trivia stay as they are, and trivia becomes a blank;
* a blank takes the place of trivia, or of nothing, behind a token (`Rewrites.spaced`);
* trivia is left out before `(` and at both sides of `.` (`Rewrites.paren`,
  `Rewrites.member`);
* blanks are taken from both ends of what stands in parentheses (`row_trimmed`).
-/
import Mathlib.Data.List.Chain
import QuestScript.Proofs.Standing

namespace QuestScript.Lexeme

open Text (isBlank)

set_option autoImplicit false

variable {l : Lexeme} {ls ms as bs cs : List Lexeme} {old new rest : List Char}

/-! ## Rows -/

@[simp] theorem textOf_nil : textOf [] = [] := rfl

@[simp] theorem textOf_cons (l : Lexeme) (ls : List Lexeme) :
    textOf (l :: ls) = l.text.toList ++ textOf ls := rfl

@[simp] theorem textOf_append (ls ms : List Lexeme) :
    textOf (ls ++ ms) = textOf ls ++ textOf ms := List.flatMap_append

/-- Each of the lexemes stands before those behind it and `rest`. -/
def Row : List Lexeme → List Char → Prop
  | [], _ => True
  | l :: ls, rest => l.Stands (textOf ls ++ rest) ∧ Row ls rest

theorem row_append : Row (ls ++ ms) rest ↔ Row ls (textOf ms ++ rest) ∧ Row ms rest := by
  induction ls with
  | nil => simp [Row]
  | cons l ls ih => simp [Row, ih, and_assoc]

theorem row_singleton : Row [l] rest ↔ l.Stands rest := by
  simp [Row]

/-- The lexer cuts a row off and goes on with the text behind it. -/
theorem Row.ofText (h : Row ls rest) : ofText (textOf ls ++ rest) = ls ++ ofText rest := by
  induction ls with
  | nil => rfl
  | cons l ls ih =>
      obtain ⟨⟨c, cs, text, scanned⟩, later⟩ := h
      rw [textOf_cons, text, List.append_assoc, List.cons_append, ofText_cons, scanned]
      simp only [List.take_left', List.drop_left', List.cons_append, List.cons.injEq]
      refine ⟨?_, ih later⟩
      rw [← text, String.ofList_toList]

/-- What the lexer makes of a text is a row. -/
theorem row_ofText (text : List Char) : Row (ofText text) [] := by
  induction text using scan_induction with
  | nil => trivial
  | cons c cs ih =>
      rw [ofText_cons]
      refine ⟨⟨c, cs.take (scan c cs).2, String.toList_ofList, ?_⟩, ih⟩
      rw [textOf_ofText, List.append_nil, List.take_append_drop,
        List.length_take_of_le (scan_le c cs)]

/-! ## Rewriting -/

/-- Whatever stands before `old` may as well stand before `new`, trivia included. -/
structure StandsIn (old new : List Char) : Prop extends Replaces old new where
  quiet : Quiet old → Quiet new

/-- Where `ls` stand, `ms` may be written, and what stood before `ls` stands before `ms`.  The
text behind may be replaced, but there must be one. -/
def Rewrites (ls ms : List Lexeme) : Prop :=
  ∀ old new, old ≠ [] → Row ls old → StandsIn old new →
    Row ms new ∧ StandsIn (textOf ls ++ old) (textOf ms ++ new)

/-- Where `ls` stand, `ms` may be written behind what stands before anything. -/
def Rereads (ls ms : List Lexeme) : Prop :=
  ∀ old new, old ≠ [] → Row ls old → StandsIn old new → Row ms new

theorem Rewrites.rereads (h : Rewrites ls ms) : Rereads ls ms :=
  fun old new goesOn row behind => (h old new goesOn row behind).1

/-- Lexemes may be left out where those behind them stand before anything. -/
theorem Rereads.drop (h : Rereads ls ms) (as : List Lexeme) : Rereads (as ++ ls) ms :=
  fun old new goesOn row behind => h old new goesOn (row_append.mp row).2 behind

theorem StandsIn.refl (text : List Char) : StandsIn text text :=
  ⟨⟨fun _ first => .inl first, id⟩, id⟩

theorem Rewrites.nil : Rewrites [] [] := fun _ _ _ _ behind => ⟨trivial, behind⟩

theorem Rewrites.append (h : Rewrites as ls) (h' : Rewrites bs ms) :
    Rewrites (as ++ bs) (ls ++ ms) := by
  intro old new goesOn row behind
  rw [row_append] at row
  obtain ⟨later, between⟩ := h' old new goesOn row.2 behind
  obtain ⟨first, front⟩ := h _ _ (by simp [goesOn]) row.1 between
  rw [textOf_append, textOf_append, List.append_assoc, List.append_assoc]
  exact ⟨row_append.mpr ⟨first, later⟩, front⟩

/-- Behind a lexeme, the text may be replaced. -/
theorem StandsIn.behind (some : l.text.toList ≠ [])
    (digit : new.head?.any Char.isDigit → old.head?.any Char.isDigit)
    (quiet : Quiet (l.text.toList ++ old) → Quiet (l.text.toList ++ new)) :
    StandsIn (l.text.toList ++ old) (l.text.toList ++ new) := by
  cases text : l.text.toList with
  | nil => exact absurd text some
  | cons c cs =>
      rw [text] at quiet
      refine ⟨⟨fun x first => .inl first, ?_⟩, quiet⟩
      cases cs with
      | cons x cs => exact id
      | nil =>
          simp only [List.cons_append, List.nil_append, opensFraction, Bool.and_eq_true]
          exact And.imp_right digit

theorem Stands.text_ne_nil (h : l.Stands rest) : l.text.toList ≠ [] := by
  obtain ⟨c, cs, text, -⟩ := h
  simp [text]

/-- A token goes on standing before what replaces the text behind it. -/
theorem Stands.standsIn (h : l.Stands old) (solid : l.Solid) (behind : Replaces old new) :
    l.Stands new ∧ StandsIn (l.text.toList ++ old) (l.text.toList ++ new) := by
  have stands := h.replace solid behind
  exact ⟨stands, .behind h.text_ne_nil behind.digit fun _ => stands.quiet solid.1⟩

/-- A token stays as it is. -/
theorem Rewrites.token (solid : l.Solid) : Rewrites [l] [l] := by
  intro old new _ row behind
  rw [row_singleton] at row ⊢
  simpa using row.standsIn solid behind.toReplaces

theorem not_quiet_of_trivia (h : l.Stands rest) (kind : l.kind = .trivia) :
    ¬ Quiet (l.text.toList ++ rest) := by
  obtain ⟨some, whole⟩ := (stands_trivia kind).mp h
  intro quiet
  exact some (List.length_eq_zero_iff.mp (whole.symm.trans quiet))

/-- Trivia stays as it is. -/
theorem Rewrites.trivia (kind : l.kind = .trivia) : Rewrites [l] [l] := by
  intro old new goesOn row behind
  rw [row_singleton] at row
  obtain ⟨closed, quiet⟩ := row.closed kind goesOn
  refine ⟨row_singleton.mpr (closed.stands kind row.text_ne_nil (behind.quiet quiet)), ?_⟩
  simpa using StandsIn.behind row.text_ne_nil behind.digit fun impossible =>
    absurd impossible (not_quiet_of_trivia row kind)

/-- One blank. -/
def blank : Lexeme := ⟨.trivia, " "⟩

theorem stands_blank (quiet : Quiet rest) : blank.Stands rest := by
  refine Closed.stands (fun rest => ?_) rfl (by decide) quiet
  show triviaExtent .blank (' ' :: rest) = 1 + triviaExtent .blank rest
  rw [triviaExtent, if_pos (by decide), Nat.add_comm]

theorem replaces_blank (old new : List Char) : Replaces old (textOf [blank] ++ new) := by
  refine ⟨?_, fun impossible => absurd impossible (by simp [blank, opensFraction])⟩
  rintro _ ⟨⟩
  exact .inr (by decide)

/-- What stands before trivia stands before a blank. -/
theorem Stands.standsIn_blank (h : l.Stands old) (kind : l.kind = .trivia) :
    StandsIn (l.text.toList ++ old) (textOf [blank] ++ new) :=
  ⟨replaces_blank _ _, fun impossible => absurd impossible (not_quiet_of_trivia h kind)⟩

/-- Trivia becomes a blank. -/
theorem Rewrites.toBlank (kind : l.kind = .trivia) : Rewrites [l] [blank] := by
  intro old new goesOn row behind
  rw [row_singleton] at row
  obtain ⟨-, quiet⟩ := row.closed kind goesOn
  refine ⟨row_singleton.mpr (stands_blank (behind.quiet quiet)), ?_⟩
  simpa using row.standsIn_blank kind

/-- All strings among the lexemes are closed. -/
def Sealed (ls : List Lexeme) : Prop := ∀ l ∈ ls, l.kind = .string → Grammar.closesQuote l.text

theorem sealed_append : Sealed (ls ++ ms) ↔ Sealed ls ∧ Sealed ms := List.forall_mem_append

theorem kind_of_isTrivia (h : l.isTrivia = true) : l.kind = .trivia := by
  unfold isTrivia at h
  cases kind : l.kind <;> simp_all [TokenKind.isTrivia]

/-- Lexemes may be rewritten one by one. -/
theorem Rewrites.map {f : Lexeme → Lexeme} (each : ∀ l ∈ ls, Rewrites [l] [f l]) :
    Rewrites ls (ls.map f) := by
  induction ls with
  | nil => exact .nil
  | cons l ls ih =>
      obtain ⟨first, later⟩ := List.forall_mem_cons.mp each
      exact .append first (ih later)

/-- Lexemes may be written as they are. -/
theorem Rewrites.refl (closed : Sealed ls) : Rewrites ls ls := by
  have each : ∀ l ∈ ls, Rewrites [l] [id l] := fun l member => by
    cases trivia : l.isTrivia with
    | true => exact .trivia (kind_of_isTrivia trivia)
    | false => exact .token ⟨trivia, closed l member⟩
  simpa using Rewrites.map each

/-! ## Trivia -/

/-- No trivia stands right behind trivia. -/
def Sparse (ls : List Lexeme) : Prop :=
  ls.IsChain fun l m => ¬ (l.isTrivia = true ∧ m.isTrivia = true)

theorem Row.sparse (row : Row ls rest) : Sparse ls := by
  induction ls with
  | nil => exact .nil
  | cons l ls ih =>
      cases ls with
      | nil => exact .singleton l
      | cons m ls =>
          refine .cons_cons ?_ (ih row.2)
          rintro ⟨first, second⟩
          have stands := row.2.1
          have goesOn : textOf (m :: ls) ++ rest ≠ [] := by simp [stands.text_ne_nil]
          have quiet := (row.1.closed (kind_of_isTrivia first) goesOn).2
          refine not_quiet_of_trivia stands (kind_of_isTrivia second) ?_
          rwa [textOf_cons, List.append_assoc] at quiet

theorem Sparse.append (h : Sparse (ls ++ ms)) : Sparse ls ∧ Sparse ms :=
  ⟨h.left_of_append, h.right_of_append⟩

/-! ## Gaps -/

/-- Behind a token, a blank takes the place of what is left out. -/
theorem Rewrites.spaced (solid : l.Solid) (h : Rereads ls (blank :: ms)) :
    Rewrites (l :: ls) (l :: blank :: ms) := by
  intro old new goesOn row behind
  obtain ⟨first, later⟩ := row
  have row' := h old new goesOn later behind
  have between : Replaces (textOf ls ++ old) (textOf (blank :: ms) ++ new) := by
    simpa using replaces_blank (textOf ls ++ old) (textOf ms ++ new)
  obtain ⟨stands, front⟩ := first.standsIn solid between
  simpa [Row] using And.intro ⟨stands, row'⟩ front

/-- Where a row begins quietly, a blank may be put before it. -/
theorem Rereads.blank (h : Rewrites ls ms) (quiet : ∀ old, old ≠ [] → Row ls old →
    Quiet (textOf ls ++ old)) : Rereads ls (blank :: ms) := by
  intro old new goesOn row behind
  obtain ⟨row', front⟩ := h old new goesOn row behind
  exact ⟨stands_blank (front.quiet (quiet old goesOn row)), row'⟩

/-- What stands before any text may stand before a delimiter that goes on with no token; before
a point, if no digit follows. -/
theorem standsIn_delimiter (h : l.Stands new) (delimiter : l.kind.isDelimiter)
    (plain : ∀ c ∈ l.kind.display.toList.head?, c ∈ neutral)
    (point : l.kind = .dot → ∀ c ∈ new.head?, c.isDigit = false) :
    StandsIn old (l.text.toList ++ new) := by
  have quiet := h.quiet (isTrivia_of_isDelimiter delimiter)
  rw [(h.delimiter delimiter).1] at quiet ⊢
  cases kind : l.kind <;> simp [kind, TokenKind.isDelimiter] at delimiter <;>
    simp only [kind] at plain quiet point ⊢
  all_goals first
    | exact absurd (plain _ rfl) (by decide)
    | refine ⟨⟨fun c first => .inr (plain c first), fun opens => ?_⟩, fun _ => quiet⟩
  all_goals
    simp [TokenKind.display, opensFraction] at opens
  cases new with
  | nil => simp at opens
  | cons c cs => simp [point trivial c rfl] at opens

/-- Behind a delimiter, anything may be written that stands there. -/
theorem Rereads.delimited (h : Rereads ls ms) (delimiter : l.kind.isDelimiter) :
    Rereads (l :: ls) (l :: ms) :=
  fun old new goesOn row behind =>
    ⟨(row.1.delimiter delimiter).2 _, h old new goesOn row.2 behind⟩

/-- An opening parenthesis may be written behind anything. -/
theorem Rereads.paren (h : Rereads ls (l :: ms)) (kind : l.kind = .lParen) :
    Rewrites ls (l :: ms) := by
  intro old new goesOn row behind
  have row' := h old new goesOn row behind
  refine ⟨row', ?_⟩
  rw [textOf_cons, List.append_assoc]
  refine standsIn_delimiter row'.1 (by rw [kind]; rfl) ?_ (by simp [kind])
  rw [kind]
  rintro _ ⟨⟩
  decide

/-- A point and a name may be written behind anything, without the trivia around the point. -/
theorem Rewrites.member {dot name : Lexeme} (point : dot.kind = .dot)
    (isName : name.kind = .identifier) (as bs : List Lexeme) :
    Rewrites (as ++ dot :: (bs ++ [name])) [dot, name] := by
  intro old new goesOn row behind
  have solid : name.Solid := by simp [Solid, isTrivia, isName, TokenKind.isTrivia]
  have row' := Rereads.drop (.delimited (.drop (Rewrites.token solid).rereads bs) (by
    rw [point]; rfl)) as old new goesOn row behind
  refine ⟨row', ?_⟩
  rw [textOf_cons, List.append_assoc]
  have plain : ∀ c ∈ dot.kind.display.toList.head?, c ∈ neutral := by
    rw [point]
    rintro _ ⟨⟩
    decide
  refine standsIn_delimiter row'.1 (by rw [point]; rfl) plain fun _ => ?_
  have head := row'.2.1.name_head isName
  have some := row'.2.1.text_ne_nil
  rw [textOf_cons]
  cases text : name.text.toList with
  | nil => exact absurd text some
  | cons c cs => simpa [text] using head

/-! ## Blanks at the ends -/

theorem dropWhile_append_of_head (cs : List Char) {ds : List Char}
    (head : ∀ c ∈ ds.head?, isBlank c = false) :
    (cs ++ ds).dropWhile isBlank = cs.dropWhile isBlank ++ ds := by
  rw [List.dropWhile_append]
  split
  · rename_i none
    rw [List.isEmpty_iff.mp none, List.nil_append]
    cases ds with
    | nil => rfl
    | cons c ds => rw [List.dropWhile_cons, if_neg (by simp [head c rfl])]
  · rfl

theorem rdropWhile_append_of_getLast {cs : List Char} (ds : List Char)
    (last : ∀ c ∈ cs.getLast?, isBlank c = false) :
    (cs ++ ds).rdropWhile isBlank = cs ++ ds.rdropWhile isBlank := by
  rw [List.rdropWhile, List.reverse_append, dropWhile_append_of_head _ (by simpa using last),
    List.reverse_append, List.reverse_reverse, List.rdropWhile]

theorem rdropWhile_cons (c : Char) (cs : List Char) : (c :: cs).rdropWhile isBlank =
    if cs.rdropWhile isBlank = [] then if isBlank c then [] else [c]
    else c :: cs.rdropWhile isBlank := by
  rw [List.rdropWhile, List.reverse_cons, List.dropWhile_append, List.rdropWhile]
  by_cases none : cs.reverse.dropWhile isBlank = []
  · by_cases blank : isBlank c = true <;> simp [none, blank]
  · simp [none]

/-- It does not matter at which end blanks are taken off first. -/
theorem trim_eq (cs : List Char) :
    Text.trim cs = (cs.rdropWhile isBlank).dropWhile isBlank := by
  induction cs with
  | nil => rfl
  | cons c cs ih =>
      by_cases blank : isBlank c = true
      · rw [Text.trim, List.dropWhile_cons_of_pos blank, ← Text.trim, ih, rdropWhile_cons]
        split
        · rename_i none
          simp [none]
        · rw [List.dropWhile_cons_of_pos blank]
      · have stays : (c :: cs).rdropWhile isBlank = c :: cs.rdropWhile isBlank := by
          rw [rdropWhile_cons]
          split <;> simp_all
        have trimmed : Text.trim (c :: cs) = (c :: cs).rdropWhile isBlank := by
          rw [Text.trim, List.dropWhile_cons_of_neg blank, List.rdropWhile]
        rw [trimmed, stays, List.dropWhile_cons_of_neg blank]

/-! ## What stands in parentheses -/

/-- Two texts that begin with the same delimiter are equally good to stand before. -/
theorem Stands.standsIn_self (h : l.Stands old) (delimiter : l.kind.isDelimiter)
    (notPoint : l.kind ≠ .dot) : StandsIn (l.text.toList ++ old) (l.text.toList ++ new) := by
  have quiet := ((h.delimiter delimiter).2 new).quiet (isTrivia_of_isDelimiter delimiter)
  rw [(h.delimiter delimiter).1] at quiet ⊢
  cases kind : l.kind <;> simp [kind, TokenKind.isDelimiter] at delimiter notPoint
  all_goals
    rw [kind] at quiet
    exact ⟨⟨fun c first => .inl first, by simp [TokenKind.display, opensFraction]⟩, fun _ => quiet⟩

/-- A row that ends in a delimiter is a row before any text. -/
theorem Row.replace_end (row : Row (ls ++ [l]) old) (closed : Sealed ls)
    (delimiter : l.kind.isDelimiter) (notPoint : l.kind ≠ .dot) (new : List Char) :
    Row (ls ++ [l]) new := by
  rw [row_append, row_singleton] at row ⊢
  refine ⟨(Rewrites.refl closed _ _ (by simp [row.2.text_ne_nil]) row.1 ?_).1,
    (row.2.delimiter delimiter).2 new⟩
  simpa using row.2.standsIn_self delimiter notPoint

/-- Trivia of some characters, none if there are none. -/
def gap (cs : List Char) : List Lexeme := if cs = [] then [] else [⟨.trivia, String.ofList cs⟩]

/-- The lexemes without blanks at their front. -/
def trimFront : List Lexeme → List Lexeme
  | [] => []
  | l :: ls => if l.isTrivia then gap (l.text.toList.dropWhile isBlank) ++ ls else l :: ls

/-- The lexemes without blanks at their end. -/
def trimBack (ls : List Lexeme) : List Lexeme :=
  match ls.getLast? with
  | none => []
  | some l =>
      if l.isTrivia then ls.dropLast ++ gap (l.text.toList.rdropWhile isBlank) else ls

/-- The lexemes without blanks at both ends. -/
def trimmed (ls : List Lexeme) : List Lexeme := trimBack (trimFront ls)

/-- The trivia at the end of the lexemes. -/
def closingGap (ls : List Lexeme) : List Char :=
  match ls.getLast? with
  | none => []
  | some l => if l.isTrivia then l.text.toList else []

@[simp] theorem textOf_gap (cs : List Char) : textOf (gap cs) = cs := by
  unfold gap
  split <;> simp_all

theorem trimBack_concat (ls : List Lexeme) (l : Lexeme) : trimBack (ls ++ [l]) =
    if l.isTrivia then ls ++ gap (l.text.toList.rdropWhile isBlank) else ls ++ [l] := by
  simp [trimBack]

theorem closingGap_concat (ls : List Lexeme) (l : Lexeme) :
    closingGap (ls ++ [l]) = if l.isTrivia then l.text.toList else [] := by
  simp [closingGap]

/-- What is left of trivia without an open comment stands before what does not go on with it. -/
theorem row_gap {cs : List Char} (closed : Closed cs) (quiet : Quiet rest) :
    Row (gap cs) rest := by
  unfold gap
  split
  · trivial
  · rename_i some
    refine row_singleton.mpr (Closed.stands ?_ rfl ?_ quiet)
    · simpa using closed
    · simpa using some

theorem Row.trimFront (row : Row ls rest) (goesOn : rest ≠ []) : Row (trimFront ls) rest := by
  cases ls with
  | nil => trivial
  | cons l ls =>
      rw [Lexeme.trimFront]
      split
      · rename_i trivia
        obtain ⟨closed, quiet⟩ := row.1.closed (kind_of_isTrivia trivia) (by simp [goesOn])
        exact row_append.mpr ⟨row_gap closed.dropWhile quiet, row.2⟩
      · exact row

/-- Trivia may be shortened at its end: it begins as it did. -/
theorem Stands.shorten (h : l.Stands old) (kind : l.kind = .trivia) {cs : List Char}
    (begins : cs <+: l.text.toList) (some : cs ≠ []) :
    StandsIn (l.text.toList ++ old) (cs ++ new) := by
  have loud := not_quiet_of_trivia h kind
  obtain ⟨more, text⟩ := begins
  cases cs with
  | nil => exact absurd rfl some
  | cons c cs =>
      rw [← text] at loud ⊢
      refine ⟨⟨fun x first => .inl first, fun opens => ?_⟩, fun quiet => absurd quiet loud⟩
      simp only [List.cons_append, opensFraction, Bool.and_eq_true, decide_eq_true_eq] at opens
      obtain ⟨rfl, -⟩ := opens
      exact absurd (quiet_cons.mpr ⟨by decide, by simp⟩) loud

/-- Blanks may be taken from the end of the trivia: they do not end a line with a comment. -/
def Trims (gap : List Char) : Prop := Closed gap → Closed (gap.rdropWhile isBlank)

/-- What stands before trivia and a closing parenthesis stands before them without the blanks
between both. -/
theorem Row.before_shortened {init : List Lexeme} {last : Lexeme}
    (row : Row (init ++ [last, l]) rest) (closed : Sealed init) (trivia : last.isTrivia)
    (kind : l.kind = .rParen) :
    Row init (last.text.toList.rdropWhile isBlank ++ (l.text.toList ++ rest)) := by
  obtain ⟨front, gap, stands, -⟩ := row_append.mp row
  have plain : ∀ c ∈ l.kind.display.toList.head?, c ∈ neutral := by
    rw [kind]
    rintro _ ⟨⟩
    decide
  refine (Rewrites.refl closed _ _ (by simp [gap.text_ne_nil]) front ?_).1
  by_cases none : last.text.toList.rdropWhile isBlank = []
  · have delimited : StandsIn (textOf [last, l] ++ rest) (l.text.toList ++ rest) :=
      standsIn_delimiter stands (by rw [kind]; rfl) plain (by simp [kind])
    simpa [none] using delimited
  · simpa using gap.shorten (kind_of_isTrivia trivia) (List.rdropWhile_prefix isBlank _) none

theorem Row.trimBack (row : Row (ls ++ [l]) rest) (closed : Sealed ls)
    (trims : Trims (closingGap ls)) (kind : l.kind = .rParen) :
    Row (trimBack ls ++ [l]) rest := by
  rcases List.eq_nil_or_concat' ls with rfl | ⟨init, last, rfl⟩
  · exact row
  · rw [closingGap_concat] at trims
    rw [trimBack_concat]
    split
    · rename_i trivia
      rw [if_pos trivia] at trims
      rw [List.append_assoc] at row
      have front := row.before_shortened (sealed_append.mp closed).1 trivia kind
      obtain ⟨-, gap, stands, -⟩ := row_append.mp row
      obtain ⟨comment, quiet⟩ := gap.closed (kind_of_isTrivia trivia) (by simp [stands.text_ne_nil])
      rw [row_append, row_append, row_singleton]
      exact ⟨⟨by simpa using front, row_gap (trims comment) (by simpa using quiet)⟩, stands⟩
    · exact row

theorem sealed_gap (cs : List Char) : Sealed (gap cs) := by
  intro l member
  unfold gap at member
  split at member
  · simp at member
  · obtain rfl : l = _ := by simpa using member
    simp

theorem Sealed.trimFront (closed : Sealed ls) : Sealed (trimFront ls) := by
  cases ls with
  | nil => exact closed
  | cons l ls =>
      rw [Lexeme.trimFront]
      split
      · exact sealed_append.mpr ⟨sealed_gap _, (List.forall_mem_cons.mp closed).2⟩
      · exact closed

/-- The closing trivia stays, or loses its blanks if it is all there is. -/
theorem closingGap_trimFront (ls : List Lexeme) :
    closingGap (trimFront ls) = closingGap ls ∨
      closingGap (trimFront ls) = (closingGap ls).dropWhile isBlank := by
  cases ls with
  | nil => exact .inl rfl
  | cons l ls =>
      rw [trimFront]
      split
      · rename_i trivia
        rcases List.eq_nil_or_concat' ls with rfl | ⟨init, last, rfl⟩
        · right
          rw [List.append_nil, ← List.nil_append [l], closingGap_concat, if_pos trivia]
          unfold gap
          split
          · rename_i none
            exact none.symm
          · exact String.toList_ofList
        · left
          rw [← List.append_assoc, closingGap_concat, ← List.cons_append, closingGap_concat]
      · exact .inl rfl

/-- The closing trivia of a row has no open comment. -/
theorem Row.closed_closingGap (row : Row ls rest) (goesOn : rest ≠ []) : Closed (closingGap ls) := by
  rcases List.eq_nil_or_concat' ls with rfl | ⟨init, last, rfl⟩
  · exact fun rest => by simp [closingGap]
  · rw [closingGap_concat]
    split
    · rename_i trivia
      exact ((row_append.mp row).2.1.closed (kind_of_isTrivia trivia) (by simpa using goesOn)).1
    · exact fun rest => by simp

theorem Trims.trimFront (trims : Trims (closingGap ls)) (closed : Closed (closingGap ls)) :
    Trims (closingGap (trimFront ls)) := by
  rcases closingGap_trimFront ls with same | shorter
  · rwa [same]
  · intro _
    rw [shorter]
    show Closed (Text.trim (closingGap ls))
    rw [trim_eq]
    exact (trims closed).dropWhile

theorem Sealed.trimBack (closed : Sealed ls) : Sealed (trimBack ls) := by
  rcases List.eq_nil_or_concat' ls with rfl | ⟨init, last, rfl⟩
  · exact closed
  · rw [trimBack_concat]
    split
    · exact sealed_append.mpr ⟨(sealed_append.mp closed).1, sealed_gap _⟩
    · exact closed

/-- **What stands in parentheses** may be written without blanks at both ends. -/
theorem row_trimmed (row : Row (ls ++ [l]) old) (closed : Sealed ls)
    (trims : Trims (closingGap ls)) (kind : l.kind = .rParen) (new : List Char) :
    Row (trimmed ls ++ [l]) new := by
  obtain ⟨inner, stands⟩ := row_append.mp row
  have goesOn : textOf [l] ++ old ≠ [] := by simp [stands.1.text_ne_nil]
  have front : Row (trimFront ls ++ [l]) old := row_append.mpr ⟨inner.trimFront goesOn, stands⟩
  have trims' := trims.trimFront (inner.closed_closingGap goesOn)
  exact (front.trimBack closed.trimFront trims' kind).replace_end closed.trimFront.trimBack
    (by rw [kind]; rfl) (by simp [kind]) new

/-! ## Texts -/

/-- Lexemes behind trivia begin with no blank. -/
theorem head_textOf (quiet : Quiet (textOf ls ++ rest)) :
    ∀ c ∈ (textOf ls).head?, isBlank c = false := by
  intro c first
  cases text : textOf ls with
  | nil => simp [text] at first
  | cons x xs =>
      obtain rfl : x = c := by simpa [text] using first
      rw [text] at quiet
      exact (quiet_cons.mp quiet).1

theorem textOf_trimFront (row : Row ls rest) (goesOn : rest ≠ []) :
    textOf (trimFront ls) = (textOf ls).dropWhile isBlank := by
  cases ls with
  | nil => rfl
  | cons l ls =>
      rw [trimFront]
      split
      · rename_i trivia
        obtain ⟨-, quiet⟩ := row.1.closed (kind_of_isTrivia trivia) (by simp [goesOn])
        rw [textOf_append, textOf_gap, textOf_cons, dropWhile_append_of_head _ (head_textOf quiet)]
      · rename_i significant
        have head := row.1.head_not_blank (by simpa using significant)
        have first : ∀ c ∈ (textOf (l :: ls)).head?, isBlank c = false := by
          obtain ⟨c, cs, text, -⟩ := row.1
          rw [text] at head
          rw [textOf_cons, text]
          exact head
        simpa using (dropWhile_append_of_head [] first).symm

/-- Lexemes that end in a token end in no blank. -/
theorem getLast_textOf (row : Row (ls ++ [l]) rest) (closed : Sealed (ls ++ [l]))
    (significant : l.isTrivia = false) :
    ∀ c ∈ (textOf (ls ++ [l])).getLast?, isBlank c = false := by
  rw [row_append, row_singleton] at row
  have last := row.2.getLast_not_blank ⟨significant, closed l (by simp)⟩
  rw [textOf_append, textOf_cons, textOf_nil, List.append_nil, List.getLast?_append]
  cases text : l.text.toList.getLast? with
  | none => exact absurd (List.getLast?_eq_none_iff.mp text) row.2.text_ne_nil
  | some c => simpa [text] using last

/-- The lexemes before trivia end in no blank. -/
theorem getLast_textOf_trivia (row : Row (ls ++ [l]) rest) (closed : Sealed ls)
    (kind : l.kind = .trivia) : ∀ c ∈ (textOf ls).getLast?, isBlank c = false := by
  rcases List.eq_nil_or_concat' ls with rfl | ⟨init, last, rfl⟩
  · simp
  · rw [row_append, row_singleton] at row
    refine getLast_textOf row.1 closed (Bool.eq_false_iff.mpr fun trivia => ?_)
    have stands := (row_append.mp row.1).2.1
    have goesOn : textOf [] ++ (textOf [l] ++ rest) ≠ [] := by simp [row.2.text_ne_nil]
    have quiet := (stands.closed (kind_of_isTrivia trivia) goesOn).2
    exact not_quiet_of_trivia row.2 kind (by simpa using quiet)

theorem textOf_trimBack (row : Row ls rest) (closed : Sealed ls) :
    textOf (trimBack ls) = (textOf ls).rdropWhile isBlank := by
  rcases List.eq_nil_or_concat' ls with rfl | ⟨init, last, rfl⟩
  · rfl
  · rw [trimBack_concat]
    split
    · rename_i trivia
      rw [textOf_append, textOf_gap, textOf_append, textOf_cons, textOf_nil, List.append_nil,
        rdropWhile_append_of_getLast _
          (getLast_textOf_trivia row (sealed_append.mp closed).1 (kind_of_isTrivia trivia))]
    · rename_i significant
      have last := getLast_textOf row closed (by simpa using significant)
      simpa using (rdropWhile_append_of_getLast [] last).symm

theorem textOf_trimmed (row : Row ls rest) (goesOn : rest ≠ []) (closed : Sealed ls) :
    textOf (trimmed ls) = Text.trim (textOf ls) := by
  rw [trimmed, textOf_trimBack (row.trimFront goesOn) closed.trimFront, textOf_trimFront row goesOn]
  rfl

end QuestScript.Lexeme
