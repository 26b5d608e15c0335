/-
# QuestScript.Proofs.Calls -- calls that are written out

A call is lowered to its receiver, its name and the text of its arguments, and `Call.text` puts
these together again: without the trivia around the point and before the parenthesis, and with
blanks taken from both ends of the arguments.  Nothing else is changed, be there strings, comments
or other calls in them, and so the text has the words of the call.

Only a line comment at the end of the arguments does harm.  The line break that ended it is a
blank and goes, and the comment takes in the closing parenthesis (`Tree.Muffled`).  Then the text
is no expression.  In all other cases it is one, from its first character to its last, and is
lowered to the same receiver, name and arguments (`Parsed.call_reread`).
-/
import QuestScript.Proofs.Rereading
import QuestScript.Proofs.Restoring

namespace QuestScript

open Text (isBlank)

set_option autoImplicit false

/-! ## Trivia before a closing parenthesis -/

namespace Lexeme

variable {cs : List Char} {ls : List Lexeme} {l : Lexeme} {old : List Char}

/-- A closing parenthesis right behind the trivia is taken for a part of it. -/
def Swallows (gap : List Char) : Prop := gap.length < triviaExtent .blank (gap ++ [')'])

instance : DecidablePred Swallows := fun gap =>
  inferInstanceAs (Decidable (gap.length < triviaExtent .blank (gap ++ [')'])))

theorem Closed.not_swallows (h : Closed cs) : ¬ Swallows cs := by
  rw [Swallows, h]
  exact lt_irrefl _

theorem Leaves.swallows (h : Leaves .blank .lineComment cs) : Swallows cs := by
  rw [Swallows, h]
  exact Nat.lt_succ_self _

/-- Blanks may be taken from the end of closed trivia if what is left swallows nothing. -/
theorem trims_iff (closed : Closed cs) : Trims cs ↔ ¬ Swallows (cs.rdropWhile isBlank) :=
  ⟨fun trims => (trims closed).not_swallows, fun quiet _ =>
    closed.leaves_rdropWhile.resolve_right fun ⟨runs, _⟩ => quiet runs.swallows⟩

theorem not_leaves_nil : ¬ Leaves .blank .lineComment [] :=
  fun runs => absurd (runs ['x']) (by decide)

/-- What swallows a parenthesis at the end of a row is a line comment, also if blanks are taken
from the front. -/
theorem leaves_closingGap (row : Row ls old) (goesOn : old ≠ [])
    (swallows : Swallows ((closingGap ls).rdropWhile isBlank)) :
    Leaves .blank .lineComment ((closingGap (trimFront ls)).rdropWhile isBlank) := by
  have runs := ((row.closed_closingGap goesOn).leaves_rdropWhile.resolve_left fun shut =>
    shut.not_swallows swallows).1
  rcases closingGap_trimFront ls with same | shorter
  · rwa [same]
  · rw [shorter]
    show Leaves .blank .lineComment (Text.trim (closingGap ls))
    rw [trim_eq]
    exact runs.dropWhile

/-- A row in whose last lexeme, a comment, a parenthesis is lost. -/
theorem ofText_swallowed (row : Row (ls ++ [l]) old) (closed : Sealed ls) (kind : l.kind = .rParen)
    (swallows : Swallows ((closingGap ls).rdropWhile isBlank)) :
    ∃ init last, ofText (textOf (trimmed ls ++ [l])) = init ++ [last] ∧ last.isTrivia := by
  obtain ⟨inner, stands⟩ := row_append.mp row
  have goesOn : textOf [l] ++ old ≠ [] := by simp [stands.1.text_ne_nil]
  have runs := leaves_closingGap inner goesOn swallows
  have front : Row (trimFront ls ++ [l]) [] :=
    (row_append.mpr ⟨inner.trimFront goesOn, stands⟩).replace_end closed.trimFront
      (by rw [kind]; rfl) (by simp [kind]) []
  rcases List.eq_nil_or_concat' (trimFront ls) with none | ⟨init, last, ends⟩
  · rw [none] at runs
    exact absurd runs not_leaves_nil
  rw [ends, closingGap_concat] at runs
  cases trivia : last.isTrivia with
  | false => exact absurd (by simpa [trivia] using runs) not_leaves_nil
  | true =>
      rw [if_pos trivia] at runs
      have sealedInit : Sealed init := (sealed_append.mp (ends ▸ closed.trimFront)).1
      rw [ends, List.append_assoc] at front
      have before := front.before_shortened sealedInit trivia kind
      let comment : Lexeme :=
        ⟨.trivia, String.ofList (last.text.toList.rdropWhile isBlank ++ [')'])⟩
      have lost : Row [comment] [] := by
        refine row_singleton.mpr ((stands_trivia rfl).mpr ⟨by simp [comment], ?_⟩)
        simpa [comment] using (runs [')']).trans (by simp [triviaExtent])
      have parenthesis : l.text.toList = [')'] := by
        rw [(stands.1.delimiter (by rw [kind]; rfl)).1, kind]
        rfl
      have text : textOf (trimmed ls ++ [l]) = textOf init ++ textOf [comment] := by
        rw [trimmed, ends, trimBack_concat, if_pos trivia]
        simp [comment, parenthesis]
      refine ⟨init, comment, ?_, rfl⟩
      rw [text, Row.ofText (by simpa [comment, parenthesis] using before)]
      simpa using lost.ofText

end Lexeme

namespace Tree

open Lexeme (Row Rewrites Rereads Sealed Flanked textOf trimmed words Trims Swallows)

variable {t : Tree} {rule : Rule} {parts : List Tree} {rest : List Char}

/-- The arguments of the call end with a line comment.  Without the blanks behind it, the comment
takes in the closing parenthesis. -/
def Muffled (call : Tree) : Prop :=
  ∃ child ∈ call.children, child.label = .rule .arguments ∧
    Swallows (child.closingTrivia.rdropWhile isBlank)

instance : DecidablePred Muffled := fun call =>
  inferInstanceAs (Decidable (∃ child ∈ call.children, child.label = .rule .arguments ∧
    Swallows (child.closingTrivia.rdropWhile isBlank)))

/-! ## The head of a call -/

/-- The opening parenthesis stands behind anything, without the trivia before it. -/
theorem ArgumentList.rewrites_opening (args : ArgumentList) (gap : List Lexeme) :
    Rewrites (gap ++ [args.opening.lexeme]) [args.opening.lexeme] := by
  have opens : args.opening.lexeme.kind = .lParen := args.opens
  exact ((Rewrites.nil.rereads.delimited (by rw [opens]; rfl)).drop gap).paren opens

/-- A row that goes on behind an opening parenthesis may be written up to there, before anything. -/
theorem row_of_opening {l : Lexeme} {ls ms ks : List Lexeme} (row : Row (ls ++ ks) rest)
    (some : ks ≠ []) (rewrites : Rewrites ls (ms ++ [l])) (closed : Sealed ms)
    (kind : l.kind = .lParen) (new : List Char) : Row (ms ++ [l]) new := by
  obtain ⟨front, behind⟩ := Lexeme.row_append.mp row
  have goesOn : textOf ks ++ rest ≠ [] := by
    cases ks with
    | nil => exact absurd rfl some
    | cons k ks => simp [behind.1.text_ne_nil]
  exact ((rewrites _ _ goesOn front (.refl _)).1).replace_end closed (by rw [kind]; rfl)
    (by simp [kind]) new

namespace Invocation

variable (call : Invocation)

/-- The name and the opening parenthesis. -/
def head : List Lexeme := [call.name.lexeme, call.arguments.opening.lexeme]

theorem row_head (row : Row (lexemesAll call.children) rest) (new : List Char) :
    Row call.head new := by
  have split : lexemesAll call.children =
      ([call.name.lexeme] ++ (lexemesAll call.gap ++ [call.arguments.opening.lexeme])) ++
        (lexemesAll call.arguments.inner ++ [call.arguments.closing.lexeme]) := by
    simp [lexemes_children, ArgumentList.lexemes_node]
  rw [split] at row
  exact row_of_opening row (by simp)
    ((Rewrites.token call.solid).append (call.arguments.rewrites_opening _))
    (by simpa [Sealed] using call.solid.2) call.arguments.opens new

end Invocation

namespace MemberCall

variable (m : MemberCall)

/-- The receiver, the point, the name and the opening parenthesis. -/
def head : List Lexeme := m.receiver.lexemes ++ (m.dot.lexeme :: m.call.head)

theorem row_head (row : Row (lexemesAll m.children) rest) (new : List Char) : Row m.head new := by
  have split : lexemesAll m.children = (m.receiver.lexemes ++
      ((lexemesAll m.before ++ m.dot.lexeme :: (lexemesAll m.behind ++ [m.call.name.lexeme])) ++
        (lexemesAll m.call.gap ++ [m.call.arguments.opening.lexeme]))) ++
      (lexemesAll m.call.arguments.inner ++ [m.call.arguments.closing.lexeme]) := by
    simp [lexemes_children, Invocation.lexemes_children, ArgumentList.lexemes_node]
  have written : m.head = (m.receiver.lexemes ++ [m.dot.lexeme, m.call.name.lexeme]) ++
      [m.call.arguments.opening.lexeme] := by simp [head, Invocation.head]
  rw [split] at row
  rw [written]
  refine row_of_opening row (by simp) ?_ ?_ m.call.arguments.opens new
  · simpa using (Rewrites.refl m.readable.strings).append
      ((Rewrites.member m.isDot m.call.isName (lexemesAll m.before) (lexemesAll m.behind)).append
        (m.call.arguments.rewrites_opening (lexemesAll m.call.gap)))
  · refine Lexeme.sealed_append.mpr ⟨m.readable.strings, ?_⟩
    have point : m.dot.lexeme.kind = .dot := m.isDot
    simpa [Sealed, point] using m.call.solid.2

end MemberCall

/-! ## What a call is written as -/

/-- A call in a row of tokens, and what it is written as: a head that stands before anything, and
the trimmed arguments. -/
structure Spelling (t : Tree) where
  call : Call
  head : List Lexeme
  arguments : ArgumentList
  opens : ∃ first more, head = first :: more ∧ first.isTrivia = false
  heads : ∀ new, Row head new
  row : ∃ rest, Row (lexemesAll arguments.inner ++ [arguments.closing.lexeme]) rest
  member : arguments.node ∈ t.children
  only : ∀ child ∈ t.children, child.label = .rule .arguments → child = arguments.node
  written : t.written =
    head ++ (trimmed (lexemesAll arguments.inner) ++ [arguments.closing.lexeme])
  words : words t.written = words t.lexemes
  lowers : t.lower = .ok (some (.call call))
  text : call.text.toList = textOf t.written
  restores : ∀ u, ReadBack t u → u.lower = t.lower

theorem not_arguments_of_isTrivia {gap : List Tree} (h : ∀ g ∈ gap, g.isTrivia) :
    ∀ g ∈ gap, g.label ≠ .rule .arguments := by
  intro g member label
  rw [label_of_isTrivia (h g member)] at label
  cases label

theorem ArgumentList.row_inner (args : ArgumentList) (row : Row args.node.lexemes rest) :
    Row (lexemesAll args.inner ++ [args.closing.lexeme]) rest := by
  rw [lexemes_node] at row
  exact row.2

theorem Invocation.only_arguments (call : Invocation) :
    ∀ child ∈ call.children, child.label = .rule .arguments → child = call.arguments.node := by
  have gap := not_arguments_of_isTrivia call.trivia
  intro child member label
  simp only [children, List.mem_cons, List.mem_append, List.not_mem_nil, or_false] at member
  rcases member with rfl | inGap | rfl
  · simp [leaf] at label
  · exact absurd label (gap child inGap)
  · rfl

/-- A call by name as it is written. -/
def Invocation.spelling (call : Invocation) (row : Row (lexemesAll call.children) rest) :
    Spelling call.node where
  call := ⟨none, call.name.text, String.ofList (Text.trim call.arguments.text)⟩
  head := call.head
  arguments := call.arguments
  opens := ⟨_, _, rfl, call.significant⟩
  heads := call.row_head row
  row := ⟨rest, call.arguments.row_inner (row_arguments row)⟩
  member := by simp [node, ofRule, children]
  only := call.only_arguments
  written := by simp [call.written_node, Invocation.written, ArgumentList.written, head]
  words := by rw [call.written_node, call.words_written, node, lexemes_ofRule]
  lowers := lower_node row
  text := by
    rw [call.written_node]
    exact render_node row (lower_node row)
  restores u again := restores_node row again

/-- A call on a receiver as it is written. -/
def MemberCall.spelling (m : MemberCall) (row : Row (lexemesAll m.children) rest) :
    Spelling m.node where
  call := ⟨some m.receiver.fullText, m.call.name.text,
    String.ofList (Text.trim m.call.arguments.text)⟩
  head := m.head
  arguments := m.call.arguments
  opens := by
    obtain ⟨first, more, whole, significant⟩ :=
      (m.readable.tidy.flanked m.readable.faultless m.significant_receiver).1
    exact ⟨first, _, by rw [head, whole, List.cons_append], significant⟩
  heads := m.row_head row
  row := ⟨rest, m.call.arguments.row_inner (Invocation.row_arguments (row_call row))⟩
  member := by simp [node, ofRule, children, Invocation.children]
  only := by
    have before := not_arguments_of_isTrivia m.triviaBefore
    have behind := not_arguments_of_isTrivia m.triviaBehind
    intro child member label
    simp only [node, ofRule, children, List.mem_cons, List.mem_append] at member
    rcases member with rfl | inBefore | rfl | inBehind | inCall
    · have isReceiver := m.isReceiver
      simp [label, Label.isExpression, Rule.isExpression] at isReceiver
    · exact absurd label (before child inBefore)
    · simp [leaf] at label
    · exact absurd label (behind child inBehind)
    · exact m.call.only_arguments child inCall label
  written := by
    simp [m.written_node, MemberCall.written, Invocation.written, ArgumentList.written, head,
      Invocation.head]
  words := by rw [m.written_node, m.words_written, node, lexemes_ofRule]
  lowers := lower_node row
  text := by
    rw [m.written_node]
    exact render_node row (lower_node row)
  restores u again := restores_node row again

/-- A readable call in a row is written out in one of the two ways. -/
theorem Readable.spelling (h : (ofRule rule parts).Readable) (isCall : rule.isCall)
    (row : Row (lexemesAll parts) rest) : Nonempty (Spelling (ofRule rule parts)) := by
  cases rule <;> simp [Rule.isCall] at isCall
  · obtain ⟨call, rfl⟩ := h.function
    exact ⟨call.spelling row⟩
  · obtain ⟨m, rfl⟩ := h.method
    exact ⟨m.spelling row⟩

namespace Spelling

variable (s : Spelling t)

/-- The closing parenthesis is swallowed or blanks may be taken from before it. -/
theorem trims_iff : s.arguments.Trims ↔ ¬ t.Muffled := by
  obtain ⟨rest, row⟩ := s.row
  obtain ⟨inner, stands⟩ := Lexeme.row_append.mp row
  have closed := inner.closed_closingGap (by simp [stands.1.text_ne_nil])
  rw [ArgumentList.Trims, Lexeme.trims_iff closed, ← s.arguments.closingTrivia_node]
  refine not_congr ⟨fun swallows => ⟨_, s.member, rfl, swallows⟩, ?_⟩
  rintro ⟨child, member, label, swallows⟩
  rwa [s.only child member label] at swallows

/-- A call that is not muffled has the lexemes that it is written as. -/
theorem lexed (plain : ¬ t.Muffled) : Lexeme.ofText s.call.text.toList = t.written := by
  obtain ⟨rest, row⟩ := s.row
  have inside := Lexeme.row_trimmed row s.arguments.strings (s.trims_iff.mpr plain)
    s.arguments.closes []
  have whole : Row t.written [] := by
    rw [s.written]
    exact Lexeme.row_append.mpr ⟨s.heads _, inside⟩
  rw [s.text]
  simpa using whole.ofText

/-- The text of a muffled call ends with a comment. -/
theorem lexed_muffled (muffled : t.Muffled) : ∃ ls last,
    Lexeme.ofText s.call.text.toList = s.head ++ (ls ++ [last]) ∧ last.isTrivia := by
  obtain ⟨rest, row⟩ := s.row
  have swallows :
      Swallows ((Lexeme.closingGap (lexemesAll s.arguments.inner)).rdropWhile isBlank) := by
    obtain ⟨child, member, label, swallows⟩ := muffled
    rwa [s.only child member label, s.arguments.closingTrivia_node] at swallows
  obtain ⟨ls, last, lost, trivia⟩ :=
    Lexeme.ofText_swallowed row s.arguments.strings s.arguments.closes swallows
  refine ⟨ls, last, ?_, trivia⟩
  rw [s.text, s.written, Lexeme.textOf_append, (s.heads _).ofText, lost]

/-- The text of a call does not begin with trivia. -/
theorem begins : ∃ first more, Lexeme.ofText s.call.text.toList = first :: more ∧
    first.isTrivia = false := by
  obtain ⟨first, more, head, significant⟩ := s.opens
  rw [s.text, s.written, Lexeme.textOf_append, (s.heads _).ofText, head]
  exact ⟨first, _, rfl, significant⟩

include s in
/-- What is written begins and ends with tokens. -/
theorem flanked : Flanked t.written := by
  obtain ⟨first, more, head, significant⟩ := s.opens
  refine ⟨⟨first, _, by rw [s.written, head, List.cons_append], significant⟩, ?_⟩
  refine ⟨s.head ++ trimmed (lexemesAll s.arguments.inner), s.arguments.closing.lexeme, ?_,
    significant_of_kind s.arguments.closes rfl⟩
  rw [s.written, List.append_assoc]

end Spelling

end Tree

/-! ## Calls of a script -/

namespace Parsed

open Grammar (Regular significant)
open QuestScript.Tree (Spelling)

variable {limit : Nat} {text : String} {node : Tree}

theorem isExpression_of_isCall (isCall : node.isCall) : node.label.isExpression := by
  cases label : node.label with
  | token kind => simp [Tree.isCall, label] at isCall
  | rule rule =>
      rw [Tree.isCall, label] at isCall
      cases rule <;> first | rfl | simp [Rule.isCall] at isCall

theorem spelling_of_mem (ok : (ofText limit text).isOk)
    (member : node ∈ (ofText limit text).root.nodes) (isCall : node.isCall) :
    Nonempty (Spelling node) := by
  cases label : node.label with
  | token kind => simp [Tree.isCall, label] at isCall
  | rule rule =>
      have isCall : rule.isCall := by simpa [Tree.isCall, label] using isCall
      have isPart : (Label.rule rule).isPart := by
        cases rule <;> first | rfl | simp [Rule.isCall] at isCall
      obtain ⟨parts, rest, rfl, readable, row⟩ := readable_of_mem ok member label isPart
      exact readable.spelling isCall row

/-- The text of a muffled call is no expression. -/
theorem not_readsAs_of_muffled (s : Spelling node) (muffled : node.Muffled) (levels : Nat)
    (e : Tree) : ¬ ReadsAs levels s.call.text e := by
  intro reads
  obtain ⟨-, init, final, ends, isWord⟩ := reads.flanked s.begins
  obtain ⟨ls, last, lexed, trivia⟩ := s.lexed_muffled muffled
  rw [lexed, ← List.append_assoc] at ends
  obtain rfl : last = final := by simpa using (List.append_inj' ends rfl).2
  exact Bool.false_ne_true (isWord.symm.trans trivia)

/-- The text of a call that is regular and not muffled is lowered to the same call again. -/
theorem readsAs_of_spelling (s : Spelling node) (regular : Regular node)
    (isExpr : node.label.isExpression) (plain : ¬ node.Muffled) {levels : Nat}
    (enough : (significant node.tokens).length + 1 ≤ levels) :
    ∃ e, ReadsAs levels s.call.text e ∧ e.lower = .ok (some (.call s.call)) := by
  have lexed := s.lexed plain
  obtain ⟨u, reads, bare⟩ :=
    readsAs_of_words regular isExpr (lexed ▸ s.flanked) (lexed ▸ s.words) enough
  obtain ⟨tidy, faultless, lexemes⟩ := reads.sound s.begins
  exact ⟨u, reads, (s.restores u ⟨tidy, faultless, bare, lexemes.trans lexed⟩).trans s.lowers⟩

/-- **Calls are rebuilt.**  In a script in order every call is lowered to a call, and unless it is
muffled, the text of that is one expression and nothing else, which is lowered to the same call.
The text of a muffled call is no expression, however many levels of nesting are allowed. -/
theorem call_reread (ok : (ofText limit text).isOk)
    (member : node ∈ (ofText limit text).root.nodes) (isCall : node.isCall) :
    ∃ call, node.lower = .ok (some (.call call)) ∧
      (¬ node.Muffled → ∃ least, ∀ levels, least ≤ levels →
        ∃ e, ReadsAs levels call.text e ∧ e.lower = .ok (some (.call call))) ∧
      (node.Muffled → ∀ levels e, ¬ ReadsAs levels call.text e) := by
  obtain ⟨s⟩ := spelling_of_mem ok member isCall
  have isExpr := isExpression_of_isCall isCall
  have notRoot : node.label ≠ .rule .script := fun label => by
    simp [label, Label.isExpression, Rule.isExpression] at isExpr
  have regular := regular_of_mem ok member notRoot
  exact ⟨s.call, s.lowers,
    fun plain => ⟨_, fun levels enough => readsAs_of_spelling s regular isExpr plain enough⟩,
    fun muffled => not_readsAs_of_muffled s muffled⟩

/-- Comments, a parenthesis in a string, and a call in a call. -/
theorem call_reread_comments :
    let text := "process p \x7b f (g(a), \")\" /* b */ ) . h( // c\n d ); \x7d"
    (ofText 9 text).isOk ∧ ∃ node ∈ (ofText 9 text).root.nodes, node.isCall ∧ ¬ node.Muffled ∧
      ∃ call, node.lower = .ok (some (.call call)) ∧ ∃ least, ∀ levels, least ≤ levels →
        ∃ e, ReadsAs levels call.text e ∧ e.lower = .ok (some (.call call)) := by
  intro text
  have ok : (ofText 9 text).isOk := by decide +kernel
  have exists_plain : ∃ node ∈ (ofText 9 text).root.nodes, node.isCall ∧ ¬ node.Muffled := by
    decide +kernel
  obtain ⟨node, member, isCall, plain⟩ := exists_plain
  obtain ⟨call, lowers, reads, -⟩ := call_reread ok member isCall
  exact ⟨ok, node, member, isCall, plain, call, lowers, reads plain⟩

/-- A line comment at the end of the arguments takes in the closing parenthesis. -/
theorem call_muffled :
    let text := "process p \x7b f(a // c\n); \x7d"
    (ofText 9 text).isOk ∧ ∃ node ∈ (ofText 9 text).root.nodes, node.isCall ∧
      ∃ call, node.lower = .ok (some (.call call)) ∧ call.text = "f(a // c)" ∧
        ∀ levels e, ¬ ReadsAs levels call.text e := by
  intro text
  have ok : (ofText 9 text).isOk := by decide +kernel
  have exists_muffled : ∃ node ∈ (ofText 9 text).root.nodes, node.isCall ∧ node.Muffled ∧
      node.lower.toOption.join.map Statement.sourceText = some "f(a // c)" := by decide +kernel
  obtain ⟨node, member, isCall, muffled, written⟩ := exists_muffled
  obtain ⟨s⟩ := spelling_of_mem ok member isCall
  refine ⟨ok, node, member, isCall, s.call, s.lowers, ?_, not_readsAs_of_muffled s muffled⟩
  rw [s.lowers] at written
  exact Option.some.inj written

end Parsed

end QuestScript
