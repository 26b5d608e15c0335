/-
# QuestScript.Proofs.Bodies -- the statements of a block, written and read back

A block is lowered to the statements among its nodes.  However each of them is written, what
holds of each holds of all one behind the other (`row_flatMap`, `textOf_flatMap`), and a block
that is read where they were written, with any trivia before and behind them, has them as its
statements again (`Legible.statements_back`).  Written without padding they stand before
anything (`Standing.row_written`), their text is the text of the lowered statements
(`Standing.textOf_written`), and read back they are lowered to the same
(`Legible.statements_restored`).
-/
import QuestScript.Proofs.Restoring

namespace QuestScript

open Grammar (production Only mem_single_mul mem_single)
open scoped Computability

set_option autoImplicit false

namespace Tree

open Lexeme (Row Flanked textOf words)

variable {parts ds stmts : List Tree} {rest : List Char}

/-! ## Blocks -/

/-- The lexemes that statements are written as, one behind the other. -/
def writtenStatements (stmts : List Tree) : List Lexeme := stmts.flatMap written

/-- The nodes of a block that are not tokens. -/
def statements (parts : List Tree) : List Tree := parts.filter fun child => !child.isToken

theorem not_token_of_isStatement {t : Tree} (h : t.label.isStatement) : t.isToken = false := by
  cases label : t.label <;> simp_all [isToken, tokenKind?, Label.tokenKind?, Label.isStatement]

theorem not_trivia_of_not_token {t : Tree} (h : t.isToken = false) : t.isTrivia = false := by
  refine Bool.eq_false_iff.mpr fun trivia => ?_
  rw [isToken_of_isTrivia trivia] at h
  cases h

theorem statements_withoutTrivia (ts : List Tree) : statements (withoutTrivia ts) = statements ts := by
  rw [statements, withoutTrivia, List.filter_filter, statements]
  refine List.filter_congr fun t _ => ?_
  cases token : t.isToken with
  | true => rfl
  | false => simp [not_trivia_of_not_token token]

theorem statements_of_all {ts : List Tree} (h : ∀ t ∈ ts, t.label.isStatement) :
    statements ts = ts :=
  List.filter_eq_self.mpr fun t member => by simp [not_token_of_isStatement (h t member)]

theorem statements_tokens {ts : List Tree} (h : ∀ t ∈ ts, t.isToken) : statements ts = [] :=
  List.filter_eq_nil_iff.mpr fun t member => by simp [h t member]

/-- A block is statements in braces, but for trivia. -/
theorem Legible.block (h : (ofRule .block parts).Legible) :
    ∃ opening closing, opening.kind = .lBrace ∧ closing.kind = .rBrace ∧
      withoutTrivia parts = leaf opening :: (statements parts ++ [leaf closing]) ∧
        ∀ s ∈ statements parts, s ∈ parts ∧ s.label.isStatement := by
  have fits := h.fits
  simp only [production, Grammar.tok, mul_assoc, mem_single_mul] at fits
  obtain ⟨first, _, whole, isOpening, stmts, inStar, _, ⟨last, rfl, isClosing⟩, rfl⟩ := fits
  have among (t : Tree) (member : t ∈ first :: (stmts ++ [last])) : t ∈ parts :=
    mem_of_withoutTrivia (by rw [whole]; exact member)
  obtain ⟨opening, rfl, opens⟩ := (h.below first (among first (by simp))).leaf_of_label isOpening
  obtain ⟨closing, rfl, closes⟩ := (h.below last (among last (by simp))).leaf_of_label isClosing
  have isStatement : ∀ s ∈ stmts, s.label.isStatement :=
    Grammar.only_kstar (Grammar.only_stmt fun _ h => h) stmts inStar
  have same : statements parts = stmts := by
    rw [← statements_withoutTrivia, whole]
    show statements ([leaf opening] ++ (stmts ++ [leaf closing])) = stmts
    simp only [statements, List.filter_append]
    rw [← statements, ← statements, ← statements, statements_of_all isStatement,
      statements_tokens (by simp [isToken, tokenKind?, leaf, Label.tokenKind?]),
      statements_tokens (by simp [isToken, tokenKind?, leaf, Label.tokenKind?]), List.nil_append,
      List.append_nil]
  rw [same]
  exact ⟨opening, closing, opens, closes, whole, fun s member =>
    ⟨among s (by simp [member]), isStatement s member⟩⟩

theorem bareAll_withoutTrivia (ts : List Tree) : bareAll ts = (withoutTrivia ts).map bare := by
  induction ts with
  | nil => rfl
  | cons t ts ih =>
      cases trivia : t.isTrivia with
      | true => simpa [bareAll, withoutTrivia, trivia] using ih
      | false => rw [bareAll_cons trivia, ih, withoutTrivia_cons trivia, List.map_cons]

theorem words_withoutTrivia (ts : List Tree) :
    words (lexemesAll (withoutTrivia ts)) = words (lexemesAll ts) := by
  induction ts with
  | nil => rfl
  | cons t ts ih =>
      cases trivia : t.isTrivia with
      | true =>
          rw [lexemesAll_cons, Lexeme.words_append, words_lexemes, if_pos trivia, List.nil_append,
            ← ih]
          simp [withoutTrivia, trivia]
      | false => simp [withoutTrivia_cons trivia, ih]

/-- Every node of a row is a row. -/
theorem row_of_mem (row : Row (lexemesAll parts) rest) (goesOn : rest ≠ []) {part : Tree}
    (member : part ∈ parts) : ∃ behind, behind ≠ [] ∧ Row part.lexemes behind := by
  induction parts with
  | nil => simp at member
  | cons first parts ih =>
      rw [lexemesAll_cons, Lexeme.row_append] at row
      rcases List.mem_cons.mp member with rfl | later
      · exact ⟨_, by simp [goesOn], row.1⟩
      · exact ih row.2 later

/-- Statements that were read, each with something behind it. -/
structure Standing (stmts : List Tree) : Prop where
  legible : ∀ s ∈ stmts, s.Legible
  isStatement : ∀ s ∈ stmts, s.label.isStatement
  row : ∀ s ∈ stmts, ∃ behind, behind ≠ [] ∧ Row s.lexemes behind

theorem standing_cons {s : Tree} {stmts : List Tree} : Standing (s :: stmts) ↔
    (s.Legible ∧ s.label.isStatement ∧ ∃ behind, behind ≠ [] ∧ Row s.lexemes behind) ∧
      Standing stmts := by
  constructor
  · rintro ⟨legible, isStatement, row⟩
    simp only [List.forall_mem_cons] at legible isStatement row
    exact ⟨⟨legible.1, isStatement.1, row.1⟩, legible.2, isStatement.2, row.2⟩
  · rintro ⟨⟨legible, isStatement, row⟩, standing⟩
    exact ⟨List.forall_mem_cons.mpr ⟨legible, standing.legible⟩,
      List.forall_mem_cons.mpr ⟨isStatement, standing.isStatement⟩,
      List.forall_mem_cons.mpr ⟨row, standing.row⟩⟩

/-- The statements of a legible block stand. -/
theorem Legible.standing (h : (ofRule .block parts).Legible) (row : Row (lexemesAll parts) rest) :
    Standing (statements parts) := by
  obtain ⟨opening, closing, -, -, whole, among⟩ := h.block
  rw [← List.cons_append] at whole
  obtain ⟨qs, front, -⟩ := h.flanks.2.eq_concat whole
  refine ⟨fun s member => h.below s (among s member).1, fun s member => (among s member).2,
    fun s member => ?_⟩
  rw [front, lexemesAll_append, Lexeme.row_append] at row
  have inFront : s ∈ qs := by
    have inParts := (among s member).1
    rw [front] at inParts
    rcases List.mem_append.mp inParts with inFront | last
    · exact inFront
    · obtain rfl : s = leaf closing := by simpa using last
      exact absurd (among _ member).2 (by simp [leaf, Label.isStatement])
  refine row_of_mem row.1 ?_ inFront
  have stands := row.2
  rw [lexemesAll_cons, lexemesAll_nil, lexemes_leaf, List.append_nil, Lexeme.row_singleton] at stands
  simp [stands.text_ne_nil]

/-! ## Statements in a row -/

theorem lowerStatements_cons {s : Tree} {L : List Statement} :
    lowerStatements (s :: stmts) = .ok L ↔
      ∃ first others, s.lowerStatement = .ok first ∧ lowerStatements stmts = .ok others ∧
        L = first :: others := by
  rw [lowerStatements, List.mapM_cons, ← lowerStatements]
  cases s.lowerStatement with
  | error e => simp [bind, Except.bind]
  | ok first => cases lowerStatements stmts <;> simp [bind, Except.bind, pure, Except.pure, eq_comm]

section InARow

variable {write : Tree → List Lexeme}

/-- Statements that may be written before any text may be written one behind the other. -/
theorem row_flatMap (each : ∀ s ∈ stmts, ∀ new, Row (write s) new) (new : List Char) :
    Row (stmts.flatMap write) new := by
  induction stmts with
  | nil => trivial
  | cons s stmts ih =>
      obtain ⟨first, others⟩ := List.forall_mem_cons.mp each
      rw [List.flatMap_cons, Lexeme.row_append]
      exact ⟨first _, ih others⟩

theorem words_flatMap (each : ∀ s ∈ stmts, words (write s) = words s.lexemes) :
    words (stmts.flatMap write) = words (lexemesAll stmts) := by
  induction stmts with
  | nil => rfl
  | cons s stmts ih =>
      obtain ⟨first, others⟩ := List.forall_mem_cons.mp each
      rw [List.flatMap_cons, Lexeme.words_append, first, ih others, lexemesAll_cons,
        Lexeme.words_append]

/-- A row of statements does not begin with trivia. -/
theorem quiet_flatMap (flanked : ∀ s ∈ stmts, Flanked (write s)) {new : List Char}
    (row : Row (stmts.flatMap write) new) (goesOn : stmts.flatMap write ≠ []) :
    Lexeme.Quiet (textOf (stmts.flatMap write) ++ new) := by
  cases stmts with
  | nil => exact absurd rfl goesOn
  | cons s stmts =>
      obtain ⟨⟨first, more, begins, significant⟩, -⟩ := flanked s List.mem_cons_self
      rw [List.flatMap_cons, begins, List.cons_append] at row ⊢
      simpa using row.1.quiet significant

/-- The text of lowered statements is the text of what they are written as, if it is for each. -/
theorem textOf_flatMap {how : Rendering}
    (each : ∀ s ∈ stmts, ∀ lowered, s.lowerStatement = .ok lowered →
      textOf (write s) = (lowered.render how).toList) {L : List Statement}
    (lowered : lowerStatements stmts = .ok L) :
    textOf (stmts.flatMap write) = (Statement.renderAll how L).toList := by
  induction stmts generalizing L with
  | nil =>
      obtain rfl : [] = L := by simpa [lowerStatements, pure, Except.pure] using lowered
      simp [Statement.renderAll]
  | cons s stmts ih =>
      obtain ⟨first, others⟩ := List.forall_mem_cons.mp each
      obtain ⟨statement, rest, hfirst, hrest, rfl⟩ := lowerStatements_cons.mp lowered
      rw [List.flatMap_cons, Lexeme.textOf_append, first _ hfirst, ih others hrest,
        toList_renderAll_cons]

/-- Statements at the front of nodes that say what the statements are written as: each is read back
in its place. -/
theorem split_flatMap {back : Tree → Tree → Prop}
    (reads : ∀ {s d : Tree}, d.Tidy → d.Faultless → d.bare = s.bare → d.lexemes = write s → back s d)
    (isStatement : ∀ s ∈ stmts, s.label.isStatement) (flanked : ∀ s ∈ stmts, Flanked (write s))
    (said : ∀ s ∈ stmts, words (write s) = words s.lexemes) {bs : List Tree} {ls : List Lexeme}
    (sound : Sound ds) (same : bareAll ds = stmts.map bare ++ bs)
    (written : lexemesAll ds = stmts.flatMap write ++ ls) :
    ∃ again ds', ds = again ++ ds' ∧ Sound ds' ∧ bareAll ds' = bs ∧ lexemesAll ds' = ls ∧
      statements again = again ∧ List.Forall₂ back stmts again := by
  induction stmts generalizing ds with
  | nil => exact ⟨[], ds, rfl, sound, same, written, rfl, .nil⟩
  | cons s stmts ih =>
      simp only [List.forall_mem_cons] at isStatement flanked said
      rw [List.flatMap_cons, List.append_assoc] at written
      obtain ⟨d, ds', rfl, ⟨tidy, faultless⟩, bare, lexemes, -, soundRest, bareRest, writtenRest⟩ :=
        split_part sound flanked.1 said.1 same written
      obtain ⟨again, ds'', rfl, sound', bare', written', areStatements, backs⟩ :=
        ih isStatement.2 flanked.2 said.2 soundRest bareRest writtenRest
      have isStatement' : d.label.isStatement := by
        rw [label_eq_of_bare bare]
        exact isStatement.1
      refine ⟨d :: again, ds'', rfl, sound', bare', written', ?_,
        .cons (reads tidy faultless bare lexemes) backs⟩
      rw [statements, List.filter_cons_of_pos (by simp [not_token_of_isStatement isStatement']),
        ← statements, areStatements]

end InARow

/-! ## Statements -/

theorem Standing.flanked_written (h : Standing stmts) : ∀ s ∈ stmts, Flanked s.written :=
  fun s member => (h.legible s member).flanked_written
    (isPart_of_isStatement (h.isStatement s member))
    (not_trivia_of_not_token (not_token_of_isStatement (h.isStatement s member)))

theorem Standing.said_written (h : Standing stmts) : ∀ s ∈ stmts, words s.written = words s.lexemes :=
  fun s member => (h.legible s member).words_written
    (isPart_of_isStatement (h.isStatement s member))

/-- Statements may be written one behind the other, before any text. -/
theorem Standing.row_written (h : Standing stmts) (new : List Char) :
    Row (writtenStatements stmts) new := by
  refine row_flatMap (fun s member new => ?_) new
  obtain ⟨behind, goesOn, row⟩ := h.row s member
  exact (h.legible s member).row_written (h.isStatement s member) row goesOn new

theorem Standing.words_written (h : Standing stmts) :
    words (writtenStatements stmts) = words (lexemesAll stmts) :=
  words_flatMap h.said_written

/-- Written statements do not begin with trivia. -/
theorem Standing.quiet_written (h : Standing stmts) (goesOn : writtenStatements stmts ≠ [])
    (new : List Char) : Lexeme.Quiet (textOf (writtenStatements stmts) ++ new) :=
  quiet_flatMap h.flanked_written (h.row_written new) goesOn

/-- The text of lowered statements is the text of what they are written as. -/
theorem Standing.textOf_written (h : Standing stmts) {L : List Statement}
    (lowered : lowerStatements stmts = .ok L) :
    textOf (writtenStatements stmts) = (Statement.renderAll .source L).toList := by
  refine textOf_flatMap (fun s member first hfirst => ?_) lowered
  have isStatement := h.isStatement s member
  obtain ⟨behind, goesOn, row⟩ := h.row s member
  have text := (h.legible s member).render_lower (isPart_of_isStatement isStatement) behind goesOn
    row first (by rw [lower_of_isStatement isStatement, hfirst]; rfl)
  have none : trailing s.tokenKind? = [] := by
    have notToken := not_token_of_isStatement isStatement
    cases kind : s.tokenKind? <;> simp_all [isToken, trailing, spaced]
  rw [text, none, List.append_nil]

/-- Statements that are read back are lowered to the same statements. -/
theorem Standing.restores (h : Standing stmts) (backs : List.Forall₂ ReadBack stmts ds)
    {L : List Statement} (lowered : lowerStatements stmts = .ok L) : lowerStatements ds = .ok L := by
  induction backs generalizing L with
  | nil => exact lowered
  | cons back _ ih =>
      obtain ⟨⟨legible, isStatement, behind, -, row⟩, others⟩ := standing_cons.mp h
      obtain ⟨first, rest, hfirst, hrest, rfl⟩ := lowerStatements_cons.mp lowered
      have isStatement' := isStatement
      rw [← label_eq_of_bare back.bare] at isStatement'
      have restored := legible.restores (isPart_of_isStatement isStatement) _ behind back row
      rw [lower_of_isStatement isStatement, lower_of_isStatement isStatement', hfirst] at restored
      obtain ⟨first', hfirst', same⟩ := map_eq_ok.mp restored
      obtain rfl : first' = first := by simpa using same
      exact lowerStatements_cons.mpr ⟨first', rest, hfirst', ih others hrest, rfl⟩

/-! ## Blocks read back -/

/-- Nodes that begin with trivia begin with the leaves of it. -/
theorem split_gaps {front ls : List Lexeme} (trivia : ∀ l ∈ front, l.isTrivia) (sound : Sound ds)
    (written : lexemesAll ds = front ++ ls) :
    ∃ (toks : List Token) (ds' : List Tree), ds = toks.map leaf ++ ds' ∧ Sound ds' ∧ bareAll ds' = bareAll ds ∧
      lexemesAll ds' = ls := by
  induction front generalizing ds with
  | nil => exact ⟨[], ds, rfl, sound, rfl, written⟩
  | cons l front ih =>
      obtain ⟨first, others⟩ := List.forall_mem_cons.mp trivia
      obtain ⟨tok, ds', rfl, -, soundRest, bare, behind⟩ := split_gap sound first written
      obtain ⟨toks, ds'', rfl, sound', bare', behind'⟩ := ih others soundRest behind
      exact ⟨tok :: toks, ds'', rfl, sound', bare'.trans bare, behind'⟩

theorem statements_leaves (toks : List Token) (ts : List Tree) :
    statements (toks.map leaf ++ ts) = statements ts := by
  have none : statements (toks.map leaf) = [] := statements_tokens fun t member => by
    obtain ⟨tok, -, rfl⟩ := List.mem_map.mp member
    rfl
  rw [statements, List.filter_append, ← statements, ← statements, none, List.nil_append]

/-- Where the braces of a block and its statements were written, in one way or another and with any
trivia between them, its statements are those that were written. -/
theorem Legible.statements_back (h : (ofRule .block parts).Legible) {write : Tree → List Lexeme}
    {back : Tree → Tree → Prop}
    (reads : ∀ {s d : Tree}, d.Tidy → d.Faultless → d.bare = s.bare → d.lexemes = write s → back s d)
    (flanked : ∀ s ∈ statements parts, Flanked (write s))
    (said : ∀ s ∈ statements parts, words (write s) = words s.lexemes) {opening closing : Token}
    (opens : opening.kind = .lBrace) (closes : closing.kind = .rBrace)
    (whole : withoutTrivia parts = leaf opening :: (statements parts ++ [leaf closing]))
    {front rear : List Lexeme} (before : ∀ l ∈ front, l.isTrivia) (behind : ∀ l ∈ rear, l.isTrivia)
    (sound : Sound ds) (bare : bareAll ds = bareAll parts)
    (written : lexemesAll ds = opening.lexeme ::
      (front ++ ((statements parts).flatMap write ++ (rear ++ [closing.lexeme])))) :
    List.Forall₂ back (statements parts) (statements ds) := by
  have sigOpening : opening.isTrivia = false := by simp [Token.isTrivia, opens, TokenKind.isTrivia]
  have sigClosing : closing.isTrivia = false := by simp [Token.isTrivia, closes, TokenKind.isTrivia]
  obtain ⟨-, -, -, -, -, among⟩ := h.block
  rw [bareAll_withoutTrivia parts, whole, List.map_cons, List.map_append] at bare
  obtain ⟨_, ds₁, rfl, -, sound₁, bare₁, written₁⟩ := split_token sigOpening sound bare written
  obtain ⟨_, ds₂, rfl, sound₂, bare₂, written₂⟩ := split_gaps before sound₁ written₁
  obtain ⟨again, ds₃, rfl, sound₃, bare₃, written₃, areStatements, backs⟩ :=
    split_flatMap reads (fun s member => (among s member).2) flanked said sound₂
      (bare₂.trans bare₁) written₂
  obtain ⟨_, ds₄, rfl, sound₄, bare₄, written₄⟩ := split_gaps behind sound₃ written₃
  obtain ⟨last, ds₅, rfl, -, sound₅, -, written₅⟩ :=
    split_token sigClosing sound₄ (bare₄.trans bare₃) written₄
  have leading (t : Token) (ts : List Tree) : statements (leaf t :: ts) = statements ts :=
    statements_leaves [t] ts
  have among (ts : List Tree) : statements (again ++ ts) = again ++ statements ts := by
    rw [statements, List.filter_append, ← statements, ← statements, areStatements]
  rw [sound₅.eq_nil written₅, leading, statements_leaves, among, statements_leaves, leading,
    show statements [] = [] from rfl, List.append_nil]
  exact backs

/-- **A block is read back**: where its braces and statements were written, with any trivia
between them, its statements are lowered to what they were lowered to. -/
theorem Legible.statements_restored (h : (ofRule .block parts).Legible)
    (row : Row (lexemesAll parts) rest) {opening closing : Token}
    (opens : opening.kind = .lBrace) (closes : closing.kind = .rBrace)
    (whole : withoutTrivia parts = leaf opening :: (statements parts ++ [leaf closing]))
    {front back : List Lexeme} (before : ∀ l ∈ front, l.isTrivia) (behind : ∀ l ∈ back, l.isTrivia)
    (sound : Sound ds) (bare : bareAll ds = bareAll parts)
    (written : lexemesAll ds = opening.lexeme ::
      (front ++ (writtenStatements (statements parts) ++ (back ++ [closing.lexeme]))))
    {L : List Statement} (lowered : lowerStatements (statements parts) = .ok L) :
    lowerStatements (statements ds) = .ok L := by
  have standing := h.standing row
  have backs : List.Forall₂ ReadBack (statements parts) (statements ds) :=
    h.statements_back ReadBack.mk standing.flanked_written standing.said_written opens closes whole
      before behind sound bare written
  exact standing.restores backs lowered

end Tree

end QuestScript
