/-
# QuestScript.Proofs.Units -- where a statement has blanks

Written as source, a statement is its units with blanks between some of them: types and
operands with their text, calls as they are written, and the other tokens but for trivia.
Between two units there is one blank if the first is a comma or a question mark, or if there
was trivia between them, and none otherwise (`Readable.spelled`).

Lowering decides about blanks node by node: trivia becomes one where it stands, and a comma
brings its own.  That no blank is written twice or lost rests on where trivia is: never at the
ends of a node (`Readable.flanks`), and never twice in a row (`Lexeme.Row.sparse`).
-/
import QuestScript.Proofs.Rendered
import QuestScript.Proofs.ScriptNodes

namespace QuestScript

set_option autoImplicit false

/-! ## Units -/

/-- A unit of a statement with its kind if it is a token, or the trivia between two units. -/
inductive Piece where
  | gap
  | unit (kind : Option TokenKind) (text : String)
deriving DecidableEq

namespace Piece

def isUnit : Piece → Bool
  | .gap => false
  | .unit _ _ => true

/-- There is a blank behind a unit: another one follows, and it is a comma or a question mark or
trivia stands behind it. -/
def parted (kind : Option TokenKind) (behind : List Piece) : Bool :=
  behind.any isUnit &&
    (kind = some .comma || kind = some .question || behind.head? = some .gap)

/-- The blank behind a unit, if there is one. -/
def blankBehind (kind : Option TokenKind) (behind : List Piece) : String :=
  if parted kind behind then " " else ""

/-- The units with their blanks. -/
def spell : List Piece → String
  | [] => ""
  | .gap :: ps => spell ps
  | .unit kind text :: ps => text ++ (blankBehind kind ps ++ spell ps)

end Piece

namespace Tree

/-- The text of the call that a node is lowered to. -/
def callText (t : Tree) : String :=
  match t.lower with
  | .ok (some (.call c)) => c.text
  | _ => ""

mutual

/-- The units of a node, and the trivia between them. -/
def pieces : Tree → List Piece
  | ⟨.token kind, _, _, text⟩ => if kind.isTrivia then [.gap] else [.unit kind (text.getD "")]
  | ⟨.rule rule, span, children, text⟩ =>
      if rule.keepsText then [.unit none (fullText ⟨.rule rule, span, children, text⟩)]
      else if rule.isCall then [.unit none (callText ⟨.rule rule, span, children, text⟩)]
      else piecesAll children

/-- The units of several nodes. -/
def piecesAll : List Tree → List Piece
  | [] => []
  | t :: ts => t.pieces ++ piecesAll ts

end

end Tree

/-! ## Units one behind the other -/

namespace Piece

variable {ps qs : List Piece} {kind : Option TokenKind} {text : String}

theorem spell_gap (ps : List Piece) : spell (.gap :: ps) = spell ps := rfl

theorem spell_unit (kind : Option TokenKind) (text : String) (ps : List Piece) :
    spell (.unit kind text :: ps) = text ++ (blankBehind kind ps ++ spell ps) := rfl

/-- Whether there is a blank behind a unit is seen from the first of what follows, if there is a
unit in it. -/
theorem blankBehind_of_any (h : ps.any isUnit) (kind : Option TokenKind) : blankBehind kind ps =
    if kind = some .comma ∨ kind = some .question ∨ ps.head? = some .gap then " " else "" := by
  simp [blankBehind, parted, h, or_assoc]

theorem blankBehind_nil (kind : Option TokenKind) : blankBehind kind [] = "" := rfl

/-- Between a unit and the next one. -/
theorem blankBehind_unit (kind next : Option TokenKind) (text : String) (ps : List Piece) :
    blankBehind kind (.unit next text :: ps) =
      if kind = some .comma ∨ kind = some .question then " " else "" := by
  rw [blankBehind_of_any (by simp [isUnit])]
  simp

/-- Between a unit and the next one with trivia before it. -/
theorem blankBehind_gap (kind next : Option TokenKind) (text : String) (ps : List Piece) :
    blankBehind kind (.gap :: .unit next text :: ps) = " " := by
  rw [blankBehind_of_any (by simp [isUnit])]
  simp

/-- What follows a unit is written behind it and its blank. -/
theorem spell_append (init : List Piece) (kind : Option TokenKind) (text : String)
    (qs : List Piece) : spell (init ++ .unit kind text :: qs) =
      spell (init ++ [.unit kind text]) ++ (blankBehind kind qs ++ spell qs) := by
  induction init with
  | nil => simp [spell, blankBehind_nil]
  | cons p init ih =>
      cases p with
      | gap => exact ih
      | unit first said =>
          have units (qs : List Piece) : (init ++ .unit kind text :: qs).any isUnit := by
            simp [isUnit]
          have same : blankBehind first (init ++ .unit kind text :: qs) =
              blankBehind first (init ++ [.unit kind text]) := by
            rw [blankBehind_of_any (units qs), blankBehind_of_any (units [])]
            cases init <;> rfl
          simp only [List.cons_append, spell_unit, ih, same, String.append_assoc]

end Piece

namespace Tree

open Lexeme (Row Sparse)
open Piece (spell blankBehind)

variable {rule : Rule} {parts : List Tree}

/-! ## Units of nodes -/

theorem pieces_leaf (tok : Token) :
    (leaf tok).pieces = if tok.isTrivia then [.gap] else [.unit tok.kind tok.text] := rfl

theorem pieces_kept (keepsText : rule.keepsText) :
    (ofRule rule parts).pieces = [.unit none (ofRule rule parts).fullText] := by
  simp [ofRule, pieces, keepsText]

theorem pieces_call (isCall : rule.isCall) :
    (ofRule rule parts).pieces = [.unit none (ofRule rule parts).callText] := by
  have notKept : rule.keepsText = false := by cases rule <;> simp_all [Rule.isCall, Rule.keepsText]
  simp [ofRule, pieces, isCall, notKept]

theorem pieces_only {part : Tree} (givesWay : rule.givesWay) :
    (ofRule rule [part]).pieces = part.pieces := by
  cases rule <;> simp [Rule.givesWay] at givesWay <;>
    simp [ofRule, pieces, piecesAll, Rule.keepsText, Rule.isCall]

theorem pieces_list (isList : rule.isList) : (ofRule rule parts).pieces = piecesAll parts := by
  simp only [Rule.isList, Bool.and_eq_true, Bool.not_eq_true'] at isList
  simp [ofRule, pieces, isList.1.1.2, isList.1.2]

/-- The blank that a token brings with it. -/
def ownBlank (kind : Option TokenKind) : String := if spaced kind then " " else ""

/-- A node is written as its units, which begin and end with one; behind the last there is a
blank just if the node is a token that brings one. -/
structure Spelled (t : Tree) : Prop where
  opened : ∃ kind text behind, t.pieces = .unit kind text :: behind
  closed : ∃ init kind text, t.pieces = init ++ [.unit kind text] ∧
    (kind = some .comma ∨ kind = some .question ↔ spaced t.tokenKind?)
  rendered : ∀ s, t.lower = .ok (some s) →
    s.render .source = spell t.pieces ++ ownBlank t.tokenKind?

theorem Tidy.pieces_trivia {t : Tree} (h : t.Tidy) (trivia : t.isTrivia) : t.pieces = [.gap] := by
  obtain ⟨tok, rfl⟩ := h.eq_leaf (isToken_of_isTrivia trivia)
  rw [pieces_leaf, if_pos (by simpa using trivia)]

/-- Behind trivia stands no more of it. -/
theorem Tidy.not_trivia_behind {t u : Tree} {us : List Tree} (ht : t.Tidy) (hu : u.Tidy)
    (trivia : t.isTrivia) (sparse : Sparse (t.lexemes ++ lexemesAll (u :: us))) :
    u.isTrivia = false := by
  rw [Bool.eq_false_iff]
  intro again
  obtain ⟨tok, rfl⟩ := ht.eq_leaf (isToken_of_isTrivia trivia)
  obtain ⟨tok', rfl⟩ := hu.eq_leaf (isToken_of_isTrivia again)
  simp only [lexemesAll_cons, lexemes_leaf, List.singleton_append] at sparse
  exact (List.isChain_cons_cons.mp sparse).1 ⟨trivia, again⟩

/-- Nodes that are lowered in order are written as their units. -/
theorem renderAll_spelled (tidy : ∀ part ∈ parts, part.Tidy)
    (lowers : ∀ part ∈ parts, ∃ s, part.lower = .ok (some s))
    (h : ∀ part ∈ parts, part.isTrivia = false → Spelled part)
    (ends : ∀ last ∈ parts.getLast?, last.isTrivia = false ∧ spaced last.tokenKind? = false)
    (sparse : Sparse (lexemesAll parts)) (previous : Option TokenKind)
    (none : parts = [] → spaced previous = false) {kind : Option TokenKind}
    (same : kind = some .comma ∨ kind = some .question ↔ spaced previous) {ps : List Sourced}
    (lowered : lowerChildren previous parts = .ok ps) :
    ownBlank previous ++ Statement.renderAll .source (ps.map Prod.snd) =
      blankBehind kind (piecesAll parts) ++ spell (piecesAll parts) := by
  induction parts generalizing previous kind ps with
  | nil =>
      obtain rfl : [] = ps := by simpa [lowerChildren] using lowered
      simp [ownBlank, none rfl, piecesAll, Piece.blankBehind_nil, spell, Statement.renderAll]
  | cons part parts ih =>
      simp only [List.forall_mem_cons] at tidy lowers h
      rw [lexemesAll_cons] at sparse
      have endsLater : ∀ last ∈ parts.getLast?, last.isTrivia = false ∧
          spaced last.tokenKind? = false := by
        intro last member
        exact ends last (by rw [List.getLast?_cons]; simp_all)
      have noneLater (nil : parts = []) : spaced part.tokenKind? = false := by
        subst nil
        exact (ends part rfl).2
      have later {kind : Option TokenKind} same {ps : List Sourced} :=
        @ih tidy.2 lowers.2 h.2 endsLater sparse.append.2 part.tokenKind? noneLater kind same ps
      obtain ⟨s, hs⟩ := lowers.1
      rw [lowerChildren_cons] at lowered
      cases trivia : part.isTrivia with
      | true =>
          cases parts with
          | nil => simp [(ends part rfl).1] at trivia
          | cons next parts =>
              have significant :=
                tidy.1.not_trivia_behind (tidy.2 next (by simp)) trivia sparse
              obtain ⟨first, said, behind, opens⟩ := (h.2 next (by simp) significant).opened
              have begins : piecesAll (next :: parts) =
                  .unit first said :: (behind ++ piecesAll parts) := by
                rw [piecesAll, opens, List.cons_append]
              -- Behind the trivia there is a unit, and no blank but that of the trivia.
              have behindGap {ps : List Sourced}
                  (lowered : lowerChildren part.tokenKind? (next :: parts) = .ok ps) :
                  Statement.renderAll .source (ps.map Prod.snd) =
                    spell (piecesAll (next :: parts)) := by
                have whole := @later Option.none (by simp [not_spaced_of_isTrivia trivia]) ps lowered
                rw [begins, Piece.blankBehind_unit] at whole
                simpa [begins, ownBlank, not_spaced_of_isTrivia trivia] using whole
              rw [piecesAll, tidy.1.pieces_trivia trivia, List.singleton_append, Piece.spell_gap,
                begins, Piece.blankBehind_gap, ← begins]
              split at lowered
              · rename_i dropped
                have isSpaced : spaced previous = true := by
                  simpa [isDropped, trivia, spaced] using dropped
                rw [ownBlank, if_pos isSpaced, behindGap lowered]
              · rename_i kept
                have notSpaced : spaced previous = false := by
                  simpa [isDropped, trivia, spaced] using kept
                obtain ⟨result, others, isResult, hothers, rfl⟩ := lowered
                obtain rfl : result = some (.token .trivia " ") := by
                  simpa [tidy.1.lower_trivia trivia] using isResult.symm
                simp [ownBlank, notSpaced, partOf, Statement.renderAll, behindGap hothers,
                  Statement.render, TokenKind.write, Spacing.ofKind, Spacing.apply]
      | false =>
          obtain ⟨first, said, behind, opens⟩ := (h.1 trivia).opened
          obtain ⟨init, last, text, closes, sameLast⟩ := (h.1 trivia).closed
          rw [if_neg (by simp [isDropped, trivia])] at lowered
          obtain ⟨result, others, isResult, hothers, rfl⟩ := lowered
          obtain rfl : result = some s := by simpa [hs] using isResult.symm
          have before : blankBehind kind (part.pieces ++ piecesAll parts) = ownBlank previous := by
            rw [opens, List.cons_append, Piece.blankBehind_unit]
            simp [ownBlank, ← same]
          have front : spell (part.pieces ++ piecesAll parts) = spell part.pieces ++
              (blankBehind last (piecesAll parts) ++ spell (piecesAll parts)) := by
            rw [closes, List.append_assoc, List.singleton_append, Piece.spell_append]
          rw [piecesAll, before, front, ← later sameLast hothers]
          simp [partOf, Statement.renderAll, (h.1 trivia).rendered s hs, String.append_assoc]

/-! ## Nodes -/

/-- No `new` stands in a list. -/
theorem Readable.not_new (h : (ofRule rule parts).Readable) (isList : rule.isList) :
    ∀ part ∈ parts, part.label ≠ .token .kwNew := by
  intro part member label
  have significant : part ∈ withoutTrivia parts := List.mem_filter.mpr
    ⟨member, by simp [isTrivia, tokenKind?, label, Label.tokenKind?, TokenKind.isTrivia]⟩
  have stands := only_body h.body _ h.fits part significant
  obtain rfl : rule = .primary := by simpa [label, mayStand, isBody, Label.isPart] using stands
  exact absurd isList (by decide)

/-- Calls become calls. -/
theorem lower_call (isCall : rule.isCall) {s : Statement}
    (lowered : (ofRule rule parts).lower = .ok (some s)) : ∃ c, s = .call c := by
  cases rule <;> simp [Rule.isCall] at isCall
  all_goals
    rw [ofRule, lower, ← ofRule, map_eq_ok] at lowered
    obtain ⟨c, -, same⟩ := lowered
    exact ⟨c, (Option.some.inj same).symm⟩

/-- What a call is lowered to is written as its text. -/
theorem render_call (isCall : rule.isCall) {s : Statement}
    (lowered : (ofRule rule parts).lower = .ok (some s)) :
    s.render .source = (ofRule rule parts).callText := by
  obtain ⟨c, rfl⟩ := lower_call isCall lowered
  rw [callText, lowered]
  rfl

/-- Of the tokens in lists, commas and question marks bring a blank. -/
theorem spaced_some {kind : TokenKind} (notNew : kind ≠ .kwNew) :
    some kind = some TokenKind.comma ∨ some kind = some TokenKind.question ↔
      spaced (some kind) := by
  cases kind <;> first | exact absurd rfl notNew | decide

/-- A node that is one unit. -/
theorem spelled_unit {text : String} (whole : (ofRule rule parts).pieces = [.unit none text])
    (rendered : ∀ s, (ofRule rule parts).lower = .ok (some s) → s.render .source = text) :
    (ofRule rule parts).Spelled := by
  refine ⟨⟨_, _, [], whole⟩, ⟨[], _, _, whole, ?_⟩, fun s lowered => ?_⟩
  · simp [spaced, tokenKind?, ofRule, Label.tokenKind?]
  · rw [rendered s lowered, whole, Piece.spell_unit, Piece.blankBehind_nil]
    simp [spell, ownBlank, spaced, tokenKind?, ofRule, Label.tokenKind?]

theorem piecesAll_append (xs ys : List Tree) :
    piecesAll (xs ++ ys) = piecesAll xs ++ piecesAll ys := by
  induction xs with
  | nil => rfl
  | cons x xs ih => simp [piecesAll, ih]

/-- A list of nodes with their units is one with its units. -/
theorem Readable.spelled_list (h : (ofRule rule parts).Readable) (isList : rule.isList)
    (below : ∀ part ∈ parts, part.isTrivia = false → part.Spelled)
    (sparse : Sparse (lexemesAll parts)) : (ofRule rule parts).Spelled := by
  obtain ⟨first, rest, begins, significant⟩ := h.flanks.1
  obtain ⟨init, last, ends, sigLast, notSpaced⟩ := h.last_not_spaced isList
  obtain ⟨kind, text, behind, opens⟩ := (below first (by simp [begins]) significant).opened
  obtain ⟨front, kind', text', closes, own⟩ := (below last (by simp [ends]) sigLast).closed
  have opened : piecesAll parts = .unit kind text :: (behind ++ piecesAll rest) := by
    rw [begins, piecesAll, opens, List.cons_append]
  have none : spaced (ofRule rule parts).tokenKind? = false := rfl
  refine ⟨⟨kind, text, _, (pieces_list isList).trans opened⟩,
    ⟨piecesAll init ++ front, kind', text', ?_, ?_⟩, fun s lowered => ?_⟩
  · rw [pieces_list isList, ends, piecesAll_append, piecesAll, closes]
    simp [piecesAll]
  · rw [own, none]
    exact iff_of_false (by simpa [spaced] using notSpaced) (by simp)
  · obtain ⟨ps, inner, isComposite, children⟩ := lower_list isList lowered
    have tidy : ∀ part ∈ parts, part.Tidy := fun part member => (h.below part member).tidy
    have lowers : ∀ part ∈ parts, ∃ s, part.lower = .ok (some s) := fun part member =>
      (tidy part member).lower_ok (h.below part member).met (h.isPart_of_mem isList part member)
    have lasts : ∀ part ∈ parts.getLast?, part.isTrivia = false ∧
        spaced part.tokenKind? = false := by
      rw [ends, List.getLast?_concat]
      rintro _ ⟨⟩
      exact ⟨sigLast, notSpaced⟩
    have written := @renderAll_spelled parts tidy lowers below lasts sparse Option.none
      (fun _ => rfl) Option.none (by simp [spaced]) ps inner
    rw [opened, Piece.blankBehind_unit] at written
    rw [Statement.render_of_isComposite isComposite, children, pieces_list isList, opened]
    simpa [ownBlank, none, show spaced Option.none = false from rfl] using written

/-- **A node is written as its units.** -/
theorem Readable.spelled {t : Tree} (h : t.Readable) (isPart : t.label.isPart) :
    Sparse t.lexemes → t.isTrivia = false → t.label ≠ .token .kwNew → t.Spelled := by
  refine Readable.induct ?token ?kept ?call ?only ?list h isPart
  case token =>
    intro tok readable sparse significant notNew
    have whole : (leaf tok).pieces = [.unit tok.kind tok.text] := by
      rw [pieces_leaf, if_neg (by simpa using significant)]
    refine ⟨⟨_, _, [], whole⟩, ⟨[], _, _, whole, ?_⟩, fun s lowered => ?_⟩
    · exact spaced_some fun new => notNew (congrArg Label.token new)
    · rw [lower_leaf readable.body] at lowered
      obtain rfl : _ = s := by simpa using lowered
      have written : (leaf tok).tokenKind? = some tok.kind := rfl
      have plain : tok.isTrivia = false := significant
      rw [← String.toList_inj, whole, Statement.render, Rendering.source, toList_write, written]
      cases isSpaced : spaced (some tok.kind) <;>
        simp [spell, Piece.blankBehind_nil, ownBlank, trailing, isSpaced, plain]
  case kept =>
    intro rule parts keepsText readable _ _ _
    refine spelled_unit (pieces_kept keepsText) fun s lowered => ?_
    cases rule <;> simp [Rule.keepsText] at keepsText
    all_goals
      rw [ofRule, lower, ← ofRule] at lowered
      obtain rfl : _ = s := by simpa using lowered
      rfl
  case call =>
    intro rule parts isCall readable _ _ _
    exact spelled_unit (pieces_call isCall) fun s lowered => render_call isCall lowered
  case only =>
    intro rule part givesWay readable isPart significant notSpaced ih sparse _ _
    have notNew : part.label ≠ .token .kwNew := by
      rintro label
      simp [tokenKind?, label, Label.tokenKind?] at notSpaced
      exact absurd notSpaced (by decide)
    have below := ih (by simpa using sparse) significant notNew
    have none : spaced (ofRule rule [part]).tokenKind? = false := rfl
    have notSpaced : spaced part.tokenKind? = false := notSpaced
    have same : (ofRule rule [part]).pieces = part.pieces := pieces_only givesWay
    refine ⟨same ▸ below.opened, ?_, fun s lowered => ?_⟩
    · simpa only [same, none, notSpaced] using below.closed
    · rw [lower_only givesWay significant] at lowered
      rw [same, ownBlank, none, ← notSpaced]
      exact below.rendered s lowered
  case list =>
    intro rule parts isList readable ih sparse _ _
    rw [lexemes_ofRule] at sparse
    refine readable.spelled_list isList (fun part member significant => ?_) sparse
    obtain ⟨left, right, rfl⟩ := List.append_of_mem member
    rw [lexemesAll_append, lexemesAll_cons] at sparse
    exact ih part member sparse.append.2.append.1 significant
      (readable.not_new isList part member)

end Tree

/-! ## Scripts -/

namespace Parsed

open QuestScript.Tree (ofRule callText)
open Piece (spell)

/-- **Every statement of a script in order is written as its units**, with one blank between two
of them if the first is a comma or a question mark or trivia stood between them, and none
otherwise.  The unit of a call is the text of what the call is lowered to. -/
theorem sourceText_spelled {limit : Nat} {text : String} (ok : (ofText limit text).isOk) :
    (∀ node ∈ (ofText limit text).root.nodes, node.label.isStatement →
      ∃ s, node.lowerStatement = .ok s ∧ node.lower = .ok (some s) ∧
        s.sourceText = spell node.pieces) ∧
    ∀ node ∈ (ofText limit text).root.nodes, node.isCall →
      ∃ c, node.lower = .ok (some (.call c)) ∧ node.callText = c.text := by
  refine ⟨fun node member isStatement => ?_, fun node member isCall => ?_⟩
  · obtain ⟨rule, label⟩ : ∃ rule, node.label = .rule rule := by
      cases label : node.label <;> simp_all [Label.isStatement]
    have isPart := Tree.isPart_of_isStatement isStatement
    obtain ⟨parts, rest, rfl, readable, row⟩ :=
      readable_of_mem ok member label (label ▸ isPart)
    have spelled := readable.spelled isPart (by simpa using row.sparse) rfl (by simp [label])
    obtain ⟨s, lowered⟩ := readable.tidy.lowerStatement_ok readable.met isStatement
    have whole : (ofRule rule parts).lower = .ok (some s) := by
      rw [Tree.lower_of_isStatement isStatement, lowered]
      rfl
    exact ⟨s, lowered, whole, (spelled.rendered s whole).trans String.append_empty⟩
  · obtain ⟨rule, label, isRule⟩ : ∃ rule, node.label = .rule rule ∧ rule.isCall := by
      cases label : node.label <;> simp_all [Tree.isCall]
    have isPart : (Label.rule rule).isPart := by
      cases rule <;> simp [Rule.isCall] at isRule <;> rfl
    obtain ⟨parts, rest, rfl, readable, -⟩ := readable_of_mem ok member label isPart
    obtain ⟨s, lowered⟩ := readable.tidy.lower_ok readable.met isPart
    obtain ⟨c, rfl⟩ := Tree.lower_call isRule lowered
    exact ⟨c, lowered, by rw [callText, lowered]⟩

/-- A declaration with a comma, and a branch with calls and comments. -/
theorem sourceText_spelled_branch :
    let text := "process p \x7b A a = f( b ) ,c; if (a /* d */ >b? x.g( 2 ) :c) \x7b e(); \x7d \x7d"
    (ofText 8 text).isOk ∧
      (∀ node ∈ (ofText 8 text).root.nodes, node.label.isStatement →
        ∃ s, node.lowerStatement = .ok s ∧ node.lower = .ok (some s) ∧
          s.sourceText = spell node.pieces) ∧
      ∀ node ∈ (ofText 8 text).root.nodes, node.isCall →
        ∃ c, node.lower = .ok (some (.call c)) ∧ node.callText = c.text := by
  intro text
  have ok : (ofText 8 text).isOk := by decide +kernel
  exact ⟨ok, sourceText_spelled ok⟩

end Parsed

end QuestScript
