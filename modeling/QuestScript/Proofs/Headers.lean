/-
# QuestScript.Proofs.Headers -- the name in a header

A header names a business between back quotes.  The name is what stands between them, without
blanks at its ends (`Tree.HeaderNames`).  Inside it blanks and comments are one blank; a comma,
a question mark and `new` have one behind them whether or not anything stands there, and every
other token stands as it is written (`Tree.ReadsName`).

`Tree.Item.headerNames` says that lowering finds this name.  It lowers the tokens one by one and
writes them one behind the other, and the induction follows it; what it must know of the token
before is whether a gap behind that is dropped (`Tree.keptBehind`).
-/
import QuestScript.Proofs.Rendered
import QuestScript.Proofs.Verdict

namespace QuestScript.Tree

open Grammar (production tok tokOf isNameToken mem_single mem_single_mul)
open scoped Computability

set_option autoImplicit false

/-! ## Names -/

/-- The tokens that have a blank behind them in a name. -/
def BringsBlank (word : Tree) : Prop :=
  word.label = .token .comma ∨ word.label = .token .question ∨ word.label = .token .kwNew

/-- The text that tokens are in a name. -/
inductive ReadsName : List Tree → String → Prop
  | nil : ReadsName [] ""
  | gap {gap : Tree} {rest : List Tree} {text : String} (isGap : gap.isTrivia)
      (others : ReadsName rest text) : ReadsName (gap :: rest) (" " ++ text)
  | word {word : Tree} {rest : List Tree} {text : String} (isWord : word.isTrivia = false)
      (plain : ¬ word.BringsBlank) (others : ReadsName rest text) :
      ReadsName (word :: rest) (word.ownText ++ text)
  | parted {word : Tree} {rest : List Tree} {text : String} (brings : word.BringsBlank)
      (close : ∀ next ∈ rest.head?, next.isTrivia = false) (others : ReadsName rest text) :
      ReadsName (word :: rest) (word.ownText ++ (" " ++ text))
  | partedGap {word gap : Tree} {rest : List Tree} {text : String} (brings : word.BringsBlank)
      (isGap : gap.isTrivia) (others : ReadsName rest text) :
      ReadsName (word :: gap :: rest) (word.ownText ++ (" " ++ text))

/-- The header names the business: the name is what stands between the back quotes, without
blanks at its ends. -/
def HeaderNames (header : Tree) (business : String) : Prop :=
  ∃ name ∈ header.children, name.label = .rule .businessName ∧
    ∃ opening inner closing text, name.children = opening :: (inner ++ [closing]) ∧
      opening.label = .token .backquote ∧ closing.label = .token .backquote ∧
      (∀ t ∈ inner, t.label ≠ .token .backquote) ∧
      ReadsName inner text ∧ business = Text.trimmed text

/-! ## Lowering the tokens of a name -/

variable {previous : Option TokenKind} {inner rest : List Tree} {parts : List Sourced}

/-- What is kept of some tokens behind one that may have its own blank. -/
def keptBehind (previous : Option TokenKind) : List Tree → List Tree
  | [] => []
  | child :: rest => if isDropped previous child then rest else child :: rest

theorem keptBehind_of_not_spaced (plain : spaced previous = false) (rest : List Tree) :
    keptBehind previous rest = rest := by
  have any : previous.any TokenKind.endsInSpace = false := plain
  cases rest <;> simp [keptBehind, isDropped, any]

theorem bringsBlank_iff {t : Token} :
    (leaf t).BringsBlank ↔ t.kind.endsInSpace := by
  obtain ⟨kind, span, text⟩ := t
  cases kind <;> simp [BringsBlank, leaf, TokenKind.endsInSpace, Spacing.ofKind]

theorem write_eq (kind : TokenKind) (text : String) :
    kind.write false text = if kind.endsInSpace then text ++ " " else text := by
  cases kind <;> rfl

/-- A word is lowered to itself. -/
theorem lower_word {t : Token} (isWord : t.isTrivia = false) (notQuote : t.kind ≠ .backquote) :
    (leaf t).lower = .ok (some (.token t.kind t.text)) := by
  obtain ⟨kind, span, text⟩ := t
  cases kind <;> first | rfl | exact absurd rfl notQuote | cases isWord

/-- Behind a word, what is read of the rest is read of the word and the rest. -/
theorem ReadsName.of_word {t : Token} {text : String} (isWord : t.isTrivia = false)
    (others : ReadsName (keptBehind t.kind rest) text) :
    ReadsName (leaf t :: rest) (t.kind.write false t.text ++ text) := by
  rw [write_eq]
  by_cases brings : t.kind.endsInSpace
  · rw [if_pos brings, String.append_assoc]
    have blank := bringsBlank_iff.mpr brings
    cases rest with
    | nil => exact .parted blank (by simp) others
    | cons next rest =>
        by_cases gap : next.isTrivia
        · rw [keptBehind, isDropped, gap, Option.any_some, brings, Bool.and_true, if_pos rfl]
            at others
          exact .partedGap blank gap others
        · rw [keptBehind, isDropped, Bool.eq_false_iff.mpr gap, Bool.false_and, if_neg (by decide)]
            at others
          exact .parted blank (by simpa using gap) others
  · rw [keptBehind_of_not_spaced (by simpa [spaced] using brings)] at others
    rw [if_neg brings]
    exact .word isWord (mt bringsBlank_iff.mp brings) others

/-- The tokens of a name are written as the name has them. -/
theorem readsName_of_lower {closing : Tree} (quote : closing.label = .token .backquote)
    (leaves : ∀ part ∈ inner, ∃ t, part = leaf t ∧ t.kind ≠ .backquote)
    (lowered : lowerChildren previous (inner ++ [closing]) = .ok parts) :
    ReadsName (keptBehind previous inner) (Statement.renderAll .content (parts.map Prod.snd)) := by
  induction inner generalizing previous parts with
  | nil =>
      obtain ⟨label, span, children, own⟩ := closing
      obtain rfl : label = .token .backquote := quote
      obtain rfl : [] = parts := Except.ok.inj lowered
      exact .nil
  | cons part inner ih =>
      obtain ⟨⟨t, rfl, notQuote⟩, others⟩ := List.forall_mem_cons.mp leaves
      rw [List.cons_append, lowerChildren_cons] at lowered
      split at lowered
      · rename_i dropped
        have trivia : (leaf t).isTrivia := (Bool.and_eq_true _ _ ▸ dropped).1
        have read := ih others lowered
        rw [keptBehind_of_not_spaced (not_spaced_of_isTrivia trivia)] at read
        rwa [keptBehind, if_pos dropped]
      · rename_i kept
        obtain ⟨first, later, isFirst, isLater, rfl⟩ := lowered
        have read := ih others isLater
        rw [keptBehind, if_neg kept]
        by_cases trivia : t.isTrivia
        · obtain rfl : first = some (.token .trivia " ") := by
            simpa [(Tidy.leaf t).lower_trivia trivia] using isFirst.symm
          rw [keptBehind_of_not_spaced (not_spaced_of_isTrivia (t := leaf t) trivia)] at read
          exact .gap trivia read
        · obtain rfl : first = some (.token t.kind t.text) := by
            simpa [lower_word (by simpa using trivia) notQuote] using isFirst.symm
          exact .of_word (by simpa using trivia) read

/-! ## Headers -/

/-- The tokens between the quotes of a name. -/
theorem split_businessName {parts : List Tree} (tidy : (ofRule .businessName parts).Tidy)
    (fits : withoutTrivia parts ∈ production .businessName) :
    ∃ opening inner closing, parts = opening :: (inner ++ [closing]) ∧
      opening.label = .token .backquote ∧ closing.label = .token .backquote ∧
      ∀ part ∈ inner, ∃ t, part = leaf t ∧ t.kind ≠ .backquote := by
  obtain ⟨each, flanked⟩ := tidy_ofRule.mp tidy
  obtain ⟨opened, closed⟩ := flanked (by decide)
  have tokens : Grammar.Only (fun label => ∃ kind, label = .token kind ∧ kind ≠ .backquote)
      (tokOf isNameToken * (tokOf isNameToken)∗) := by
    have one : Grammar.Only (fun label => ∃ kind, label = .token kind ∧ kind ≠ .backquote)
        (tokOf isNameToken) := Grammar.only_tokOf fun kind admitted =>
      ⟨kind, rfl, by rintro rfl; exact absurd admitted (by decide)⟩
    exact Grammar.only_mul one (Grammar.only_kstar one)
  simp only [production, tok] at fits
  obtain ⟨_, ⟨_, ⟨opening, rfl, isOpening⟩, words, inWords, rfl⟩, _, ⟨closing, rfl, isClosing⟩,
    whole⟩ := fits
  have row : withoutTrivia parts = opening :: (words ++ [closing]) := by simpa using whole.symm
  obtain ⟨rest, rfl, behind⟩ := opened.eq_cons row
  have goesOn : rest ≠ [] := by
    rintro rfl
    simp [withoutTrivia] at behind
  obtain ⟨inner, rfl, inside⟩ := (closed.tail goesOn).eq_concat behind
  refine ⟨opening, inner, closing, rfl, isOpening, isClosing, fun part member => ?_⟩
  have tidyPart := each part (by simp [member])
  by_cases trivia : part.isTrivia
  · obtain ⟨t, rfl⟩ := tidyPart.eq_leaf (isToken_of_isTrivia trivia)
    refine ⟨t, rfl, fun quote => ?_⟩
    simp [isTrivia, tokenKind?, leaf, Label.tokenKind?, quote, TokenKind.isTrivia] at trivia
  · obtain ⟨kind, label, notQuote⟩ := tokens words inWords part
      (inside ▸ List.mem_filter.mpr ⟨member, by simpa using trivia⟩)
    obtain ⟨t, rfl⟩ := tidyPart.eq_leaf (by simp [isToken, tokenKind?, label, Label.tokenKind?])
    exact ⟨t, rfl, Label.token.inj label ▸ notQuote⟩

/-- The name that lowering finds in a header is the one between its back quotes. -/
theorem Item.headerNames {header : Tree} (h : header.Item)
    (label : header.label = .rule .businessHeader) {business : String}
    (named : header.businessName = .ok business) : header.HeaderNames business := by
  obtain ⟨-, sound⟩ := h.fits label
  cases found : header.findRule? .businessName with
  | none => simp [businessName, found] at named
  | some name =>
      have member : name ∈ header.children := List.mem_of_find?_eq_some found
      have isName : name.label = .rule .businessName := by simpa using List.find?_some found
      obtain ⟨tidy, met⟩ := sound name member
      obtain ⟨parts, rfl⟩ := tidy.eq_ofRule isName
      obtain ⟨opening, inner, closing, rfl, isOpening, isClosing, leaves⟩ :=
        split_businessName tidy (Grammar.Contract.met_ofRule.mp met).1
      simp only [businessName, found, lowerAll, map_eq_ok] at named
      obtain ⟨_, ⟨ps, lowered, rfl⟩, rfl⟩ := named
      -- The quote that opens the name leaves nothing, and no blank is dropped behind it.
      have within : lowerChildren (some .backquote) (inner ++ [closing]) = .ok ps := by
        obtain ⟨kind, span, children, own⟩ := opening
        obtain rfl : kind = .token .backquote := isOpening
        rw [ofRule, lowerChildren_cons, if_neg (by simp [isDropped])] at lowered
        obtain ⟨first, others, isFirst, isOthers, rfl⟩ := lowered
        obtain rfl : first = none := by simpa [lower] using isFirst.symm
        exact isOthers
      have read := readsName_of_lower isClosing leaves within
      rw [keptBehind_of_not_spaced rfl] at read
      refine ⟨_, member, isName, opening, inner, closing, _, rfl, isOpening, isClosing,
        fun part among quote => ?_, read, rfl⟩
      obtain ⟨t, rfl, notQuote⟩ := leaves part among
      exact notQuote (Label.token.inj quote)

end QuestScript.Tree
