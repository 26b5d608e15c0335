/-
# QuestScript.Proofs.Leaves -- the leaves of a tree as lexemes

The leaves of a tree, without places, are the lexemes that its text is made of.  Those that
are not trivia are known from the tree without trivia (`Tree.words_lexemes`), and a row
that begins and ends with tokens is known from its tokens and from what it is the
beginning of (`Lexeme.Flanked.eq_of_append`).  The nodes of a tree are such rows
(`Tree.Tidy.flanked`), so a tree can be taken apart along its text: where some nodes say
what a row says, and the rest of them what follows it, the first of them is the node
whose row it is (`Tree.split_part`).
-/
import QuestScript.Proofs.Agreement
import QuestScript.Proofs.Lossless
import QuestScript.Proofs.Rewriting

namespace QuestScript

set_option autoImplicit false

namespace Lexeme

variable {as bs xs ys ls ms : List Lexeme}

/-- The lexemes that are not trivia. -/
def words (ls : List Lexeme) : List Lexeme := ls.filter fun l => !l.isTrivia

@[simp] theorem isTrivia_lexeme (t : Token) : t.lexeme.isTrivia = t.isTrivia := rfl

@[simp] theorem isTrivia_blank : blank.isTrivia = true := rfl

@[simp] theorem words_nil : words [] = [] := rfl

@[simp] theorem words_append (ls ms : List Lexeme) : words (ls ++ ms) = words ls ++ words ms :=
  List.filter_append ..

@[simp] theorem words_cons (l : Lexeme) (ls : List Lexeme) :
    words (l :: ls) = if l.isTrivia then words ls else l :: words ls := by
  cases h : l.isTrivia <;> simp [words, h]

@[simp] theorem words_gap (cs : List Char) : words (gap cs) = [] := by
  unfold gap
  split <;> simp [isTrivia, TokenKind.isTrivia]

@[simp] theorem words_trimmed (ls : List Lexeme) : words (trimmed ls) = words ls := by
  have front : words (trimFront ls) = words ls := by
    cases ls with
    | nil => rfl
    | cons l ls =>
        rw [trimFront]
        split <;> simp_all
  have back (ms : List Lexeme) : words (trimBack ms) = words ms := by
    rcases List.eq_nil_or_concat' ms with rfl | ⟨init, last, rfl⟩
    · rfl
    · rw [trimBack_concat]
      split <;> simp_all
  rw [trimmed, back, front]

/-- The lexemes begin and end with tokens. -/
def Flanked (ls : List Lexeme) : Prop :=
  (∃ first rest, ls = first :: rest ∧ first.isTrivia = false) ∧
    ∃ init last, ls = init ++ [last] ∧ last.isTrivia = false

theorem Flanked.append (has : Flanked as) (hbs : Flanked bs) (mid : List Lexeme) :
    Flanked (as ++ (mid ++ bs)) := by
  obtain ⟨⟨first, more, begins, sigFirst⟩, -⟩ := has
  obtain ⟨-, init, last, ends, sigLast⟩ := hbs
  exact ⟨⟨first, more ++ (mid ++ bs), by rw [begins, List.cons_append], sigFirst⟩,
    as ++ (mid ++ init), last, by simp [ends], sigLast⟩

theorem flanked_singleton {l : Lexeme} (significant : l.isTrivia = false) : Flanked [l] :=
  ⟨⟨l, [], rfl, significant⟩, [], l, rfl, significant⟩

theorem eq_nil_of_words {init : List Lexeme} {last : Lexeme} (whole : bs = init ++ [last])
    (significant : last.isTrivia = false) (split : bs = as ++ xs) (same : words as = words bs) :
    xs = [] := by
  have none : words xs = [] := by
    rw [split, words_append] at same
    simpa using same
  rcases List.eq_nil_or_concat' xs with rfl | ⟨front, x, rfl⟩
  · rfl
  · rw [whole, ← List.append_assoc] at split
    obtain rfl : last = x := by simpa using (List.append_inj' split rfl).2
    simp [words, significant] at none

/-- Two beginnings of a row that end with tokens are equal if they have the same tokens. -/
theorem Flanked.eq_of_append (has : Flanked as) (hbs : Flanked bs) (same : words as = words bs)
    (h : as ++ xs = bs ++ ys) : as = bs ∧ xs = ys := by
  obtain ⟨-, init, last, wholeA, sigA⟩ := has
  obtain ⟨-, init', last', wholeB, sigB⟩ := hbs
  rcases List.append_eq_append_iff.mp h with ⟨zs, split, rest⟩ | ⟨zs, split, rest⟩
  · obtain rfl := eq_nil_of_words wholeB sigB split same
    exact ⟨by simpa using split.symm, by simpa using rest⟩
  · obtain rfl := eq_nil_of_words wholeA sigA split same.symm
    exact ⟨by simpa using split, by simpa using rest.symm⟩

/-- Two ends of a row that begin with tokens are equal if they have the same tokens. -/
theorem Flanked.eq_of_append_right (hxs : Flanked xs) (hys : Flanked ys) (same : words xs = words ys)
    (h : as ++ xs = bs ++ ys) : xs = ys := by
  have cut {xs ys zs : List Lexeme} (begins : ∃ first rest, xs = first :: rest ∧
      first.isTrivia = false) (split : xs = zs ++ ys) (same : words xs = words ys) : xs = ys := by
    obtain ⟨first, rest, whole, significant⟩ := begins
    have none : words zs = [] := by
      rw [split, words_append] at same
      simpa using same
    cases zs with
    | nil => exact split
    | cons z zs =>
        rw [whole, List.cons_append, List.cons.injEq] at split
        simp [← split.1, significant] at none
  rcases List.append_eq_append_iff.mp h with ⟨zs, -, rest⟩ | ⟨zs, -, rest⟩
  · exact cut hxs.1 rest same
  · exact (cut hys.1 rest same.symm).symm

end Lexeme

namespace Tree

open Lexeme (Flanked words)

/-! ## Trees -/

/-- The lexemes at the leaves, left to right. -/
def lexemes (t : Tree) : List Lexeme := t.tokens.map Token.lexeme

/-- The lexemes of several nodes, one behind the other. -/
def lexemesAll (ts : List Tree) : List Lexeme := (tokensAll ts).map Token.lexeme

@[simp] theorem lexemesAll_nil : lexemesAll [] = [] := rfl

@[simp] theorem lexemesAll_cons (t : Tree) (ts : List Tree) :
    lexemesAll (t :: ts) = t.lexemes ++ lexemesAll ts := by
  simp [lexemesAll, tokensAll, lexemes]

@[simp] theorem lexemesAll_append (ts us : List Tree) :
    lexemesAll (ts ++ us) = lexemesAll ts ++ lexemesAll us := by
  simp [lexemesAll, tokensAll_append]

@[simp] theorem lexemes_leaf (t : Token) : (leaf t).lexemes = [t.lexeme] := by
  simp [lexemes]

@[simp] theorem lexemes_ofRule (rule : Rule) (parts : List Tree) :
    (ofRule rule parts).lexemes = lexemesAll parts := by
  simp [lexemes, lexemesAll]

theorem mem_lexemesAll {l : Lexeme} {ts : List Tree} :
    l ∈ lexemesAll ts ↔ ∃ t ∈ ts, l ∈ t.lexemes := by
  induction ts with
  | nil => simp
  | cons t ts ih => simp [ih]

mutual

/-- The tokens of a tree are those of the tree without trivia. -/
theorem words_lexemes : (t : Tree) →
    words t.lexemes = if t.isTrivia then [] else t.bare.lexemes
  | ⟨.token kind, span, children, text⟩ => by
      cases trivia : kind.isTrivia <;>
        simp [lexemes, tokens, bare, isTrivia, tokenKind?, Label.tokenKind?, trivia, words,
          Token.lexeme, Lexeme.isTrivia]
  | ⟨.rule rule, span, children, text⟩ => by
      have below : words (lexemesAll children) = lexemesAll (bareAll children) :=
        words_lexemesAll children
      rw [if_neg (by simp [isTrivia, tokenKind?, Label.tokenKind?])]
      exact below

theorem words_lexemesAll : (ts : List Tree) → words (lexemesAll ts) = lexemesAll (bareAll ts)
  | [] => rfl
  | t :: ts => by
      rw [lexemesAll_cons, Lexeme.words_append, words_lexemes t, words_lexemesAll ts, bareAll]
      split <;> simp

end

/-- Trees that are equal without trivia have the same tokens. -/
theorem words_eq_of_bare {t u : Tree} (h : t.bare = u.bare) : words t.lexemes = words u.lexemes := by
  have label : t.label = u.label := by
    have labels := congrArg Tree.label h
    obtain ⟨_, _, _, _⟩ := t
    obtain ⟨_, _, _, _⟩ := u
    exact labels
  have trivia : t.isTrivia = u.isTrivia := by simp only [isTrivia, tokenKind?, label]
  rw [words_lexemes, words_lexemes, h, trivia]

/-! ## Rows of nodes -/

theorem lexemesAll_flanked {parts : List Tree} (opened : Opened parts) (closed : Closed parts)
    (h : ∀ part ∈ parts, part.isTrivia = false → Flanked part.lexemes) :
    Flanked (lexemesAll parts) := by
  obtain ⟨first, rest, whole, sigFirst⟩ := opened
  obtain ⟨init, last, whole', sigLast⟩ := closed
  refine ⟨?_, ?_⟩
  · obtain ⟨l, ls, row, significant⟩ := (h first (by simp [whole]) sigFirst).1
    exact ⟨l, ls ++ lexemesAll rest, by rw [whole, lexemesAll_cons, row, List.cons_append],
      significant⟩
  · obtain ⟨ls, l, row, significant⟩ := (h last (by simp [whole']) sigLast).2
    exact ⟨lexemesAll init ++ ls, l, by simp [whole', row], significant⟩

/-- A node that is not trivia begins and ends with tokens. -/
theorem Tidy.flanked {t : Tree} (h : t.Tidy) (faultless : t.Faultless)
    (significant : t.isTrivia = false) : Flanked t.lexemes := by
  induction h with
  | leaf t =>
      rw [lexemes_leaf]
      exact Lexeme.flanked_singleton significant
  | node rule parts _ flanked ih =>
      obtain ⟨notError, below⟩ := faultless_ofRule.mp faultless
      obtain ⟨opened, closed⟩ := flanked notError
      rw [lexemes_ofRule]
      exact lexemesAll_flanked opened closed fun part member => ih part member (below part member)

theorem Tidy.eq_leaf {t : Tree} (h : t.Tidy) (token : t.isToken) : ∃ tok, t = Tree.leaf tok := by
  cases h with
  | leaf t => exact ⟨t, rfl⟩
  | node rule parts => simp [isToken, tokenKind?, ofRule, Label.tokenKind?] at token

theorem isToken_of_isTrivia {t : Tree} (h : t.isTrivia) : t.isToken := by
  unfold isTrivia at h
  unfold isToken
  cases kind : t.tokenKind? <;> simp_all

/-- The trees are tidy and hold no skipped tokens. -/
def Sound (ds : List Tree) : Prop := ∀ d ∈ ds, d.Tidy ∧ d.Faultless

theorem sound_cons {d : Tree} {ds : List Tree} :
    Sound (d :: ds) ↔ (d.Tidy ∧ d.Faultless) ∧ Sound ds := List.forall_mem_cons

theorem bareAll_cons {t : Tree} (significant : t.isTrivia = false) (ts : List Tree) :
    bareAll (t :: ts) = t.bare :: bareAll ts := by
  simp [bareAll, significant]

theorem bareAll_gap {gap : List Tree} (h : ∀ g ∈ gap, g.isTrivia) (ts : List Tree) :
    bareAll (gap ++ ts) = bareAll ts := by
  induction gap with
  | nil => rfl
  | cons g gap ih =>
      obtain ⟨first, others⟩ := List.forall_mem_cons.mp h
      rw [List.cons_append, bareAll, if_pos first, ih others]

section Split

variable {ds : List Tree} {ls rest : List Lexeme} {bs : List Tree}

/-- Nodes that begin with trivia begin with the leaf of it. -/
theorem split_gap (sound : Sound ds) {l : Lexeme} (trivia : l.isTrivia)
    (row : lexemesAll ds = l :: rest) :
    ∃ tok ds', ds = leaf tok :: ds' ∧ tok.isTrivia ∧ Sound ds' ∧ bareAll ds' = bareAll ds ∧
      lexemesAll ds' = rest := by
  cases ds with
  | nil => simp at row
  | cons d ds =>
      obtain ⟨⟨tidy, faultless⟩, soundRest⟩ := sound_cons.mp sound
      rw [lexemesAll_cons] at row
      by_cases gap : d.isTrivia
      · obtain ⟨tok, rfl⟩ := tidy.eq_leaf (isToken_of_isTrivia gap)
        rw [lexemes_leaf, List.singleton_append, List.cons.injEq] at row
        exact ⟨tok, ds, rfl, gap, soundRest, by rw [bareAll, if_pos gap], row.2⟩
      · obtain ⟨⟨first, more, begins, significant⟩, -⟩ :=
          tidy.flanked faultless (by simpa using gap)
        rw [begins, List.cons_append, List.cons.injEq] at row
        rw [row.1, trivia] at significant
        cases significant

/-- Nodes that begin with the row of a node begin with that node. -/
theorem split_part (sound : Sound ds) {c : Tree} (flanked : Flanked ls)
    (same : words ls = words c.lexemes) (bare : bareAll ds = c.bare :: bs)
    (row : lexemesAll ds = ls ++ rest) :
    ∃ d ds', ds = d :: ds' ∧ (d.Tidy ∧ d.Faultless) ∧ d.bare = c.bare ∧ d.lexemes = ls ∧
      d.isTrivia = false ∧ Sound ds' ∧ bareAll ds' = bs ∧ lexemesAll ds' = rest := by
  cases ds with
  | nil => simp at bare
  | cons d ds =>
      obtain ⟨⟨tidy, faultless⟩, soundRest⟩ := sound_cons.mp sound
      rw [lexemesAll_cons] at row
      by_cases gap : d.isTrivia
      · obtain ⟨tok, rfl⟩ := tidy.eq_leaf (isToken_of_isTrivia gap)
        obtain ⟨⟨first, more, begins, sigFirst⟩, -⟩ := flanked
        rw [lexemes_leaf, List.singleton_append, begins, List.cons_append, List.cons.injEq] at row
        rw [← row.1] at sigFirst
        exact absurd (show tok.lexeme.isTrivia = true from gap) (by simp [sigFirst])
      · have significant : d.isTrivia = false := by simpa using gap
        rw [bareAll_cons significant, List.cons.injEq] at bare
        obtain ⟨whole, behind⟩ := (tidy.flanked faultless significant).eq_of_append flanked
          ((words_eq_of_bare bare.1).trans same.symm) row
        exact ⟨d, ds, rfl, ⟨tidy, faultless⟩, bare.1, whole, significant, soundRest, bare.2, behind⟩

/-- Nodes that say nothing are none. -/
theorem Sound.eq_nil (sound : Sound ds) (none : lexemesAll ds = []) : ds = [] := by
  cases ds with
  | nil => rfl
  | cons d ds =>
      obtain ⟨⟨tidy, faultless⟩, -⟩ := sound_cons.mp sound
      rw [lexemesAll_cons, List.append_eq_nil_iff] at none
      by_cases trivia : d.isTrivia
      · obtain ⟨tok, rfl⟩ := tidy.eq_leaf (isToken_of_isTrivia trivia)
        simp at none
      · obtain ⟨⟨first, more, begins, -⟩, -⟩ := tidy.flanked faultless (by simpa using trivia)
        simp [begins] at none

end Split

end Tree

/-! ## Tokens that are read -/

namespace Parsed

open Grammar (Form wording afterTrivia)
open Lexeme (words)
open QuestScript.Tree (lexemesAll)

variable {limit : Nat} {ts : List Token}

theorem wording_eq_words (ts : List Token) : wording ts = words (ts.map Token.lexeme) := by
  rw [words, List.filter_map]
  rfl

/-- Where nothing is reported, the tokens read are the leaves added. -/
theorem lexemes_read {f : Form} (productive : f.productive) {frame parts : List Tree}
    {rest : List Token} (done : f.readAt limit frame ts = .done (frame ++ parts) rest []) :
    ts.map Token.lexeme = lexemesAll parts ++ rest.map Token.lexeme := by
  have conserved := Form.readAt_conserves productive limit frame ts
  rw [done] at conserved
  obtain ⟨taken, added, rfl, leaves, -, all⟩ := conserved
  rw [Tree.tokensAll_append, all rfl] at leaves
  rw [List.map_append, ← List.append_cancel_left leaves, lexemesAll]

theorem afterTrivia_of_begins
    (begins : ∃ first more, ts.map Token.lexeme = first :: more ∧ first.isTrivia = false) :
    afterTrivia ts = ts := by
  obtain ⟨first, more, row, significant⟩ := begins
  cases ts with
  | nil => rfl
  | cons t ts =>
      obtain ⟨rfl, -⟩ := List.cons.inj row
      exact List.dropWhile_cons_of_neg (by simpa using significant)

end Parsed

end QuestScript
