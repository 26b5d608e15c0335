/-
# QuestScript.Proofs.RoundTrip -- the body of a process, rendered and parsed again

The lexer makes of the rendered statements of a body what they are written as, and of the
process around them a fixed row of lexemes (`Lexeme.ofText_framed`).  So the process has the
same tokens as before, is read the same way, and its block is where the statements were
written: it is lowered to the same statements (`Parsed.renderAll_lowerBlock`).

One thing may not stand in the body: a line comment at the end of the arguments of a call
(`Tree.Clear`).  The text of arguments is trimmed when they are lowered, and without the line
end the comment goes on over the parenthesis behind it.
-/
import QuestScript.Proofs.Bodies
import QuestScript.Proofs.Processes

namespace QuestScript

set_option autoImplicit false

/-! ## The script of a process -/

/-- A script of one process with the body. -/
def processText (body : String) : String := "process p \x7b\n" ++ body ++ "\n\x7d"

namespace Lexeme

variable {ls : List Lexeme} {rest : List Char}

/-- The lexemes of a process before its block. -/
def heading : List Lexeme := [⟨.kwProcess, "process"⟩, blank, ⟨.identifier, "p"⟩, blank]

def openBrace : Lexeme := ⟨.lBrace, "\x7b"⟩

def closeBrace : Lexeme := ⟨.rBrace, "\x7d"⟩

/-- The trivia behind the opening brace; if nothing stands in the block, it is all there is. -/
def frontGap (ls : List Lexeme) : List Lexeme := gap (if ls = [] then ['\n', '\n'] else ['\n'])

/-- The trivia before the closing brace. -/
def backGap (ls : List Lexeme) : List Lexeme := gap (if ls = [] then [] else ['\n'])

/-- The lexemes of a block around some others. -/
def braced (ls : List Lexeme) : List Lexeme :=
  openBrace :: (frontGap ls ++ (ls ++ (backGap ls ++ [closeBrace])))

theorem isTrivia_of_mem_gap {cs : List Char} : ∀ l ∈ gap cs, l.isTrivia := by
  unfold gap
  split <;> simp [isTrivia, TokenKind.isTrivia]

theorem textOf_braced (ls : List Lexeme) :
    textOf (braced ls) = "\x7b\n".toList ++ (textOf ls ++ "\n\x7d".toList) := by
  by_cases none : ls = [] <;> simp [braced, frontGap, backGap, openBrace, closeBrace, none]

theorem stands_openBrace (rest : List Char) : openBrace.Stands rest :=
  ⟨'{', [], rfl, rfl⟩

theorem stands_closeBrace (rest : List Char) : closeBrace.Stands rest :=
  ⟨'}', [], rfl, rfl⟩

/-- A process may be written before any block. -/
theorem row_heading (rest : List Char) : Row heading ('{' :: rest) := by
  have keyword (cs : List Char) : (⟨.kwProcess, "process"⟩ : Lexeme).Stands (' ' :: cs) :=
    ⟨'p', "rocess".toList, rfl, rfl⟩
  have name (cs : List Char) : (⟨.identifier, "p"⟩ : Lexeme).Stands (' ' :: cs) :=
    ⟨'p', [], rfl, rfl⟩
  refine ⟨keyword _, stands_blank ?_, name _, stands_blank ?_, trivial⟩
  · exact (name _).quiet rfl
  · exact (stands_openBrace rest).quiet rfl

theorem closed_blanks {cs : List Char} (h : ∀ c ∈ cs, Text.isBlank c) : Closed cs := by
  intro rest
  induction cs with
  | nil => simp
  | cons c cs ih =>
      obtain ⟨blank, blanks⟩ := List.forall_mem_cons.mp h
      rw [List.cons_append, triviaExtent, if_pos blank, ih blanks, List.length_cons]
      omega

/-- Lexemes that stand before anything stand in braces, if they do not begin with trivia. -/
theorem row_braced (row : ∀ new, Row ls new) (begins : ls ≠ [] → ∀ new, Quiet (textOf ls ++ new)) :
    Row (braced ls) [] := by
  have closing : Quiet (textOf [closeBrace] ++ []) := (stands_closeBrace []).quiet rfl
  have front : Row (frontGap ls) (textOf (ls ++ (backGap ls ++ [closeBrace])) ++ []) := by
    refine row_gap (closed_blanks ?_) ?_
    · split <;> simp [show Text.isBlank '\n' = true by decide]
    · by_cases none : ls = []
      · rw [none]
        exact closing
      · simpa using begins none (textOf (backGap ls ++ [closeBrace]))
  have back : Row (backGap ls) (textOf [closeBrace] ++ []) := by
    refine row_gap (closed_blanks ?_) closing
    split <;> simp [show Text.isBlank '\n' = true by decide]
  refine ⟨stands_openBrace _, row_append.mpr ⟨front, row_append.mpr ⟨row _, ?_⟩⟩⟩
  exact row_append.mpr ⟨back, stands_closeBrace _, trivial⟩

/-- The lexemes of a process are the same for any body, up to the opening brace. -/
theorem ofText_processText (body : String) : ∃ behind,
    ofText (processText body).toList = heading ++ openBrace :: behind := by
  have whole : (processText body).toList =
      textOf (heading ++ [openBrace]) ++ ("\n" ++ body ++ "\n\x7d").toList := by
    simp [processText, heading, openBrace, blank]
  have row : Row (heading ++ [openBrace]) ("\n" ++ body ++ "\n\x7d").toList :=
    row_append.mpr ⟨row_heading _, stands_openBrace _, trivial⟩
  rw [whole, row.ofText, List.append_assoc]
  exact ⟨_, rfl⟩

/-- **The lexemes of a process** whose body is written as some lexemes. -/
theorem ofText_framed {body : String} (text : textOf ls = body.toList) (row : ∀ new, Row ls new)
    (begins : ls ≠ [] → ∀ new, Quiet (textOf ls ++ new)) :
    ofText (processText body).toList = heading ++ braced ls := by
  have whole : (processText body).toList = textOf (heading ++ braced ls) := by
    rw [textOf_append, textOf_braced, text]
    simp [processText, heading, blank]
  have row := row_append.mpr ⟨row_heading _, row_braced row begins⟩
  rw [whole, ← List.append_nil (textOf (heading ++ braced ls)), row.ofText, ofText_nil,
    List.append_nil]

theorem flanked_framed (ls : List Lexeme) : Flanked (heading ++ braced ls) :=
  ⟨⟨⟨.kwProcess, "process"⟩, _, rfl, rfl⟩,
    heading ++ openBrace :: (frontGap ls ++ (ls ++ backGap ls)), closeBrace, by simp [braced], rfl⟩

theorem flanked_braced (ls : List Lexeme) : Flanked (braced ls) :=
  ⟨⟨openBrace, _, rfl, rfl⟩, openBrace :: (frontGap ls ++ (ls ++ backGap ls)), closeBrace,
    by simp [braced], rfl⟩

theorem words_braced (ls : List Lexeme) : words (braced ls) = openBrace :: (words ls ++ [closeBrace]) := by
  simp [braced, frontGap, backGap, openBrace, closeBrace, isTrivia, TokenKind.isTrivia]

end Lexeme

/-! ## The first process of a script -/

namespace Parsed

open Grammar (Form wording significant leadingTrivia afterTrivia nextKind)
open Lexeme (words Flanked Row heading)
open QuestScript.Tree (leaf ofRule lexemesAll bareAll)

/-- The node of a process, from the tokens before its block and what stands under the block. -/
def processNode (front : List Token) (parts : List Tree) : Tree :=
  ofRule .processDecl (front.map leaf ++ [ofRule .block parts])

/-- A process at the beginning of a script in order. -/
structure FirstProcess (limit : Nat) (ts : List Token) where
  /-- The tokens before the block of the process. -/
  front : List Token
  /-- What stands under the block. -/
  parts : List Tree
  /-- The tokens behind the process. -/
  behind : List Token
  read : Form.process.readAt limit ((leadingTrivia (body ts)).map leaf) (afterTrivia (body ts)) =
    .done ((leadingTrivia (body ts)).map leaf ++ [processNode front parts]) behind []
  named : (wording front).length = 2
  found : (ofTokens limit ts).firstBlock? = some (ofRule .block parts)
  tidy : (processNode front parts).Tidy
  faultless : (processNode front parts).Faultless
  met : Grammar.shape.Met (processNode front parts)

variable {limit : Nat} {ts us : List Token}

/-- A script in order that begins with `process` has a process at its beginning. -/
theorem firstProcess (ok : (ofTokens limit ts).isOk) (begins : nextKind (body ts) = .kwProcess) :
    Nonempty (FirstProcess limit ts) := by
  obtain ⟨parts, reported, done, whole⟩ := ofTokens_eq limit ts
  obtain rfl : reported = [] := by simpa [isOk, whole] using ok
  obtain ⟨process', behind, read, grown⟩ := Form.script_first done begins
  obtain ⟨front, inner, rfl, named⟩ := Form.process_parts read
  obtain ⟨more, rfl⟩ := grown
  have among : processNode front inner ∈
      (leadingTrivia (body ts)).map leaf ++ [processNode front inner] ++ more := by simp
  refine ⟨⟨front, inner, behind, read, named, ?_, Form.script_tidy done _ among,
    Form.script_faultless done _ among, (Form.script_shaped done).2 _ among⟩⟩
  exact firstBlock?_eq (by
    rw [whole, children_rootOf, List.append_assoc, List.singleton_append])

theorem block_bare_of_node {front front' : List Token} {parts parts' : List Tree}
    (bare : (processNode front parts).bare = (processNode front' parts').bare) :
    (ofRule .block parts).bare = (ofRule .block parts').bare := by
  have children : bareAll (front.map leaf ++ [ofRule .block parts]) =
      bareAll (front'.map leaf ++ [ofRule .block parts']) := congrArg Tree.children bare
  rw [Tree.bareAll_append, Tree.bareAll_append] at children
  exact (List.cons.inj (List.append_inj' children rfl).2).1

theorem FirstProcess.lexemes (first : FirstProcess limit ts) :
    (afterTrivia (body ts)).map Token.lexeme =
      (processNode first.front first.parts).lexemes ++ first.behind.map Token.lexeme := by
  simpa using lexemes_read (by decide) first.read

/-- **The first process is read again** from a script that says just what it says. -/
theorem FirstProcess.again (first : FirstProcess limit ts)
    (flanked : Flanked ((body us).map Token.lexeme))
    (same : wording (body us) = words (processNode first.front first.parts).lexemes) :
    (ofTokens limit us).isOk ∧ ∃ second : FirstProcess limit us,
      (processNode second.front second.parts).bare = (processNode first.front first.parts).bare ∧
        (processNode second.front second.parts).lexemes = (body us).map Token.lexeme := by
  have split : wording (afterTrivia (body ts)) =
      wording (afterTrivia (body us)) ++ wording first.behind := by
    rw [Grammar.wording_afterTrivia (body us), same, wording_eq_words, first.lexemes,
      Lexeme.words_append, wording_eq_words]
  have gaps : bareAll ((leadingTrivia (body ts)).map leaf) =
      bareAll ((leadingTrivia (body us)).map leaf) := by
    rw [Grammar.bareAll_leadingTrivia, Grammar.bareAll_leadingTrivia]
  obtain ⟨frame, rest, read, ended, bare⟩ := Form.process_again first.read split gaps
  obtain ⟨parts, reported, done, whole⟩ := ofTokens_eq limit us
  have ok : (ofTokens limit us).isOk := by
    rw [Form.script_of_process read ended, Grammar.Outcome.done.injEq] at done
    rw [whole, ← done.2.2]
    rfl
  have begins : nextKind (body us) = .kwProcess := by
    simpa using Form.nextKind_of_process read
  obtain ⟨second⟩ := firstProcess ok begins
  have bareNode : (processNode second.front second.parts).bare =
      (processNode first.front first.parts).bare := by
    rw [second.read, Grammar.Outcome.done.injEq] at read
    rw [← read.1, Tree.bareAll_append, Tree.bareAll_append, gaps, List.append_cancel_left_eq] at bare
    exact (List.cons.inj bare).1.symm
  refine ⟨ok, second, bareNode, ?_⟩
  have whole := second.lexemes
  rw [afterTrivia_of_begins flanked.1] at whole
  exact (((second.tidy.flanked second.faultless rfl).eq_of_append flanked
    ((Tree.words_eq_of_bare bareNode).trans (same.symm.trans (wording_eq_words _)))
      (whole.symm.trans (List.append_nil _).symm)).1)

theorem FirstProcess.tidy_block (first : FirstProcess limit ts) :
    (ofRule .block first.parts).Tidy :=
  (Tree.tidy_ofRule.mp first.tidy).1 _ (by simp)

theorem FirstProcess.faultless_block (first : FirstProcess limit ts) :
    (ofRule .block first.parts).Faultless :=
  (Tree.faultless_ofRule.mp first.faultless).2 _ (by simp)

theorem FirstProcess.legible (first : FirstProcess limit ts)
    (clear : (ofRule .block first.parts).Clear) : (ofRule .block first.parts).Legible where
  tidy := first.tidy_block
  faultless := first.faultless_block
  met := (Grammar.Contract.met_ofRule.mp first.met).2 _ (by simp)
  clear := clear
  body := rfl
  closed := by rintro ⟨⟩

/-- The block of the first process stands before what is behind it. -/
theorem FirstProcess.row {cs : List Char} (first : FirstProcess limit (Token.ofText cs)) :
    ∃ rest, Row (lexemesAll first.parts) rest := by
  have row := Lexeme.row_ofText cs
  rw [← lexemes_body, ← Grammar.leadingTrivia_append_afterTrivia (body _), List.map_append,
    first.lexemes, processNode, Tree.lexemes_ofRule, Tree.lexemesAll_append, Tree.lexemesAll_cons,
    Tree.lexemes_ofRule] at row
  simp only [Lexeme.row_append] at row
  exact ⟨_, row.2.1.2.1⟩

/-- What stands before the block of the first process says that it is one. -/
theorem FirstProcess.words_front {text : String}
    (first : FirstProcess limit (Token.ofText (processText text).toList)) :
    words (lexemesAll (first.front.map leaf)) = words heading := by
  obtain ⟨behind, whole⟩ := Lexeme.ofText_processText text
  have said := wording_eq_words (afterTrivia (body (Token.ofText (processText text).toList)))
  rw [first.lexemes, Grammar.wording_afterTrivia, wording_eq_words, lexemes_body, whole, processNode,
    Tree.lexemes_ofRule, Tree.lexemesAll_append, List.append_assoc, Lexeme.words_append,
    Lexeme.words_append] at said
  refine (List.append_inj said.symm ?_).1
  rw [lexemesAll, Tree.tokensAll_leaves, ← wording_eq_words, first.named]
  rfl

end Parsed

namespace Tree

open Lexeme (Row words braced openBrace closeBrace)

variable {parts ds : List Tree} {rest : List Char}

/-- The braces of a block. -/
theorem Legible.braces (h : (ofRule .block parts).Legible) (row : Row (lexemesAll parts) rest) :
    ∃ opening closing : Token, opening.lexeme = openBrace ∧ closing.lexeme = closeBrace ∧
      withoutTrivia parts = leaf opening :: (statements parts ++ [leaf closing]) := by
  obtain ⟨opening, closing, opens, closes, whole, -⟩ := h.block
  have spelling {t : Token} (member : leaf t ∈ withoutTrivia parts) (delimiter : t.kind.isDelimiter) :
      t.text = t.kind.display := by
    have inRow : t.lexeme ∈ lexemesAll parts :=
      mem_lexemesAll.mpr ⟨leaf t, mem_of_withoutTrivia member, by simp⟩
    exact row.delimiter inRow delimiter
  refine ⟨opening, closing, ?_, ?_, whole⟩
  · rw [Token.lexeme, spelling (by simp [whole]) (by rw [opens]; rfl), opens]
    rfl
  · rw [Token.lexeme, spelling (by simp [whole]) (by rw [closes]; rfl), closes]
    rfl

/-- Written in braces, the statements of a block have the tokens of the block. -/
theorem Legible.words_braced (h : (ofRule .block parts).Legible) (row : Row (lexemesAll parts) rest) :
    words (braced (writtenStatements (statements parts))) = words (lexemesAll parts) := by
  obtain ⟨opening, closing, opens, closes, whole⟩ := h.braces row
  rw [Lexeme.words_braced, (h.standing row).words_written, ← words_withoutTrivia parts, whole,
    lexemesAll_cons, lexemesAll_append, lexemesAll_cons, lexemes_leaf, lexemes_leaf, opens, closes,
    Lexeme.words_append, Lexeme.words_append]
  rfl

/-- A block that was written is lowered to what was written. -/
theorem Legible.lowerBlock_again (h : (ofRule .block parts).Legible)
    (row : Row (lexemesAll parts) rest) {again : Tree} (tidy : again.Tidy)
    (faultless : again.Faultless) (bare : again.bare = (ofRule .block parts).bare)
    (written : again.lexemes = braced (writtenStatements (statements parts)))
    {L : List Statement} (lowered : (ofRule .block parts).lowerBlock = .ok L) :
    again.lowerBlock = .ok L := by
  obtain ⟨opening, closing, opens, closes, whole⟩ := h.braces row
  obtain ⟨ds, rfl, same, sound⟩ := tidy.ofRule_of_bare faultless bare
  rw [lexemes_ofRule, braced, ← opens, ← closes] at written
  exact h.statements_restored row (congrArg Lexeme.kind opens) (congrArg Lexeme.kind closes) whole
    Lexeme.isTrivia_of_mem_gap Lexeme.isTrivia_of_mem_gap sound same written lowered

end Tree

namespace Parsed

open Grammar (wording)
open Lexeme (words textOf heading braced)
open QuestScript.Tree (ofRule writtenStatements)

/-- What is read of a script of one process. -/
def ofProcess (limit : Nat) (text : String) : Parsed :=
  ofTokens limit (Token.ofText (processText text).toList)

variable {limit : Nat}

theorem firstProcess_of_isOk {text : String} (ok : (ofProcess limit text).isOk) :
    Nonempty (FirstProcess limit (Token.ofText (processText text).toList)) := by
  obtain ⟨behind, source⟩ := Lexeme.ofText_processText text
  refine firstProcess ok ?_
  rw [Grammar.nextKind_eq_wording, wording_eq_words, lexemes_body, source]
  rfl

/-- **A rendered body is the body.**  If a process is in order, and no line comment stands at the
end of the arguments of a call in it, then so is the process with the rendered statements as its
body; it has the same tokens, but for trivia, and is lowered to the same statements. -/
theorem renderAll_lowerBlock (limit : Nat) (text : String) (ok : (ofProcess limit text).isOk)
    (clear : ∀ block ∈ (ofProcess limit text).firstBlock?, block.Clear) :
    ∃ block statements again,
      (ofProcess limit text).firstBlock? = some block ∧ block.lowerBlock = .ok statements ∧
      let rendered := Statement.renderAll .source statements
      (ofProcess limit rendered).isOk ∧ (ofProcess limit rendered).firstBlock? = some again ∧
        wording again.tokens = wording block.tokens ∧ again.lowerBlock = .ok statements ∧
          again.lowerBlock.map (Statement.renderAll .source) = .ok rendered := by
  obtain ⟨first⟩ := firstProcess_of_isOk ok
  have legible := first.legible (clear _ first.found)
  obtain ⟨rest, row⟩ := first.row
  have standing := legible.standing row
  obtain ⟨statements, lowered⟩ := legible.tidy.lowerBlock_ok legible.met
  -- The rendered process is the heading and the written statements in braces.
  let written := writtenStatements (Tree.statements first.parts)
  have lexed : (body (Token.ofText (processText (Statement.renderAll .source statements)).toList)).map
      Token.lexeme = heading ++ braced written := by
    rw [lexemes_body, Lexeme.ofText_framed (standing.textOf_written lowered) standing.row_written
      standing.quiet_written]
  have said : words (braced written) = words (Tree.lexemesAll first.parts) :=
    legible.words_braced row
  have same : words (heading ++ braced written) =
      words (processNode first.front first.parts).lexemes := by
    rw [Lexeme.words_append, said, processNode, Tree.lexemes_ofRule, Tree.lexemesAll_append,
      Lexeme.words_append, first.words_front, Tree.lexemesAll_cons, Tree.lexemes_ofRule,
      Tree.lexemesAll_nil, List.append_nil]
  obtain ⟨ok', second, bareNode, lexemes⟩ := first.again (lexed ▸ Lexeme.flanked_framed written)
    (by rw [wording_eq_words, lexed, same])
  have bare := block_bare_of_node bareNode
  have whole : Tree.lexemesAll (second.front.map Tree.leaf) ++ (ofRule .block second.parts).lexemes =
      heading ++ braced written := by
    rw [← lexed, ← lexemes]
    simp [processNode]
  have again : (ofRule .block second.parts).lexemes = braced written :=
    (second.tidy_block.flanked second.faultless_block rfl).eq_of_append_right
      (Lexeme.flanked_braced written) (by
        rw [Tree.words_eq_of_bare bare, said, Tree.lexemes_ofRule]) whole
  have restored : (ofRule .block second.parts).lowerBlock = .ok statements :=
    legible.lowerBlock_again row second.tidy_block second.faultless_block bare again lowered
  refine ⟨_, statements, _, first.found, lowered, ok', second.found, ?_, restored, ?_⟩
  · rw [wording_eq_words, wording_eq_words]
    exact Tree.words_eq_of_bare bare
  · rw [restored]
    rfl

/-- A body with comments and calls. -/
theorem renderAll_lowerBlock_calls :
    let text := "n = f( a , /* b */ c );\nif (n>1) \x7b x.g( 2 ); \x7d // end"
    (ofProcess 8 text).isOk ∧ (∀ block ∈ (ofProcess 8 text).firstBlock?, block.Clear) ∧
      ∃ block statements again,
        (ofProcess 8 text).firstBlock? = some block ∧ block.lowerBlock = .ok statements ∧
        let rendered := Statement.renderAll .source statements
        (ofProcess 8 rendered).isOk ∧ (ofProcess 8 rendered).firstBlock? = some again ∧
          wording again.tokens = wording block.tokens ∧ again.lowerBlock = .ok statements ∧
            again.lowerBlock.map (Statement.renderAll .source) = .ok rendered := by
  intro text
  have ok : (ofProcess 8 text).isOk := by decide +kernel
  have clear : ∀ block ∈ (ofProcess 8 text).firstBlock?, block.Clear := by decide +kernel
  exact ⟨ok, clear, renderAll_lowerBlock 8 text ok clear⟩

end Parsed

end QuestScript
