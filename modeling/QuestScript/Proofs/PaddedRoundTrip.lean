/-
# QuestScript.Proofs.PaddedRoundTrip -- a body rendered with padding and parsed again

Rendered with padding, the body of a process without comments is again such a body, with the
same tokens (`Parsed.Reads.padded`).  It is rendered to itself only if blanks stood around all
padded tokens of the body before: around the others the blanks of the first rendering are read
as trivia, which the second keeps beside the blanks of its own (`Parsed.printed_ternary`).  From
the second rendering on nothing changes (`Parsed.padded_settles`).
-/
import QuestScript.Proofs.Settled

namespace QuestScript

open Text (isBlank trim)

set_option autoImplicit false

/-! ## Bodies without comments -/

namespace Lexeme

variable {ls ms : List Lexeme} {cs : List Char}

/-- All trivia among the lexemes is blanks. -/
def Uncommented (ls : List Lexeme) : Prop := ∀ l ∈ ls, l.isTrivia → ∀ c ∈ l.text.toList, isBlank c

instance : DecidablePred Uncommented := fun ls =>
  decidable_of_iff (ls.all fun l => !l.isTrivia || l.text.toList.all isBlank) <| by
    simp [Uncommented, Bool.or_eq_true, Decidable.or_iff_not_imp_left]

theorem uncommented_append : Uncommented (ls ++ ms) ↔ Uncommented ls ∧ Uncommented ms :=
  List.forall_mem_append

theorem uncommented_cons {l : Lexeme} : Uncommented (l :: ls) ↔
    (l.isTrivia → ∀ c ∈ l.text.toList, isBlank c) ∧ Uncommented ls := List.forall_mem_cons

theorem Uncommented.mono (h : Uncommented ls) (within : ms ⊆ ls) : Uncommented ms :=
  fun l member => h l (within member)

theorem uncommented_singleton {l : Lexeme} (significant : l.isTrivia = false) :
    Uncommented [l] := by
  simp [Uncommented, significant]

theorem uncommented_gap (h : ∀ c ∈ cs, isBlank c) : Uncommented (gap cs) := by
  unfold gap
  split
  · simp [Uncommented]
  · simpa [Uncommented] using fun _ => h

theorem uncommented_spaces (n : Nat) : Uncommented (spaces n) :=
  uncommented_gap fun c member => by
    rw [List.eq_of_mem_replicate member]
    decide

theorem Uncommented.trimFront (h : Uncommented ls) : Uncommented (trimFront ls) := by
  cases ls with
  | nil => exact h
  | cons l ls =>
      obtain ⟨first, others⟩ := List.forall_mem_cons.mp h
      rw [Lexeme.trimFront]
      split
      · rename_i trivia
        refine uncommented_append.mpr ⟨uncommented_gap fun c member => ?_, others⟩
        exact first trivia c ((List.dropWhile_sublist _).subset member)
      · exact h

theorem Uncommented.trimmed (h : Uncommented ls) : Uncommented (trimmed ls) := by
  have front := h.trimFront
  rw [Lexeme.trimmed]
  rcases List.eq_nil_or_concat' (Lexeme.trimFront ls) with none | ⟨init, last, whole⟩
  · rw [none]
    exact front.mono (by simp [trimBack])
  · rw [whole] at front ⊢
    rw [trimBack_concat]
    split
    · rename_i trivia
      obtain ⟨others, end'⟩ := uncommented_append.mp front
      refine uncommented_append.mpr ⟨others, uncommented_gap fun c member => ?_⟩
      exact end' last (by simp) trivia c ((List.rdropWhile_prefix _ _).subset member)
    · exact front

/-- A process has no comments where its body has none. -/
theorem uncommented_framed (h : Uncommented ls) : Uncommented (heading ++ braced ls) := by
  have front : Uncommented (frontGap ls) := by
    refine uncommented_gap ?_
    split <;> simp [show isBlank '\n' = true by decide]
  have back : Uncommented (backGap ls) := by
    refine uncommented_gap ?_
    split <;> simp [show isBlank '\n' = true by decide]
  have heading : Uncommented heading := by decide
  refine uncommented_append.mpr ⟨heading, ?_⟩
  rw [braced, uncommented_cons, uncommented_append, uncommented_append, uncommented_append]
  exact ⟨by simp [openBrace, isTrivia, TokenKind.isTrivia], front, h, back,
    uncommented_singleton rfl⟩

end Lexeme

namespace Tree

open Lexeme (Row Uncommented uncommented_append)

variable {parts stmts : List Tree} {rest : List Char}

theorem uncommented_of_mem (h : Uncommented (lexemesAll parts)) {part : Tree}
    (member : part ∈ parts) : Uncommented part.lexemes :=
  h.mono fun _ inPart => mem_lexemesAll.mpr ⟨part, member, inPart⟩

theorem uncommented_paddedAll (h : ∀ part ∈ parts, Uncommented part.padded)
    (previous : Option TokenKind) (trivia : Bool) :
    Uncommented (paddedAll previous trivia parts) := by
  induction parts generalizing previous trivia with
  | nil => simp [paddedAll, Uncommented]
  | cons part parts ih =>
      obtain ⟨first, others⟩ := List.forall_mem_cons.mp h
      rw [paddedAll]
      split
      · exact ih others _ _
      · exact uncommented_append.mpr ⟨Lexeme.uncommented_spaces _,
          uncommented_append.mpr ⟨first, ih others _ _⟩⟩

theorem Invocation.uncommented {call : Invocation} (h : Uncommented (lexemesAll call.children)) :
    Uncommented call.written := by
  rw [lexemes_children, ArgumentList.lexemes_node, Lexeme.uncommented_cons, uncommented_append,
    Lexeme.uncommented_cons, uncommented_append] at h
  obtain ⟨name, -, opening, inner, closing⟩ := h
  rw [written, ArgumentList.written, Lexeme.uncommented_cons, Lexeme.uncommented_cons,
    uncommented_append]
  exact ⟨name, opening, inner.trimmed, closing⟩

/-- No comments are written where there are none. -/
theorem Legible.uncommented {t : Tree} (h : t.Legible) (isPart : t.label.isPart) :
    Uncommented t.lexemes → Uncommented t.padded := by
  refine Legible.induct ?token ?kept ?function ?method ?only ?list h isPart
  case token =>
    intro tok _ plain
    rwa [padded_leaf, ← lexemes_leaf]
  case kept =>
    intro rule parts keepsText _ plain
    rwa [padded_kept keepsText, ← lexemes_ofRule rule]
  case function =>
    intro call _ plain
    rw [Invocation.node, lexemes_ofRule] at plain
    rw [call.padded_node]
    exact Invocation.uncommented plain
  case method =>
    intro m _ plain
    rw [MemberCall.node, lexemes_ofRule, MemberCall.lexemes_children, uncommented_append,
      uncommented_append, Lexeme.uncommented_cons, uncommented_append] at plain
    obtain ⟨receiver, -, dot, -, call⟩ := plain
    rw [m.padded_node, MemberCall.written, uncommented_append, Lexeme.uncommented_cons]
    exact ⟨receiver, dot, Invocation.uncommented call⟩
  case only =>
    intro rule part givesWay _ _ _ _ ih plain
    rw [padded_only givesWay]
    exact uncommented_paddedAll (by simpa using ih (by simpa using plain)) none false
  case list =>
    intro rule parts isList _ ih plain
    rw [lexemes_ofRule] at plain
    rw [padded_list isList]
    exact uncommented_paddedAll
      (fun part member => ih part member (uncommented_of_mem plain member)) none false

/-- The trivia before the last child is blanks where all trivia is. -/
theorem Tidy.closingTrivia {t : Tree} (h : t.Tidy) (plain : Uncommented t.lexemes) :
    ∀ c ∈ t.closingTrivia, isBlank c := by
  cases h with
  | leaf t => simp [Tree.closingTrivia, Tree.leaf]
  | node rule parts tidy _ =>
      rw [lexemes_ofRule] at plain
      rw [Tree.closingTrivia]
      cases last : (ofRule rule parts).children.dropLast.getLast? with
      | none => simp
      | some child =>
          have member : child ∈ parts :=
            List.mem_of_mem_dropLast (List.mem_of_getLast? last)
          dsimp only
          split
          · rename_i trivia
            obtain ⟨tok, rfl⟩ := (tidy child member).eq_leaf (isToken_of_isTrivia trivia)
            rw [(Tidy.leaf tok).textOf_lexemes, lexemes_leaf]
            simpa using uncommented_of_mem plain member tok.lexeme (by simp) trivia
          · simp

/-- Where all trivia is blanks, no line comment is at the end of arguments. -/
theorem Tidy.clear {t : Tree} (h : t.Tidy) (plain : Uncommented t.lexemes) : t.Clear := by
  induction h with
  | leaf t =>
      intro call member isCall
      obtain rfl : call = Tree.leaf t := by simpa [nodes] using member
      cases isCall
  | node rule parts tidy _ ih =>
      rw [lexemes_ofRule] at plain
      intro call member isCall
      rw [nodes_ofRule, List.mem_cons] at member
      rcases member with rfl | member
      · intro arguments inParts _ comment
        have slash : '/' ∈ arguments.closingTrivia := comment.subset (by simp)
        have plainArguments := uncommented_of_mem plain inParts
        have blank := (tidy arguments inParts).closingTrivia plainArguments _ slash
        exact absurd blank (by decide)
      · obtain ⟨part, inParts, inside⟩ := mem_nodesAll.mp member
        exact ih part inParts (uncommented_of_mem plain inParts) call inside isCall

theorem Standing.uncommented (h : Standing stmts) (plain : ∀ s ∈ stmts, Uncommented s.lexemes) :
    Uncommented (paddedStatements stmts) := by
  intro l member
  obtain ⟨s, inStmts, inStatement⟩ := List.mem_flatMap.mp member
  exact (h.legible s inStmts).uncommented (isPart_of_isStatement (h.isStatement s inStmts))
    (plain s inStmts) l inStatement

/-- The statements of a block that was written with padding are those that were written. -/
theorem Legible.block_padded {ds : List Tree} (h : (ofRule .block parts).Legible)
    (row : Row (lexemesAll parts) rest) (tidy : (ofRule .block ds).Tidy)
    (faultless : (ofRule .block ds).Faultless)
    (bare : (ofRule .block ds).bare = (ofRule .block parts).bare)
    (written : (ofRule .block ds).lexemes =
      Lexeme.braced (paddedStatements (statements parts))) :
    List.Forall₂ PaddedBack (statements parts) (statements ds) := by
  obtain ⟨opening, closing, opens, closes, whole⟩ := h.braces row
  obtain ⟨ds', same, bareAll, sound⟩ := tidy.ofRule_of_bare faultless bare
  obtain rfl : ds = ds' := congrArg Tree.children same
  rw [lexemes_ofRule, Lexeme.braced, ← opens, ← closes] at written
  exact h.statements_padded row (congrArg Lexeme.kind opens) (congrArg Lexeme.kind closes) whole
    Lexeme.isTrivia_of_mem_gap Lexeme.isTrivia_of_mem_gap sound bareAll written

theorem airyAll_of_plain (plain : ∀ part ∈ parts, isPadded part.tokenKind? = false)
    {previous : Option TokenKind} (plain' : isPadded previous = false) :
    airyAll previous parts ↔ ∀ part ∈ parts, part.airy := by
  induction parts generalizing previous with
  | nil => simp [airyAll]
  | cons part parts ih =>
      simp only [List.forall_mem_cons] at plain
      have apart : loose previous part.tokenKind? = true := by simp [loose, plain.1, plain']
      simp [airyAll, apart, ih plain.2 plain.1]

/-- Blanks stand around the padded tokens of a block if they do in its statements: the block itself
has none. -/
theorem Legible.airy_block (h : (ofRule .block parts).Legible) :
    (ofRule .block parts).airy ↔ ∀ s ∈ statements parts, s.airy := by
  obtain ⟨opening, closing, opens, closes, whole, among⟩ := h.block
  have kinds : ∀ part ∈ parts, part ∈ statements parts ∨
      ∃ tok, part = leaf tok ∧ isPadded (some tok.kind) = false := by
    intro part member
    cases trivia : part.isTrivia with
    | true =>
        obtain ⟨tok, rfl⟩ := (h.below part member).tidy.eq_leaf (isToken_of_isTrivia trivia)
        have kind : tok.kind = .trivia := Lexeme.kind_of_isTrivia (l := tok.lexeme) trivia
        exact .inr ⟨tok, rfl, by rw [kind]; rfl⟩
    | false =>
        have inWhole : part ∈ withoutTrivia parts := List.mem_filter.mpr ⟨member, by simp [trivia]⟩
        rw [whole, List.mem_cons, List.mem_append, List.mem_singleton] at inWhole
        rcases inWhole with rfl | inside | rfl
        · exact .inr ⟨opening, rfl, by rw [opens]; rfl⟩
        · exact .inl inside
        · exact .inr ⟨closing, rfl, by rw [closes]; rfl⟩
  have plain : ∀ part ∈ parts, isPadded part.tokenKind? = false := by
    intro part member
    rcases kinds part member with inside | ⟨tok, rfl, plain⟩
    · have none : part.tokenKind? = none := by
        simpa [isToken] using not_token_of_isStatement (among part inside).2
      rw [none]
      rfl
    · exact plain
  rw [airy_list rfl, airyAll_of_plain plain rfl]
  constructor
  · exact fun airy s inside => airy s (among s inside).1
  · intro airy part member
    rcases kinds part member with inside | ⟨tok, rfl, -⟩
    · exact airy part inside
    · rfl

end Tree

/-! ## Processes -/

namespace Parsed

open Grammar (wording leadingTrivia)
open Lexeme (words heading braced Uncommented)
open QuestScript.Tree (ofRule statements paddedStatements lexemesAll)

variable {limit : Nat} {text : String} {block : Tree} {L : List Statement}

/-- The body of a process is in order; it is the block, which is lowered to the statements. -/
structure Reads (limit : Nat) (text : String) (block : Tree) (L : List Statement) : Prop where
  isOk : (ofProcess limit text).isOk
  found : (ofProcess limit text).firstBlock? = some block
  lowered : block.lowerBlock = .ok L

/-- The lexemes of a process with the body. -/
def lexemesOf (body : String) : List Lexeme := Lexeme.ofText (processText body).toList

/-- A process in order is read again with other trivia in its block. -/
theorem FirstProcess.framed (first : FirstProcess limit (Token.ofText (processText text).toList))
    {again : String} {ls : List Lexeme} (lexed : lexemesOf again = heading ++ braced ls)
    (said : words (braced ls) = words (lexemesAll first.parts)) :
    (ofProcess limit again).isOk ∧
      ∃ second : FirstProcess limit (Token.ofText (processText again).toList),
        (ofRule .block second.parts).bare = (ofRule .block first.parts).bare ∧
          (ofRule .block second.parts).lexemes = braced ls := by
  have lexed : (body (Token.ofText (processText again).toList)).map Token.lexeme =
      heading ++ braced ls := (lexemes_body _).trans lexed
  have same : words (heading ++ braced ls) =
      words (processNode first.front first.parts).lexemes := by
    rw [Lexeme.words_append, said, processNode, Tree.lexemes_ofRule, Tree.lexemesAll_append,
      Lexeme.words_append, first.words_front, Tree.lexemesAll_cons, Tree.lexemes_ofRule,
      Tree.lexemesAll_nil, List.append_nil]
  obtain ⟨ok, second, bareNode, lexemes⟩ := first.again (lexed ▸ Lexeme.flanked_framed ls)
    (by rw [wording_eq_words, lexed, same])
  have bare := block_bare_of_node bareNode
  have whole : lexemesAll (second.front.map Tree.leaf) ++ (ofRule .block second.parts).lexemes =
      heading ++ braced ls := by
    rw [← lexed, ← lexemes]
    simp [processNode]
  refine ⟨ok, second, bare, ?_⟩
  exact (second.tidy_block.flanked second.faultless_block rfl).eq_of_append_right
    (Lexeme.flanked_braced ls) (by rw [Tree.words_eq_of_bare bare, said, Tree.lexemes_ofRule]) whole

/-- The block of a body is that of the first process of the script. -/
theorem Reads.first (h : Reads limit text block L) :
    ∃ first : FirstProcess limit (Token.ofText (processText text).toList),
      block = ofRule .block first.parts := by
  obtain ⟨first⟩ := firstProcess_of_isOk h.isOk
  exact ⟨first, Option.some.inj (h.found.symm.trans first.found)⟩

theorem FirstProcess.uncommented
    (first : FirstProcess limit (Token.ofText (processText text).toList))
    (plain : Uncommented (lexemesOf text)) : Uncommented (ofRule .block first.parts).lexemes := by
  refine plain.mono fun l member => ?_
  have whole : lexemesOf text = (leadingTrivia (body (Token.ofText (processText text).toList))).map
      Token.lexeme ++ ((processNode first.front first.parts).lexemes ++
        first.behind.map Token.lexeme) := by
    rw [← first.lexemes, ← List.map_append, Grammar.leadingTrivia_append_afterTrivia, lexemes_body,
      lexemesOf]
  rw [whole, processNode, Tree.lexemes_ofRule, Tree.lexemesAll_append, Tree.lexemesAll_cons]
  simp only [List.mem_append]
  exact .inr (.inl (.inr (.inl member)))

/-- **A body rendered with padding is a body** with the same tokens, and has blanks around those
that are padded.  If it had them before, it is lowered to the same statements; if not, it is not
even rendered to the same text. -/
theorem Reads.padded (h : Reads limit text block L) (plain : Uncommented (lexemesOf text)) :
    let rendered := Statement.renderAll .padded L
    ∃ again settled, Reads limit rendered again settled ∧ Uncommented (lexemesOf rendered) ∧
      wording again.tokens = wording block.tokens ∧ again.airy ∧ (block.airy → settled = L) ∧
        (Statement.renderAll .padded settled = rendered → block.airy) := by
  intro rendered
  obtain ⟨first, rfl⟩ := h.first
  have legible := first.legible (first.tidy_block.clear (first.uncommented plain))
  obtain ⟨rest, row⟩ := first.row
  have standing := legible.standing row
  have lowered : Tree.lowerStatements (statements first.parts) = .ok L := h.lowered
  let written := paddedStatements (statements first.parts)
  have lexed : lexemesOf rendered = heading ++ braced written :=
    Lexeme.ofText_framed (standing.textOf_padded lowered) standing.row_padded standing.quiet_padded
  have said : words (braced written) = words (lexemesAll first.parts) := by
    rw [Lexeme.words_braced, standing.words_padded, ← Lexeme.words_braced, legible.words_braced row]
  have plain' : Uncommented (lexemesOf rendered) := by
    rw [lexed]
    exact Lexeme.uncommented_framed (standing.uncommented fun s member =>
      Tree.uncommented_of_mem (first.uncommented plain) (List.mem_of_mem_filter member))
  obtain ⟨ok, second, bare, leaves⟩ := first.framed lexed said
  have legible' := second.legible (second.tidy_block.clear (second.uncommented plain'))
  obtain ⟨settled, lowered'⟩ := legible'.tidy.lowerBlock_ok legible'.met
  have backs : List.Forall₂ Tree.PaddedBack (statements first.parts) (statements second.parts) :=
    legible.block_padded row second.tidy_block second.faultless_block bare leaves
  obtain ⟨rest', row'⟩ := second.row
  obtain ⟨settles, -, grows⟩ :=
    standing.settles (legible'.standing row').legible backs lowered lowered'
  refine ⟨_, settled, ⟨ok, second.found, lowered'⟩, plain', ?_, ?_, ?_, fun same => ?_⟩
  · rw [wording_eq_words, wording_eq_words]
    exact Tree.words_eq_of_bare bare
  · exact legible'.airy_block.mpr (standing.airy backs)
  · exact fun airy => settles (legible.airy_block.mp airy)
  · refine legible.airy_block.mpr (grows ?_)
    rw [← Tree.length_renderAll, ← Tree.length_renderAll, same]

/-- A body in order without comments is lowered to statements. -/
theorem reads_of_isOk (ok : (ofProcess limit text).isOk) (plain : Uncommented (lexemesOf text)) :
    ∃ block L, Reads limit text block L := by
  obtain ⟨first⟩ := firstProcess_of_isOk ok
  have legible := first.legible (first.tidy_block.clear (first.uncommented plain))
  obtain ⟨L, lowered⟩ := legible.tidy.lowerBlock_ok legible.met
  exact ⟨_, L, ok, first.found, lowered⟩

/-- **From the second time on, padding changes nothing.**  A body in order without comments,
rendered with padding, is a body in order with the same tokens; rendered with padding again it is
one that is lowered to the same statements, and so rendered to itself.  The first rendering is
rendered to itself just if blanks stand around all padded tokens of the body. -/
theorem padded_settles (limit : Nat) (text : String) (ok : (ofProcess limit text).isOk)
    (plain : Uncommented (lexemesOf text)) :
    ∃ block statements again settled last,
      Reads limit text block statements ∧
      Reads limit (Statement.renderAll .padded statements) again settled ∧
      wording again.tokens = wording block.tokens ∧
      Reads limit (Statement.renderAll .padded settled) last settled ∧
      (block.airy → settled = statements) ∧
      (Statement.renderAll .padded settled = Statement.renderAll .padded statements ↔
        block.airy) := by
  obtain ⟨block, statements, reads⟩ := reads_of_isOk ok plain
  obtain ⟨again, settled, reads', plain', same, airy, stays, grows⟩ := reads.padded plain
  obtain ⟨last, settled', reads'', -, -, -, staysAgain, -⟩ := reads'.padded plain'
  obtain rfl := staysAgain airy
  exact ⟨block, statements, again, settled', last, reads, reads', same, reads'', stays, grows,
    fun airy => by rw [stays airy]⟩

/-- A body with two colons, one of them between blanks. -/
theorem padded_settles_loop :
    let text := "for (T t : ts) \x7b x = a?b:c; \x7d"
    (ofProcess 8 text).isOk ∧ Uncommented (lexemesOf text) ∧
      ∃ block statements again settled last,
        Reads 8 text block statements ∧
        Reads 8 (Statement.renderAll .padded statements) again settled ∧
        wording again.tokens = wording block.tokens ∧
        Reads 8 (Statement.renderAll .padded settled) last settled ∧
        (block.airy → settled = statements) ∧
        (Statement.renderAll .padded settled = Statement.renderAll .padded statements ↔
          block.airy) := by
  intro text
  have ok : (ofProcess 8 text).isOk := by decide +kernel
  have plain : Uncommented (lexemesOf text) := by decide +kernel
  exact ⟨ok, plain, padded_settles 8 text ok plain⟩

/-- The body of a process, rendered with padding, if there is one. -/
def printed? (limit : Nat) (text : String) : Option String :=
  (ofProcess limit text).firstBlock?.bind fun block =>
    (block.lowerBlock.map (Statement.renderAll .padded)).toOption

/-- **A body rendered with padding may change when it is rendered again**: the blanks of the first
time are kept beside those of the second. -/
theorem printed_ternary :
    let text := "x = a?b:c;"
    let rendered := "x = a? b : c;"
    (ofProcess 8 text).isOk ∧ Uncommented (lexemesOf text) ∧ printed? 8 text = some rendered ∧
      (ofProcess 8 rendered).isOk ∧ printed? 8 rendered = some "x = a? b  :  c;" ∧
        printed? 8 rendered ≠ some rendered := by
  decide +kernel

end Parsed

end QuestScript
