/-
# QuestScript.Proofs.Restoring -- a node that is read back is lowered to the same statement

A tree that says what a legible node is written as, and is the same but for trivia and
places, is lowered to the same statement (`Legible.restores`).  For the two differ in their
trivia alone, and of trivia a statement keeps no more than that there was some.
-/
import QuestScript.Proofs.Rendered

namespace QuestScript

open Text (trim)

set_option autoImplicit false

namespace Tree

open Lexeme (Row textOf trimmed blank Flanked words)

variable {u : Tree} {rule : Rule} {parts ds : List Tree} {rest : List Char}

/-! ## Trees that are the same but for trivia -/

theorem label_bare (t : Tree) : t.bare.label = t.label := by
  obtain ⟨label, span, children, text⟩ := t
  rfl

theorem label_eq_of_bare {t u : Tree} (h : u.bare = t.bare) : u.label = t.label := by
  rw [← label_bare u, h, label_bare]

theorem Tidy.leaf_of_bare (h : u.Tidy) {tok : Token} (same : u.bare = (Tree.leaf tok).bare) :
    ∃ tok', u = Tree.leaf tok' ∧ tok'.lexeme = tok.lexeme := by
  obtain ⟨tok', rfl⟩ := h.eq_leaf (by
    simp [isToken, tokenKind?, label_eq_of_bare same, Tree.leaf, Label.tokenKind?])
  refine ⟨tok', rfl, ?_⟩
  have parts : tok'.kind = tok.kind ∧ tok'.text = tok.text := by
    simpa [Tree.leaf, bare] using same
  rw [Token.lexeme, parts.1, parts.2, Token.lexeme]

theorem Tidy.ofRule_of_bare (h : u.Tidy) (faultless : u.Faultless)
    (same : u.bare = (ofRule rule parts).bare) :
    ∃ ds, u = ofRule rule ds ∧ bareAll ds = bareAll parts ∧ Sound ds := by
  have label := label_eq_of_bare same
  cases h with
  | leaf t => simp [Tree.leaf, ofRule] at label
  | node rule' ds tidy flanked =>
      obtain rfl : rule' = rule := by simpa [ofRule] using label
      refine ⟨ds, rfl, ?_, fun d member =>
        ⟨tidy d member, (faultless_ofRule.mp faultless).2 d member⟩⟩
      simpa [ofRule, bare] using same

theorem fullText_eq_of_lexemes {t : Tree} (ht : t.Tidy) (hu : u.Tidy)
    (same : u.lexemes = t.lexemes) : u.fullText = t.fullText := by
  rw [← String.toList_inj, hu.textOf_lexemes, ht.textOf_lexemes, same]

/-- A token among nodes that are read back. -/
theorem split_token {tok : Token} (significant : tok.isTrivia = false) {bs : List Tree}
    {ls : List Lexeme} (sound : Sound ds) (same : bareAll ds = (leaf tok).bare :: bs)
    (written : lexemesAll ds = tok.lexeme :: ls) :
    ∃ again ds', ds = leaf again :: ds' ∧ again.lexeme = tok.lexeme ∧ Sound ds' ∧
      bareAll ds' = bs ∧ lexemesAll ds' = ls := by
  have flanked : Flanked [tok.lexeme] := Lexeme.flanked_singleton significant
  obtain ⟨d, ds', rfl, ⟨tidy, -⟩, bare, -, -, soundRest, others, behind⟩ :=
    split_part sound flanked (by rw [lexemes_leaf]) same written
  obtain ⟨again, rfl, lexeme⟩ := tidy.leaf_of_bare bare
  exact ⟨again, ds', rfl, lexeme, soundRest, others, behind⟩

/-- `u` was read where `t` was written. -/
structure ReadBack (t u : Tree) : Prop where
  tidy : u.Tidy
  faultless : u.Faultless
  bare : u.bare = t.bare
  lexemes : u.lexemes = t.written

/-! ## Calls -/

/-- Arguments that are read back. -/
theorem ArgumentList.split (args : ArgumentList) (row : Row args.node.lexemes rest)
    (sound : Sound ds) (same : bareAll ds = [args.node.bare])
    (written : lexemesAll ds = args.written) :
    ∃ again, ds = [again] ∧ again.label = .rule .arguments ∧
      again.fullText.toList = '(' :: (trim args.text ++ [')']) := by
  obtain ⟨again, others, rfl, ⟨tidy, -⟩, bare, lexemes, -, soundRest, -, none⟩ :=
    split_part sound args.flanked_written args.words_written same
      (written.trans (List.append_nil _).symm)
  obtain rfl := soundRest.eq_nil none
  refine ⟨again, rfl, label_eq_of_bare bare, ?_⟩
  rw [tidy.textOf_lexemes, lexemes, (args.texts row).2]

namespace Invocation

variable {call : Invocation}

theorem bareAll_children :
    bareAll call.children = [(leaf call.name).bare, call.arguments.node.bare] := by
  rw [children, bareAll_cons call.significant, bareAll_gap call.trivia,
    bareAll_cons call.arguments.significant, bareAll_nil]

/-- A name with arguments that is read back. -/
theorem split (row : Row (lexemesAll call.children) rest) (sound : Sound ds)
    (same : bareAll ds = bareAll call.children) (written : lexemesAll ds = call.written) :
    ∃ name again, ds = [leaf name, again] ∧ name.lexeme = call.name.lexeme ∧
      again.label = .rule .arguments ∧
        again.fullText.toList = '(' :: (trim call.arguments.text ++ [')']) := by
  rw [bareAll_children] at same
  obtain ⟨name, ds', rfl, lexeme, soundRest, bare, behind⟩ :=
    split_token call.significant sound same written
  obtain ⟨again, rfl, label, text⟩ :=
    call.arguments.split (row_arguments row) soundRest bare behind
  exact ⟨name, again, rfl, lexeme, label, text⟩

theorem restores (row : Row (lexemesAll call.children) rest) (sound : Sound ds)
    (same : bareAll ds = bareAll call.children) (written : lexemesAll ds = call.written) :
    (ofRule .functionInvoke ds).lower = call.node.lower := by
  obtain ⟨name, again, rfl, lexeme, label, text⟩ := split row sound same written
  have isName : name.kind = .identifier := (congrArg Lexeme.kind lexeme).trans call.isName
  have sameName : name.text = call.name.text := congrArg Lexeme.text lexeme
  have noGap : ∀ g ∈ ([] : List Tree), g.isTrivia := by simp
  have lowered := functionCall_eq isName noGap label text
  rw [sameName, Text.trim_trim, List.nil_append] at lowered
  rw [lowered, lower_node row]

theorem restores_node (row : Row (lexemesAll call.children) rest) (again : ReadBack call.node u) :
    u.lower = call.node.lower := by
  have leaves := again.lexemes
  obtain ⟨ds, rfl, bare, sound⟩ := again.tidy.ofRule_of_bare again.faultless again.bare
  rw [lexemes_ofRule, call.written_node] at leaves
  exact restores row sound bare leaves

end Invocation

theorem MemberCall.restores {m : MemberCall} (row : Row (lexemesAll m.children) rest)
    (sound : Sound ds) (same : bareAll ds = bareAll m.children)
    (written : lexemesAll ds = m.written) : (ofRule .methodInvoke ds).lower = m.node.lower := by
  rw [children, bareAll_cons m.significant_receiver, bareAll_gap m.triviaBefore,
    bareAll_cons m.significant_dot, bareAll_gap m.triviaBehind] at same
  obtain ⟨receiver, ds', rfl, ⟨tidy, -⟩, bare, leaves, -, sound₁, bare₁, written₁⟩ :=
    split_part sound (m.readable.tidy.flanked m.readable.faultless m.significant_receiver) rfl same
      written
  obtain ⟨dot, ds', rfl, lexemeDot, sound₂, bare₂, written₂⟩ :=
    split_token m.significant_dot sound₁ bare₁ written₁
  obtain ⟨name, again, rfl, lexeme, label, text⟩ :=
    Invocation.split (row_call row) sound₂ bare₂ written₂
  have isReceiver : receiver.label.isExpression := by
    rw [label_eq_of_bare bare]
    exact m.isReceiver
  have isDot : dot.kind = .dot := (congrArg Lexeme.kind lexemeDot).trans m.isDot
  have isName : name.kind = .identifier := (congrArg Lexeme.kind lexeme).trans m.call.isName
  have sameName : name.text = m.call.name.text := congrArg Lexeme.text lexeme
  have noGap : ∀ g ∈ ([] : List Tree), g.isTrivia := by simp
  have lowered := methodCall_eq isReceiver isDot isName noGap noGap noGap label text
  rw [sameName, Text.trim_trim, fullText_eq_of_lexemes m.readable.tidy tidy leaves] at lowered
  simp only [List.nil_append] at lowered
  rw [lowered, lower_node row]

theorem MemberCall.restores_node {m : MemberCall} (row : Row (lexemesAll m.children) rest)
    (again : ReadBack m.node u) : u.lower = m.node.lower := by
  have leaves := again.lexemes
  obtain ⟨ds, rfl, bare, sound⟩ := again.tidy.ofRule_of_bare again.faultless again.bare
  rw [lexemes_ofRule, m.written_node] at leaves
  exact MemberCall.restores row sound bare leaves

/-! ## Lists -/

/-- Nodes of a rule are there or not, whatever trivia is. -/
theorem mem_rule_iff {ts : List Tree} {rule : Rule} :
    (∃ t ∈ ts, t.label = .rule rule) ↔ ∃ b ∈ bareAll ts, b.label = .rule rule := by
  induction ts with
  | nil => simp
  | cons t ts ih =>
      by_cases trivia : t.isTrivia
      · have notRule : t.label ≠ .rule rule := by
          intro label
          simp [isTrivia, tokenKind?, label, Label.tokenKind?] at trivia
        rw [bareAll, if_pos trivia, ← ih]
        simp [notRule]
      · rw [bareAll, if_neg trivia, List.exists_mem_cons_iff, List.exists_mem_cons_iff, ih,
          label_bare]

theorem composite?_congr (same : bareAll ds = bareAll parts) :
    (ofRule rule ds).composite? = (ofRule rule parts).composite? := by
  cases rule
  case forInit =>
    have typed (ts : List Tree) : ((ofRule .forInit ts).findRule? .typeRef).isSome ↔
        ∃ b ∈ bareAll ts, b.label = .rule .typeRef := by
      simp only [findRule?, find?, ofRule, List.find?_isSome, decide_eq_true_eq]
      exact mem_rule_iff
    have both : ((ofRule .forInit ds).findRule? .typeRef).isSome =
        ((ofRule .forInit parts).findRule? .typeRef).isSome := by
      rw [Bool.eq_iff_iff, typed, typed, same]
    exact congrArg (fun typed : Bool =>
      some (if typed then CompositeKind.variables else CompositeKind.expression)) both
  all_goals rfl

theorem loopControl_congr {loop other : Tree} {ps : List Sourced} {control : LoopControl}
    (h : loopControl loop ps = .ok control) : loopControl other ps = .ok control := by
  cases binding : placeOf? .forEachBinding ps <;> cases iterable : placeOf? .forIterable ps <;>
    simp_all [loopControl]

/-- What a list becomes depends on what its nodes become, and on whether there is a type. -/
theorem lower_list_congr (isList : rule.isList) {ps : List Sourced}
    (first : lowerChildren none parts = .ok ps) (second : lowerChildren none ds = .ok ps)
    (same : bareAll ds = bareAll parts) {s : Statement}
    (lowered : (ofRule rule parts).lower = .ok (some s)) :
    (ofRule rule ds).lower = .ok (some s) := by
  by_cases loop : rule = .forStatement
  · subst loop
    rw [lower_loop, map_eq_ok, first, Except.bind] at lowered
    rw [lower_loop, map_eq_ok, second, Except.bind]
    obtain ⟨s', whole, isStatement⟩ := lowered
    obtain ⟨control, last, clauses, isLast, notToken, rfl⟩ := loopOf_eq_ok.mp whole
    exact ⟨_, loopOf_eq_ok.mpr ⟨control, last, loopControl_congr clauses, isLast, notToken, rfl⟩,
      isStatement⟩
  · obtain ⟨kind, composite⟩ := composite?_of_isList isList loop parts
    have again := (composite?_congr same).trans composite
    rw [lower_of_composite composite, map_eq_ok] at lowered
    rw [lower_of_composite again, map_eq_ok]
    obtain ⟨ps', inner, isStatement⟩ := lowered
    obtain rfl : ps = ps' := by simpa [ofRule, first] using inner
    exact ⟨ps, second, isStatement⟩

/-- Nodes that are read back become what the nodes became. -/
theorem lowerChildren_restores (legible : ∀ part ∈ parts, part.Legible)
    (isPart : ∀ part ∈ parts, part.label.isPart)
    (h : ∀ part ∈ parts, ∀ u rest, ReadBack part u → Row part.lexemes rest → u.lower = part.lower)
    (previous : Option TokenKind) (row : Row (lexemesAll parts) rest)
    (sound : Sound ds) (same : bareAll ds = bareAll parts)
    (written : lexemesAll ds = writtenAll previous parts) {ps : List Sourced}
    (lowered : lowerChildren previous parts = .ok ps) : lowerChildren previous ds = .ok ps := by
  induction parts generalizing previous ds ps with
  | nil =>
      obtain rfl := sound.eq_nil written
      exact lowered
  | cons part parts ih =>
      simp only [List.forall_mem_cons] at legible isPart h
      rw [lexemesAll_cons, Lexeme.row_append] at row
      have later {ds : List Tree} {ps : List Sourced} (sound : Sound ds)
          (same : bareAll ds = bareAll parts)
          (written : lexemesAll ds = writtenAll part.tokenKind? parts)
          (lowered : lowerChildren part.tokenKind? parts = .ok ps) :
          lowerChildren part.tokenKind? ds = .ok ps :=
        ih legible.2 isPart.2 h.2 part.tokenKind? row.2 sound same written lowered
      cases trivia : part.isTrivia with
      | true =>
          rw [writtenAll, legible.1.tidy.written_trivia trivia] at written
          rw [bareAll, if_pos trivia] at same
          obtain ⟨tok, ds', rfl, isTrivia, soundRest, bare, behind⟩ :=
            split_gap sound Lexeme.isTrivia_blank (by simpa [space, trivia] using written)
          have label : (leaf tok).label = part.label := by
            rw [label_of_isTrivia (t := leaf tok) isTrivia, label_of_isTrivia trivia]
          have kind : (leaf tok).tokenKind? = part.tokenKind? := congrArg Label.tokenKind? label
          have dropped : isDropped previous (leaf tok) = isDropped previous part := by
            rw [isDropped, isDropped, isTrivia_leaf, isTrivia, trivia]
          rw [lowerChildren_cons] at lowered ⊢
          rw [dropped, kind]
          split at lowered
          · rename_i isDropped
            rw [if_pos isDropped]
            exact later soundRest (bare.trans same) behind lowered
          · rename_i kept
            obtain ⟨first, others, hfirst, hothers, rfl⟩ := lowered
            rw [if_neg kept]
            refine ⟨first, others, ?_, later soundRest (bare.trans same) behind hothers, ?_⟩
            · rw [(Tidy.leaf tok).lower_trivia isTrivia, ← hfirst,
                legible.1.tidy.lower_trivia trivia]
            · rw [partOf, partOf, label]
      | false =>
          rw [bareAll_cons trivia] at same
          rw [lowerChildren_cons, if_neg (by simp [isDropped, trivia])] at lowered
          obtain ⟨first, others, hfirst, hothers, rfl⟩ := lowered
          -- Behind the blank, if there is one, the first of the nodes was read for `part`.
          have behind {ds : List Tree} (sound : Sound ds)
              (same : bareAll ds = part.bare :: bareAll parts) (previous : Option TokenKind)
              (written : lexemesAll ds = part.written ++ writtenAll part.tokenKind? parts) :
              lowerChildren previous ds = .ok (partOf part first ++ others) := by
            obtain ⟨d, ds', rfl, ⟨tidy, faultless⟩, bareD, leaves, significant, soundRest, bare,
              rest⟩ := split_part sound (legible.1.flanked_written isPart.1 trivia)
                (legible.1.words_written isPart.1) same written
            have label := label_eq_of_bare bareD
            have kind : d.tokenKind? = part.tokenKind? := congrArg Label.tokenKind? label
            rw [lowerChildren_cons, if_neg (by simp [isDropped, significant]), kind]
            refine ⟨first, others, ?_, later soundRest bare rest hothers, ?_⟩
            · rw [h.1 d _ ⟨tidy, faultless, bareD, leaves⟩ row.1, hfirst]
            · rw [partOf, partOf, label]
          rw [writtenAll] at written
          cases isSpaced : spaced previous with
          | false => exact behind sound same previous (by simpa [space, isSpaced] using written)
          | true =>
              obtain ⟨tok, ds', rfl, isTrivia, soundRest, bare, rest⟩ :=
                split_gap sound Lexeme.isTrivia_blank
                  (by simpa [space, isSpaced, trivia] using written)
              have dropped : isDropped previous (leaf tok) = true := by
                rw [isDropped, isTrivia_leaf, isTrivia, Bool.true_and]
                exact isSpaced
              rw [lowerChildren_cons, if_pos dropped]
              exact behind soundRest (bare.trans same) _ rest

/-- **What is read back is lowered to the same statement.** -/
theorem Legible.restores {t : Tree} (h : t.Legible) (isPart : t.label.isPart) :
    ∀ u rest, ReadBack t u → Row t.lexemes rest → u.lower = t.lower := by
  refine Legible.induct ?token ?kept ?function ?method ?only ?list h isPart
  case token =>
    intro tok legible u rest again row
    obtain ⟨tok', rfl, lexeme⟩ := again.tidy.leaf_of_bare again.bare
    have kind : tok'.kind = tok.kind := congrArg Lexeme.kind lexeme
    have text : tok'.text = tok.text := congrArg Lexeme.text lexeme
    have body : isBody (leaf tok').label := by
      rw [label_eq_of_bare again.bare]
      exact legible.body
    rw [lower_leaf legible.body, lower_leaf body, Token.isTrivia, Token.isTrivia, kind, text]
  case kept =>
    intro rule parts keepsText legible u rest again row
    have leaves := again.lexemes
    obtain ⟨ds, rfl, bare, sound⟩ := again.tidy.ofRule_of_bare again.faultless again.bare
    rw [written_kept keepsText, ← lexemes_ofRule rule] at leaves
    have text := fullText_eq_of_lexemes legible.tidy again.tidy leaves
    cases rule <;> simp [Rule.keepsText] at keepsText
    · exact congrArg (fun text => Except.ok (some (Statement.typeRef text))) text
    · exact congrArg (fun text => Except.ok (some (Statement.primary text))) text
  case function =>
    intro call _ u rest again row
    rw [Invocation.node, lexemes_ofRule] at row
    exact Invocation.restores_node row again
  case method =>
    intro m _ u rest again row
    rw [MemberCall.node, lexemes_ofRule] at row
    exact MemberCall.restores_node row again
  case only =>
    intro rule part givesWay legible partIsPart significant _ ih u rest again row
    have leaves := again.lexemes
    obtain ⟨ds, rfl, bare, sound⟩ := again.tidy.ofRule_of_bare again.faultless again.bare
    rw [lexemes_ofRule, written_only givesWay] at leaves
    rw [bareAll_cons significant, bareAll_nil] at bare
    obtain ⟨d, ds', rfl, ⟨tidy, faultless⟩, same, lexemes, sigD, soundRest, -, none⟩ :=
      split_part sound (legible.flanked_written partIsPart significant)
        (legible.words_written partIsPart) bare (leaves.trans (List.append_nil _).symm)
    obtain rfl := soundRest.eq_nil none
    have inner := ih d rest ⟨tidy, faultless, same, lexemes⟩ (by simpa using row)
    obtain ⟨s, hs⟩ := legible.tidy.lower_ok legible.met partIsPart
    rw [(lower_only givesWay sigD).mpr (inner.trans hs), (lower_only givesWay significant).mpr hs]
  case list =>
    intro rule parts isList legible ih u rest again row
    have leaves := again.lexemes
    obtain ⟨ds, rfl, bare, sound⟩ := again.tidy.ofRule_of_bare again.faultless again.bare
    rw [lexemes_ofRule, written_list isList] at leaves
    rw [lexemes_ofRule] at row
    obtain ⟨s, hs⟩ := legible.tidy.lower_ok legible.met (by
      simp only [Rule.isList, Bool.and_eq_true] at isList
      exact isList.1.1.1)
    obtain ⟨ps, inner, -, -⟩ := lower_list isList hs
    have restored := lowerChildren_restores legible.below (legible.isPart_of_mem isList) ih none row
      sound bare leaves inner
    rw [hs, lower_list_congr isList inner restored bare hs]

end Tree

end QuestScript
