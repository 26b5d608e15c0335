/-
# QuestScript.Proofs.Verdict -- what comes of a script

Whether a script becomes a module is decided by three questions, asked in this order: can
it be read, does it begin with a kind there is, and has each of its items a place in
documents of that kind.  Nothing else can go wrong: `lowerScript_outcome` says of every
result in front of which script it is given.
-/
import QuestScript.Lowering.Registry
import QuestScript.Proofs.Completion
import QuestScript.Proofs.Lowerable

namespace QuestScript

open Grammar (Form shape production isItem mem_single mem_single_mul)
open scoped Computability

set_option autoImplicit false

/-! ## The three questions -/

/-- Documents of the kind have no place for the item. -/
def DocumentKind.isForeign : DocumentKind → Label → Bool
  | .service, .rule .requirementDecl => true
  | .prd, .rule .processDecl | .prd, .rule .functionDecl => true
  | _, _ => false

namespace Tree

/-- The word behind `@kind`, if the script begins with that. -/
def kindWord (root : Tree) : Option String :=
  root.significant.head?.bind fun first =>
    if first.label = .rule .kindDecl then first.significant[1]?.map ownText else none

/-- The first item that documents of the kind have no place for. -/
def misplaced? (root : Tree) (kind : DocumentKind) : Option Tree :=
  root.significant.find? fun item => kind.isForeign item.label

/-! ## Items -/

/-- An item as it is read: a node of a rule for items that is in order through and through. -/
structure Item (t : Tree) : Prop where
  tidy : t.Tidy
  met : shape.Met t
  item : ∃ rule, t.label = .rule rule ∧ isItem rule

/-- What stands under an item. -/
theorem Item.fits {t : Tree} {rule : Rule} (h : t.Item) (label : t.label = .rule rule) :
    withoutTrivia t.children ∈ production rule ∧
      ∀ child ∈ t.children, child.Tidy ∧ shape.Met child := by
  obtain ⟨parts, rfl⟩ := h.tidy.eq_ofRule label
  obtain ⟨fits, met⟩ := Grammar.Contract.met_ofRule.mp h.met
  exact ⟨fits, fun child member => ⟨(tidy_ofRule.mp h.tidy).1 child member, met child member⟩⟩

theorem declaredName_ok {item : Tree}
    (h : ∃ child ∈ item.children, child.label = .token .identifier) :
    ∃ name, item.declaredName = .ok name := by
  obtain ⟨name, found⟩ := find?_ok h
  exact ⟨_, by simp only [declaredName, findToken?, find?, found]; rfl⟩

theorem lowerBody_ok {item : Tree} (sound : ∀ child ∈ item.children, child.Tidy ∧ shape.Met child)
    (h : ∃ child ∈ item.children, child.label = .rule .block) :
    ∃ body, item.lowerBody = .ok body := by
  obtain ⟨block, found⟩ := find?_ok h
  obtain ⟨tidy, met⟩ := sound block (List.mem_of_find?_eq_some found)
  have label : block.label = .rule .block := by simpa using List.find?_some found
  obtain ⟨parts, rfl⟩ := tidy.eq_ofRule label
  obtain ⟨body, hbody⟩ := tidy.lowerBlock_ok met
  exact ⟨body, by simp only [lowerBody, findRule?, find?, found, hbody]⟩

theorem Item.lowerProcess_ok {item : Tree} (h : item.Item)
    (label : item.label = .rule .processDecl) : ∃ p, item.lowerProcess = .ok p := by
  obtain ⟨fits, sound⟩ := h.fits label
  simp only [production, Grammar.tok, Grammar.nodeOf, mul_assoc, mem_single_mul, mem_single] at fits
  obtain ⟨_, _, whole, -, name, _, rfl, isName, block, rfl, isBlock⟩ := fits
  have among : ∀ child ∈ [name, block], child ∈ item.children := fun child member =>
    mem_of_withoutTrivia (by rw [whole]; exact List.mem_cons_of_mem _ member)
  obtain ⟨name', hname⟩ := declaredName_ok ⟨name, among name (by simp), isName⟩
  obtain ⟨body, hbody⟩ := lowerBody_ok sound ⟨block, among block (by simp), isBlock⟩
  exact ⟨_, by rw [lowerProcess, hname, hbody]; rfl⟩

theorem Item.lowerFunction_ok {item : Tree} (h : item.Item)
    (label : item.label = .rule .functionDecl) : ∃ f, item.lowerFunction = .ok f := by
  obtain ⟨fits, sound⟩ := h.fits label
  obtain ⟨front, inFront, _, ⟨block, rfl, isBlock⟩, whole⟩ := Language.mem_mul.mp fits
  simp only [Grammar.tok, mul_assoc, mem_single_mul] at inFront
  obtain ⟨_, _, rfl, -, name, _, rfl, isName, -⟩ := inFront
  have among : ∀ child ∈ [name, block], child ∈ item.children := fun child member =>
    mem_of_withoutTrivia (by rw [← whole]; simp at member ⊢; tauto)
  obtain ⟨name', hname⟩ := declaredName_ok ⟨name, among name (by simp), isName⟩
  obtain ⟨body, hbody⟩ := lowerBody_ok sound ⟨block, among block (by simp), isBlock⟩
  exact ⟨_, by rw [lowerFunction, hname]; simp only [bind, Except.bind, hbody]; rfl⟩

theorem Item.lowerRequirement_ok {item : Tree} (h : item.Item)
    (label : item.label = .rule .requirementDecl) : ∃ r, item.lowerRequirement = .ok r := by
  obtain ⟨fits, -⟩ := h.fits label
  simp only [production, Grammar.tok, mul_assoc, mem_single_mul] at fits
  obtain ⟨_, _, whole, -, name, _, rfl, isName, -⟩ := fits
  obtain ⟨name', hname⟩ := declaredName_ok ⟨name, mem_of_withoutTrivia (by rw [whole]; simp), isName⟩
  exact ⟨_, by rw [lowerRequirement, hname]; rfl⟩

/-- The parts of a business name are tokens, which all can be lowered. -/
theorem Item.businessName_ok {item : Tree} (h : item.Item)
    (label : item.label = .rule .businessHeader) : ∃ name, item.businessName = .ok name := by
  obtain ⟨fits, sound⟩ := h.fits label
  simp only [production, Grammar.tok, Grammar.nodeOf, mul_assoc, mem_single_mul] at fits
  obtain ⟨_, _, whole, -, name, _, rfl, isName, -⟩ := fits
  obtain ⟨found, hfound⟩ := find?_ok ⟨name, mem_of_withoutTrivia (by rw [whole]; simp), isName⟩
  obtain ⟨tidy, met⟩ := sound found (List.mem_of_find?_eq_some hfound)
  obtain ⟨parts, rfl⟩ := tidy.eq_ofRule (by simpa using List.find?_some hfound)
  have fits := (Grammar.Contract.met_ofRule.mp met).1
  have only : Grammar.Only (fun label => label.tokenKind?.isSome) (production .businessName) := by
    refine Grammar.only_mul (Grammar.only_mul (Grammar.only_tok rfl) (Grammar.only_mul ?_
      (Grammar.only_kstar ?_))) (Grammar.only_tok rfl)
    · exact Grammar.only_tokOf fun _ _ => rfl
    · exact Grammar.only_tokOf fun _ _ => rfl
  have each : ∀ part ∈ parts, ∃ r, part.lower = .ok r := by
    intro part member
    have tidyPart := (tidy_ofRule.mp tidy).1 part member
    by_cases trivia : part.isTrivia
    · exact ⟨_, tidyPart.lower_trivia trivia⟩
    · have token := only _ fits part (List.mem_filter.mpr ⟨member, by simpa using trivia⟩)
      cases tidyPart with
      | leaf t =>
          obtain ⟨kind, span, text⟩ := t
          cases kind <;> exact ⟨_, rfl⟩
      | node rule inner => simp [ofRule, Label.tokenKind?] at token
  obtain ⟨lowered, hlowered⟩ := lowerChildren_ok each none
  exact ⟨_, by simp only [businessName, findRule?, find?, hfound, lowerAll, ofRule, hlowered]; rfl⟩

/-! ## Documents -/

/-- An item finds its place in a service, unless services have none for it. -/
theorem Item.addToService_ok {item : Tree} (h : item.Item) (s : Service)
    (place : DocumentKind.service.isForeign item.label = false) :
    ∃ s', addToService s item = .ok s' := by
  obtain ⟨rule, label, isItem⟩ := h.item
  cases rule <;> simp [Grammar.isItem] at isItem
  · exact ⟨_, by rw [addToService, label]⟩
  · obtain ⟨name, hname⟩ := h.businessName_ok label
    exact ⟨_, by simp only [addToService, label, hname]; rfl⟩
  · obtain ⟨p, hp⟩ := h.lowerProcess_ok label
    exact ⟨_, by simp only [addToService, label, hp]; rfl⟩
  · obtain ⟨f, hf⟩ := h.lowerFunction_ok label
    exact ⟨_, by simp only [addToService, label, hf]; rfl⟩
  · simp [label, DocumentKind.isForeign] at place

theorem Item.addToDocument_ok {item : Tree} (h : item.Item) (d : ProductDocument)
    (place : DocumentKind.prd.isForeign item.label = false) :
    ∃ d', addToDocument d item = .ok d' := by
  obtain ⟨rule, label, isItem⟩ := h.item
  cases rule <;> simp [Grammar.isItem] at isItem
  · exact ⟨_, by rw [addToDocument, label]⟩
  · obtain ⟨name, hname⟩ := h.businessName_ok label
    exact ⟨_, by simp only [addToDocument, label, hname]; rfl⟩
  · simp [label, DocumentKind.isForeign] at place
  · simp [label, DocumentKind.isForeign] at place
  · obtain ⟨r, hr⟩ := h.lowerRequirement_ok label
    exact ⟨_, by simp only [addToDocument, label, hr]; rfl⟩

theorem addToService_foreign {item : Tree} (s : Service)
    (foreign : DocumentKind.service.isForeign item.label) :
    addToService s item = .error (.unsupportedNode item.label item.span) := by
  have label : item.label = .rule .requirementDecl := by
    cases label : item.label with
    | token kind => simp [label, DocumentKind.isForeign] at foreign
    | rule rule => cases rule <;> simp_all [DocumentKind.isForeign]
  rw [addToService, label]

theorem addToDocument_foreign {item : Tree} (d : ProductDocument)
    (foreign : DocumentKind.prd.isForeign item.label) :
    addToDocument d item = .error (.unsupportedNode item.label item.span) := by
  have label : item.label = .rule .processDecl ∨ item.label = .rule .functionDecl := by
    cases label : item.label with
    | token kind => simp [label, DocumentKind.isForeign] at foreign
    | rule rule => cases rule <;> simp_all [DocumentKind.isForeign]
  rcases label with label | label <;> rw [addToDocument, label]

/-- Items are added up to the first foreign one, which is what went wrong if there is one. -/
theorem foldlM_items {σ : Type} {add : σ → Tree → Lowered σ} {foreign : Tree → Bool}
    {items : List Tree} (placed : ∀ s, ∀ item ∈ items, foreign item = false →
      ∃ s', add s item = .ok s')
    (refused : ∀ s item, foreign item →
      add s item = .error (.unsupportedNode item.label item.span)) (start : σ) :
    match items.find? foreign with
    | none => ∃ s, items.foldlM add start = .ok s
    | some item => items.foldlM add start = .error (.unsupportedNode item.label item.span) := by
  induction items generalizing start with
  | nil => exact ⟨start, rfl⟩
  | cons item items ih =>
      rw [List.find?_cons, List.foldlM_cons]
      cases isForeign : foreign item with
      | true => rw [refused start item isForeign]; rfl
      | false =>
          obtain ⟨s, hs⟩ := placed start item (by simp) isForeign
          rw [hs]
          exact ih (fun s item member => placed s item (List.mem_cons_of_mem _ member)) s

end Tree

namespace Registry

open QuestScript.Tree (kindWord misplaced? Item)

theorem get?_standard (kind : DocumentKind) : standard.get? kind = some ⟨kind, kind⟩ := by
  rw [standard, get?_register, get?_register]
  cases kind <;> rfl

/-- A script of items becomes a document of a kind, unless one of them is misplaced. -/
theorem run_items {root : Tree} (items : ∀ item ∈ root.significant, item.Item)
    (kind : DocumentKind) :
    match root.misplaced? kind with
    | none => ∃ m, Pipeline.run ⟨kind, kind⟩ root = .ok m ∧ m.kind = kind
    | some item =>
        Pipeline.run ⟨kind, kind⟩ root = .error (.unsupportedNode item.label item.span) := by
  cases kind with
  | service =>
      have fold : match root.misplaced? .service with
          | none => ∃ s, root.lowerService = .ok s
          | some item => root.lowerService = .error (.unsupportedNode item.label item.span) :=
        Tree.foldlM_items (fun s item member => (items item member).addToService_ok s)
          (fun s item => Tree.addToService_foreign s) (.named "")
      cases found : root.misplaced? .service with
      | none =>
          obtain ⟨s, hs⟩ := by simpa only [found] using fold
          exact ⟨.service s, by rw [Pipeline.run, hs]; rfl, rfl⟩
      | some item =>
          have hs := by simpa only [found] using fold
          show Pipeline.run _ root = _
          rw [Pipeline.run, hs]
          rfl
  | prd =>
      have fold : match root.misplaced? .prd with
          | none => ∃ d, root.lowerDocument = .ok d
          | some item => root.lowerDocument = .error (.unsupportedNode item.label item.span) :=
        Tree.foldlM_items (fun d item member => (items item member).addToDocument_ok d)
          (fun d item => Tree.addToDocument_foreign d) (.named "")
      cases found : root.misplaced? .prd with
      | none =>
          obtain ⟨d, hd⟩ := by simpa only [found] using fold
          exact ⟨.prd d, by rw [Pipeline.run, hd]; rfl, rfl⟩
      | some item =>
          have hd := by simpa only [found] using fold
          show Pipeline.run _ root = _
          rw [Pipeline.run, hd]
          rfl

theorem documentKind_eq (root : Tree) :
    root.documentKind =
      match root.kindWord.bind DocumentKind.ofCode? with
      | some kind => .ok kind
      | none => .error (.unrecognizedKind root.kindWord) := by
  unfold Tree.documentKind kindWord
  cases root.significant.head? with
  | none => rfl
  | some first =>
      by_cases declared : first.label = .rule .kindDecl
      · cases word : first.significant[1]? with
        | none => simp [declared, word]
        | some literal =>
            cases kind : DocumentKind.ofCode? literal.ownText <;> simp [declared, word, kind]
      · simp [declared]

theorem ofCode?_eq_some {word : String} {kind : DocumentKind} :
    DocumentKind.ofCode? word = some kind ↔ word = kind.code := by
  constructor
  · intro h
    have code := List.find?_some (p := fun kind : DocumentKind => kind.code == word) h
    exact (beq_iff_eq.mp code).symm
  · rintro rfl
    exact DocumentKind.ofCode?_code kind

theorem code_injective {k l : DocumentKind} (h : k.code = l.code) : k = l := by
  cases k <;> cases l <;> first | rfl | exact absurd h (by decide)

/-- The standard registry, asked for a script of items: the kind, then the places. -/
theorem assemble_items {root : Tree} (items : ∀ item ∈ root.significant, item.Item) :
    (∃ kind, root.kindWord = some kind.code ∧ root.misplaced? kind = none ∧
      ∃ m, standard.assemble root = .ok m ∧ m.kind = kind) ∨
    (∃ kind item, root.kindWord = some kind.code ∧ root.misplaced? kind = some item ∧
      standard.assemble root = .error (.unsupportedNode item.label item.span)) ∨
    (∀ kind : DocumentKind, root.kindWord ≠ some kind.code) ∧
      standard.assemble root = .error (.unrecognizedKind root.kindWord) := by
  have start := documentKind_eq root
  cases kind : root.kindWord.bind DocumentKind.ofCode? with
  | none =>
      rw [kind] at start
      refine .inr (.inr ⟨fun k word => ?_, by simp only [assemble, start]; rfl⟩)
      simp [word, DocumentKind.ofCode?_code] at kind
  | some k =>
      rw [kind] at start
      obtain ⟨word, hword, code⟩ := Option.bind_eq_some_iff.mp kind
      obtain rfl := ofCode?_eq_some.mp code
      have run := run_items items k
      have whole : standard.assemble root = Pipeline.run ⟨k, k⟩ root := by
        simp only [assemble, start, bind, Except.bind, get?_standard]
      cases found : root.misplaced? k with
      | none =>
          rw [found] at run
          obtain ⟨m, hm, made⟩ := run
          exact .inl ⟨k, hword, found, m, whole.trans hm, made⟩
      | some item =>
          rw [found] at run
          exact .inr (.inl ⟨k, item, hword, found, whole.trans run⟩)

end Registry

namespace Parsed

/-- A script in order consists of items. -/
theorem items_of_isOk {limit : Nat} {ts : List Token} (ok : (ofTokens limit ts).isOk) :
    ∀ item ∈ (ofTokens limit ts).root.significant, item.Item := by
  obtain ⟨parts, reported, done, whole⟩ := ofTokens_eq limit ts
  obtain rfl : reported = [] := by simpa [isOk, whole] using ok
  have same : (ofTokens limit ts).root.significant = Tree.withoutTrivia parts := by
    rw [whole]
    cases parts <;> rfl
  obtain ⟨shaped, met⟩ := Form.script_shaped done
  have only : Grammar.Only (fun label => ∃ rule, label = .rule rule ∧ isItem rule)
      (production .script) := Grammar.only_kstar (Grammar.only_single fun _ h => h)
  intro item member
  rw [same] at member
  have inParts := Tree.mem_of_withoutTrivia member
  exact ⟨Form.script_tidy done item inParts, met item inParts, only _ shaped item member⟩

end Parsed

/-- What is to come of a script that was read as `parsed`: which result is given when, and that
there are no others. -/
structure Verdict (parsed : Parsed) (result : Lowered Module) : Prop where
  invalid : ∀ diagnostics, result = .error (.invalidScript diagnostics) ↔
    parsed.isOk = false ∧ diagnostics = parsed.diagnostics
  unrecognized : ∀ found, result = .error (.unrecognizedKind found) ↔
    parsed.isOk = true ∧ found = parsed.root.kindWord ∧
      ∀ kind : DocumentKind, found ≠ some kind.code
  misplaced : ∀ label span, result = .error (.unsupportedNode label span) ↔
    parsed.isOk = true ∧ ∃ kind item, parsed.root.kindWord = some kind.code ∧
      parsed.root.misplaced? kind = some item ∧ label = item.label ∧ span = item.span
  lowered : ∀ kind : DocumentKind, (∃ m, result = .ok m ∧ m.kind = kind) ↔
    parsed.isOk = true ∧ parsed.root.kindWord = some kind.code ∧
      parsed.root.misplaced? kind = none
  complete : ∀ error, result = .error error → (∃ diagnostics, error = .invalidScript diagnostics) ∨
    (∃ found, error = .unrecognizedKind found) ∨ ∃ label span, error = .unsupportedNode label span

theorem verdict_of_items {parsed : Parsed} (ok : parsed.isOk = true)
    (items : ∀ item ∈ parsed.root.significant, item.Item) :
    Verdict parsed (Registry.standard.assemble parsed.root) := by
  rcases Registry.assemble_items items with
    ⟨kind, word, none, m, hm, made⟩ | ⟨kind, item, word, found, hitem⟩ | ⟨unknown, hfound⟩
  · rw [hm]
    refine ⟨by simp [ok], fun found => ?_, fun label span => ?_, fun kind' => ?_, by simp⟩
    · refine iff_of_false (by simp) ?_
      rintro ⟨-, rfl, unknown⟩
      exact unknown kind word
    · refine iff_of_false (by simp) ?_
      rintro ⟨-, kind', item, same, found, -⟩
      obtain rfl := Registry.code_injective (Option.some.inj (word.symm.trans same))
      simp [none] at found
    · constructor
      · rintro ⟨m', same, rfl⟩
        obtain rfl : m = m' := Except.ok.inj same
        exact ⟨ok, by rw [word, made], by rwa [made]⟩
      · rintro ⟨-, same, -⟩
        exact ⟨m, rfl, made.trans (Registry.code_injective (Option.some.inj (word.symm.trans same)))⟩
  · rw [hitem]
    refine ⟨by simp [ok], fun found => ?_, fun label span => ?_, fun kind' => ?_, by simp⟩
    · refine iff_of_false (by simp) ?_
      rintro ⟨-, rfl, unknown⟩
      exact unknown kind word
    · constructor
      · intro same
        obtain ⟨rfl, rfl⟩ : item.label = label ∧ item.span = span := by simpa using same
        exact ⟨ok, kind, item, word, found, rfl, rfl⟩
      · rintro ⟨-, kind', item', same, found', rfl, rfl⟩
        obtain rfl := Registry.code_injective (Option.some.inj (word.symm.trans same))
        obtain rfl : item = item' := Option.some.inj (found.symm.trans found')
        rfl
    · refine iff_of_false (by simp) ?_
      rintro ⟨-, same, none⟩
      obtain rfl := Registry.code_injective (Option.some.inj (word.symm.trans same))
      simp [none] at found
  · rw [hfound]
    refine ⟨by simp [ok], fun found => ?_, fun label span => ?_, fun kind => ?_, by simp⟩
    · constructor
      · intro same
        obtain rfl : parsed.root.kindWord = found := by simpa using same
        exact ⟨ok, rfl, unknown⟩
      · rintro ⟨-, rfl, -⟩
        rfl
    · refine iff_of_false (by simp) ?_
      rintro ⟨-, kind, item, word, -⟩
      exact unknown kind word
    · refine iff_of_false (by simp) ?_
      rintro ⟨-, word, -⟩
      exact unknown kind word

/-- **The complete outcome of lowering a script**, for all settings and with the standard
registry. -/
theorem lowerScript_outcome (settings : Settings) (source : String) :
    Verdict
      (Parsed.ofText settings.maxNesting (String.ofList (Text.tidyLines source.toList)))
      (lowerScript .standard settings source) := by
  unfold lowerScript
  generalize String.ofList (Text.tidyLines source.toList) = formatted
  cases ok : (Parsed.ofText settings.maxNesting formatted).isOk with
  | false =>
      refine ⟨fun diagnostics => ?_, ?_, ?_, ?_, ?_⟩
      all_goals simp [ok, eq_comm]
  | true =>
      simp only [ok, if_true]
      exact verdict_of_items ok (Parsed.items_of_isOk ok)

end QuestScript
