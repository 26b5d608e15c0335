/-
# QuestScript.Proofs.Assembly -- what a module is put together from

A module is put together from the items of its script, one after the other.  What an item does to
the module does not depend on what is there already (`Service.Change`, `ProductDocument.Change`),
and so two things can be said of the whole:

* a catalog keeps the last of the items that declare a name, and the business is the one that the
  last header names (`Service.Assembled`, `ProductDocument.Assembled`); this is kept by every item;
* neighbouring items may be exchanged, unless both are headers or both declare one name
  (`Tree.Exchanged`): changes of different things commute.

`Parsed.ofText_assembles` says both of every script in order.
-/
import QuestScript.Proofs.BlankRuns
import QuestScript.Proofs.Headers
import QuestScript.Proofs.Rendered
import QuestScript.Proofs.ScriptNodes
import QuestScript.Proofs.Verdict

namespace QuestScript

open Text (Precedes)
open Grammar (shape production separated nodeOf tok mem_single mem_single_mul)
open scoped Computability

set_option autoImplicit false

theorem bind_eq_ok {α β ε : Type} {e : Except ε α} {f : α → Except ε β} {b : β} :
    e >>= f = .ok b ↔ ∃ a, e = .ok a ∧ f a = .ok b := by
  cases e <;> simp [bind, Except.bind]

theorem exists_of_map_toOption {α β ε : Type} {e : Except ε α} {f : α → β} {b : β}
    (h : e.toOption.map f = some b) : ∃ a, e = .ok a ∧ f a = b := by
  cases e with
  | error => simp [Except.toOption] at h
  | ok a => exact ⟨a, rfl, by simpa [Except.toOption] using h⟩

/-! ## Catalogs -/

namespace Catalog

variable {α : Type} {c d : Catalog α} {name : String} {value : α}

theorem get?_eq_some : c.get? name = some value ↔ (name, value) ∈ c.entries := by
  obtain ⟨entries, ascending⟩ := c
  simp only [get?]
  induction entries with
  | nil => simp
  | cons head rest ih =>
      obtain ⟨first, others⟩ := List.pairwise_cons.mp ascending
      obtain ⟨n, v⟩ := head
      by_cases same : n = name
      · subst same
        have notLater : (n, value) ∉ rest := fun later => Precedes.irrefl n (first _ later)
        simp [notLater, eq_comm]
      · rw [List.find?_cons_of_neg (by simpa using same), ih others]
        simp [Ne.symm same]

theorem mem_names : name ∈ c.names ↔ ∃ value, c.get? name = some value := by
  simp [names, get?_eq_some]

/-- Catalogs that hold the same are the same. -/
theorem ext_get? (h : ∀ name, c.get? name = d.get? name) : c = d := by
  have nodup (c : Catalog α) : c.entries.Nodup := by
    refine List.Pairwise.imp (fun {a b} before => ?_) c.ascending
    rintro rfl
    exact Precedes.irrefl a.1 before
  have perm : c.entries.Perm d.entries := by
    rw [List.perm_ext_iff_of_nodup (nodup c) (nodup d)]
    rintro ⟨name, value⟩
    rw [← get?_eq_some, ← get?_eq_some, h]
  refine ext (perm.eq_of_pairwise (fun a b _ _ before after => ?_) c.ascending d.ascending)
  exact absurd (before.trans after) (Precedes.irrefl a.1)

/-- Entries under different names may be put in either order. -/
theorem put_comm {a b : String} (ne : a ≠ b) (x y : α) :
    (c.put a x).put b y = (c.put b y).put a x := by
  refine ext_get? fun name => ?_
  simp only [get?_put]
  by_cases atA : a = name
  · simp [atA, show b ≠ name from fun atB => ne (atA.trans atB.symm)]
  · simp [atA]

end Catalog

/-! ## What items declare -/

/-- The rules of the items that declare a name. -/
def Rule.declares : Rule → Bool
  | .processDecl | .functionDecl | .requirementDecl => true
  | _ => false

namespace Tree

variable {item : Tree} {rule : Rule}

/-- The name that an item declares: the word behind its keyword. -/
def nameWord (item : Tree) : Option String := item.significant[1]?.map ownText

theorem find?_withoutTrivia {ts : List Tree} {label : Label} (significant : label ≠ .token .trivia) :
    (withoutTrivia ts).find? (fun child => child.label = label) =
      ts.find? fun child => child.label = label := by
  rw [withoutTrivia, List.find?_filter]
  congr 1
  funext child
  by_cases mine : child.label = label
  · have notTrivia : child.isTrivia = false := by
      by_contra trivia
      exact significant (mine.symm.trans (label_of_isTrivia (by simpa using trivia)))
    simp [mine, notTrivia]
  · simp [mine]

theorem mem_nodes_of_mem_children {t child : Tree} (h : child ∈ t.children) : child ∈ t.nodes := by
  obtain ⟨label, span, children, text⟩ := t
  rw [nodes]
  exact List.mem_cons_of_mem _ (mem_nodesAll.mpr ⟨child, h, child.mem_nodes_self⟩)

/-- The name that lowering finds is the word behind the keyword. -/
theorem Item.declaredName_eq (h : item.Item) (label : item.label = .rule rule)
    (declares : rule.declares) :
    ∃ name, item.nameWord = some name ∧ item.declaredName = .ok name := by
  obtain ⟨keyword, word, rest, whole, notName, isName⟩ : ∃ keyword word rest,
      withoutTrivia item.children = keyword :: word :: rest ∧
        keyword.label ≠ .token .identifier ∧ word.label = .token .identifier := by
    obtain ⟨fits, -⟩ := h.fits label
    cases rule <;> simp only [Rule.declares, Bool.false_eq_true] at declares
    all_goals
      simp only [production, tok, mul_assoc, mem_single_mul] at fits
      obtain ⟨keyword, _, whole, isKeyword, word, rest, rfl, isName, -⟩ := fits
      exact ⟨keyword, word, rest, whole, by simp [isKeyword], isName⟩
  refine ⟨word.ownText, ?_, ?_⟩
  · rw [nameWord, significant_eq, whole]
    rfl
  · have found : item.findToken? .identifier = some word := by
      rw [findToken?, find?, ← find?_withoutTrivia (by simp), whole]
      simp [notName, isName]
    rw [declaredName, found]

/-- Nodes that list parameters: types with names behind them, and commas between. -/
inductive ListParameters : List Tree → List Parameter → Prop
  | last {type name : Tree} (isType : type.label = .rule .typeRef)
      (isName : name.label = .token .identifier) :
      ListParameters [type, name] [⟨type.fullText, name.ownText⟩]
  | more {type name comma : Tree} {nodes : List Tree} {parameters : List Parameter}
      (isType : type.label = .rule .typeRef) (isName : name.label = .token .identifier)
      (isComma : comma.label = .token .comma) (others : ListParameters nodes parameters) :
      ListParameters (type :: name :: comma :: nodes)
        (⟨type.fullText, name.ownText⟩ :: parameters)

theorem listParameters_parametersOf {nodes : List Tree}
    (fits : nodes ∈ separated (nodeOf .typeRef * tok .identifier)) :
    ListParameters nodes (parametersOf none nodes) := by
  obtain ⟨first, ⟨_, ⟨type, rfl, isType⟩, _, ⟨name, rfl, isName⟩, rfl⟩, _, ⟨words, rfl, each⟩, rfl⟩ :=
    fits
  induction words generalizing type name with
  | nil => simpa [parametersOf, isType, isName] using ListParameters.last isType isName
  | cons word words ih =>
      rw [List.forall_mem_cons] at each
      obtain ⟨⟨_, ⟨comma, rfl, isComma⟩, _, ⟨_, ⟨type', rfl, isType'⟩, _, ⟨name', rfl, isName'⟩, rfl⟩,
        rfl⟩, others⟩ := each
      simpa [parametersOf, isType, isName, isComma] using
        ListParameters.more isType isName isComma (ih type' isType' name' isName' others)

/-- The parameters of a function are those that its declaration lists, if it lists any. -/
def DeclaresParameters (item : Tree) (parameters : List Parameter) : Prop :=
  match item.findRule? .parameters with
  | none => parameters = []
  | some list => ListParameters list.significant parameters

/-- The token is the text with quotes of one kind around it. -/
def Quotes (token : Tree) (body : String) : Prop :=
  ∃ quote, (quote = '"' ∨ quote = '\'') ∧ token.ownText.toList = quote :: (body.toList ++ [quote])

/-- The strings of the item begin with a quote. -/
def Quoted (item : Tree) : Prop :=
  ∀ t ∈ item.children, t.label = .token .string →
    ∃ quote body, t.ownText.toList = quote :: body ∧ (quote = '"' ∨ quote = '\'')

theorem quotes_unquoted {t : Tree} {quote : Char} {body : List Char}
    (closes : Grammar.closesQuote t.ownText) (whole : t.ownText.toList = quote :: body)
    (isQuote : quote = '"' ∨ quote = '\'') : t.Quotes (Text.unquoted t.ownText) := by
  obtain ⟨inner, rfl, -⟩ := (Lexeme.closesQuote_iff whole).mp closes
  have inside : Text.inside? quote quote t.ownText.toList = some inner :=
    Text.inside?_eq_some_iff.mpr whole
  have bare : Text.unquoted t.ownText = String.ofList inner := by
    rcases isQuote with rfl | rfl
    · rw [Text.unquoted, inside]
      rfl
    · have other : Text.inside? '"' '"' t.ownText.toList = none := by
        simp [whole, Text.inside?]
      rw [Text.unquoted, other, inside]
      rfl
  exact ⟨quote, isQuote, by rw [bare, String.toList_ofList, whole]⟩

/-- The items of a requirement are closed strings. -/
theorem closesQuote_of_requirement {nodes : List Tree}
    (fits : nodes ∈ production .requirementDecl) :
    ∀ t ∈ nodes, t.label = .token .string → Grammar.closesQuote t.ownText := by
  simp only [production, tok, mul_assoc, mem_single_mul] at fits
  obtain ⟨keyword, _, rfl, isKeyword, name, _, rfl, isName, brace, _, rfl, isBrace, _,
    ⟨words, rfl, each⟩, _, ⟨closing, rfl, isClosing⟩, rfl⟩ := fits
  intro t member label
  have inWords : t ∈ words.flatten := by
    simp only [List.mem_cons, List.mem_append, List.not_mem_nil, or_false] at member
    rcases member with rfl | rfl | rfl | inWords | rfl
    · simp [isKeyword] at label
    · simp [isName] at label
    · simp [isBrace] at label
    · exact inWords
    · simp [isClosing] at label
  obtain ⟨word, inList, inWord⟩ := List.mem_flatten.mp inWords
  obtain ⟨_, ⟨string, rfl, -, closed⟩, _, ⟨semi, rfl, isSemi⟩, rfl⟩ := each word inList
  simp only [List.mem_append, List.mem_singleton] at inWord
  rcases inWord with rfl | rfl
  · exact closed
  · simp [isSemi] at label

/-- The item declares a process. -/
def DeclaresProcess (item : Tree) (name : String) (p : Process) : Prop :=
  item.lowerProcess = .ok p ∧ p.name = name

/-- The item declares a function, with the parameters that it lists. -/
def DeclaresFunction (item : Tree) (name : String) (f : Function) : Prop :=
  item.lowerFunction = .ok f ∧ f.name = name ∧ item.DeclaresParameters f.parameters

/-- The item declares a requirement, whose items are the strings in it without their quotes. -/
def DeclaresRequirement (item : Tree) (name : String) (items : List String) : Prop :=
  item.lowerRequirement = .ok (name, items) ∧
    List.Forall₂ Quotes (item.findAll (.token .string)) items

theorem Item.declaresProcess (h : item.Item) (label : item.label = .rule .processDecl) {p : Process}
    (lowered : item.lowerProcess = .ok p) :
    item.nameWord = some p.name ∧ item.DeclaresProcess p.name p := by
  obtain ⟨name, word, declared⟩ := h.declaredName_eq label rfl
  obtain ⟨name', found, whole⟩ := bind_eq_ok.mp lowered
  obtain ⟨body, -, made⟩ := bind_eq_ok.mp whole
  obtain rfl : name = name' := Except.ok.inj (declared.symm.trans found)
  obtain rfl : _ = p := Except.ok.inj made
  exact ⟨word, lowered, rfl⟩

theorem Item.declaresFunction (h : item.Item) (label : item.label = .rule .functionDecl)
    {f : Function} (lowered : item.lowerFunction = .ok f) :
    item.nameWord = some f.name ∧ item.DeclaresFunction f.name f := by
  obtain ⟨name, word, declared⟩ := h.declaredName_eq label rfl
  obtain ⟨name', found, whole⟩ := bind_eq_ok.mp lowered
  obtain ⟨body, -, made⟩ := bind_eq_ok.mp whole
  obtain rfl : name = name' := Except.ok.inj (declared.symm.trans found)
  obtain rfl : _ = f := Except.ok.inj made
  refine ⟨word, lowered, rfl, ?_⟩
  cases list : item.findRule? .parameters with
  | none => simp [DeclaresParameters, list]
  | some node =>
      obtain ⟨-, sound⟩ := h.fits label
      obtain ⟨tidy, met⟩ := sound node (List.mem_of_find?_eq_some list)
      obtain ⟨parts, rfl⟩ := tidy.eq_ofRule (by simpa using List.find?_some list)
      simp only [DeclaresParameters, list, Option.elim]
      exact listParameters_parametersOf (Grammar.Contract.met_ofRule.mp met).1

theorem Item.declaresRequirement (h : item.Item) (label : item.label = .rule .requirementDecl)
    (quoted : item.Quoted) {name : String} {items : List String}
    (lowered : item.lowerRequirement = .ok (name, items)) :
    item.nameWord = some name ∧ item.DeclaresRequirement name items := by
  obtain ⟨name', word, declared⟩ := h.declaredName_eq label rfl
  obtain ⟨_, found, made⟩ := bind_eq_ok.mp lowered
  obtain rfl := Except.ok.inj (declared.symm.trans found)
  obtain ⟨rfl, rfl⟩ := Prod.mk.inj (Except.ok.inj made)
  refine ⟨word, lowered, ?_⟩
  rw [List.forall₂_map_right_iff, List.forall₂_same]
  intro t member
  obtain ⟨inItem, isString⟩ := List.mem_filter.mp member
  have string : t.label = .token .string := by simpa using isString
  obtain ⟨quote, body, whole, isQuote⟩ := quoted t inItem string
  have significant : t.isTrivia = false := by
    by_contra trivia
    simp [label_of_isTrivia (by simpa using trivia)] at string
  exact quotes_unquoted (closesQuote_of_requirement (h.fits label).1 t
    (List.mem_filter.mpr ⟨inItem, by simp [significant]⟩) string) whole isQuote

end Tree

/-! ## The last declaration counts -/

/-- The items of a rule among some. -/
def Tree.ofKind (rule : Rule) (items : List Tree) : List Tree :=
  items.filter fun item => item.label = .rule rule

theorem Tree.ofKind_concat_of_eq {rule : Rule} {items : List Tree} {new : Tree}
    (label : new.label = .rule rule) : ofKind rule (items ++ [new]) = ofKind rule items ++ [new] := by
  simp [ofKind, label]

theorem Tree.ofKind_concat_of_ne {rule : Rule} {items : List Tree} {new : Tree}
    (label : new.label ≠ .rule rule) : ofKind rule (items ++ [new]) = ofKind rule items := by
  simp [ofKind, label]

/-- The item is the last of some that declares the name. -/
def Tree.IsLast (name : String) (items : List Tree) (item : Tree) : Prop :=
  ∃ before behind, items = before ++ item :: behind ∧ item.nameWord = some name ∧
    ∀ later ∈ behind, later.nameWord ≠ some name

theorem Tree.isLast_concat {name : String} {items : List Tree} {new item : Tree} :
    IsLast name (items ++ [new]) item ↔
      new.nameWord = some name ∧ item = new ∨
        new.nameWord ≠ some name ∧ IsLast name items item := by
  constructor
  · rintro ⟨before, behind, whole, word, none⟩
    rcases List.eq_nil_or_concat' behind with rfl | ⟨behind, last, rfl⟩
    · obtain ⟨rfl, same⟩ := List.append_inj' whole rfl
      obtain rfl : new = item := by simpa using same
      exact .inl ⟨word, rfl⟩
    · rw [← List.cons_append, ← List.append_assoc] at whole
      obtain ⟨rfl, same⟩ := List.append_inj' whole rfl
      obtain rfl : new = last := by simpa using same
      exact .inr ⟨none new (by simp), before, behind, rfl, word,
        fun later member => none later (by simp [member])⟩
  · rintro (⟨word, rfl⟩ | ⟨other, before, behind, rfl, word, none⟩)
    · exact ⟨items, [], rfl, word, by simp⟩
    · refine ⟨before, behind ++ [new], by simp, word, fun later member => ?_⟩
      rcases List.mem_append.mp member with earlier | same
      · exact none later earlier
      · rwa [List.mem_singleton.mp same]

/-- A catalog of what items declare: it has their names, in the order of the bytes, and under each
name what the last of them declares under it. -/
structure Catalog.KeepsLast {α : Type} (c : Catalog α) (items : List Tree)
    (Declares : Tree → String → α → Prop) : Prop where
  ordered : c.names.Pairwise Precedes
  names : ∀ name, name ∈ c.names ↔ ∃ item ∈ items, item.nameWord = some name
  entry : ∀ name value, c.get? name = some value ↔
    ∃ item, Tree.IsLast name items item ∧ Declares item name value

namespace Catalog

variable {α : Type} {c : Catalog α} {items : List Tree} {Declares : Tree → String → α → Prop}

theorem keepsLast_empty : (empty : Catalog α).KeepsLast [] Declares where
  ordered := List.Pairwise.nil
  names name := by simp [empty, names]
  entry name value := by simp [Tree.IsLast]

/-- One more item is put over what was declared under its name. -/
theorem KeepsLast.put (h : c.KeepsLast items Declares) {new : Tree} {name : String} {value : α}
    (word : new.nameWord = some name) (declares : Declares new name value)
    (unique : ∀ other, Declares new name other → other = value) :
    (c.put name value).KeepsLast (items ++ [new]) Declares where
  ordered := List.pairwise_map.mpr (c.put name value).ascending
  names other := by
    have known := h.names other
    rw [mem_names] at known ⊢
    simp only [get?_put, List.mem_append, List.mem_singleton, or_and_right, exists_or,
      exists_eq_left, ← known, word, Option.some.injEq]
    by_cases same : name = other <;> simp [same]
  entry other result := by
    simp only [get?_put, Tree.isLast_concat, word, Option.some.injEq, or_and_right, exists_or]
    by_cases same : name = other
    · subst same
      simp only [if_true, Option.some.injEq, true_and, ne_eq, not_true, false_and, exists_false,
        or_false, exists_eq_left]
      exact ⟨fun eq => eq ▸ declares, fun other => (unique result other).symm⟩
    · simp [same, h.entry]

theorem KeepsLast.declare {rule : Rule} (h : c.KeepsLast (Tree.ofKind rule items) Declares)
    {new : Tree} (label : new.label = .rule rule) {name : String} {value : α}
    (declared : new.nameWord = some name ∧ Declares new name value)
    (unique : ∀ other, Declares new name other → other = value) :
    (c.put name value).KeepsLast (Tree.ofKind rule (items ++ [new])) Declares := by
  rw [Tree.ofKind_concat_of_eq label]
  exact h.put declared.1 declared.2 unique

theorem KeepsLast.skip {rule : Rule} (h : c.KeepsLast (Tree.ofKind rule items) Declares)
    {new : Tree} (label : new.label ≠ .rule rule) :
    c.KeepsLast (Tree.ofKind rule (items ++ [new])) Declares := by
  rwa [Tree.ofKind_concat_of_ne label]

end Catalog

/-- The business is the one that the last header names, and none without one. -/
def Tree.NamesBusiness (items : List Tree) (business : String) : Prop :=
  match (ofKind .businessHeader items).getLast? with
  | none => business = ""
  | some header => header.HeaderNames business

theorem Tree.namesBusiness_concat {items : List Tree} {new : Tree} {name : String}
    (label : new.label = .rule .businessHeader) (named : new.HeaderNames name) :
    NamesBusiness (items ++ [new]) name := by
  rw [NamesBusiness, ofKind_concat_of_eq label, List.getLast?_concat]
  exact named

theorem Tree.NamesBusiness.skip {items : List Tree} {new : Tree} {business : String}
    (h : NamesBusiness items business) (label : new.label ≠ .rule .businessHeader) :
    NamesBusiness (items ++ [new]) business := by
  rwa [NamesBusiness, ofKind_concat_of_ne label]

/-! ## Services -/

namespace Service

/-- What an item does to a service. -/
inductive Change where
  | nothing
  | business (name : String)
  | process (p : Process)
  | function (f : Function)

namespace Change

def apply : Change → Service → Service
  | .nothing, s => s
  | .business name, s => { s with business := name }
  | .process p, s => s.putProcess p.name p
  | .function f, s => s.putFunction f.name f

/-- The changes do not touch one thing. -/
def Apart : Change → Change → Prop
  | .business _, .business _ => False
  | .process p, .process q => p.name ≠ q.name
  | .function f, .function g => f.name ≠ g.name
  | _, _ => True

/-- Changes of different things commute. -/
theorem apply_comm {first second : Change} (apart : Apart first second) (s : Service) :
    first.apply (second.apply s) = second.apply (first.apply s) := by
  cases first <;> cases second <;> try rfl
  case business.business => exact apart.elim
  case process.process p q => simp [apply, putProcess, Catalog.put_comm (Ne.symm apart)]
  case function.function f g => simp [apply, putFunction, Catalog.put_comm (Ne.symm apart)]

end Change

/-- The change that an item stands for. -/
inductive Change.Of (item : Tree) : Change → Prop
  | nothing (label : item.label = .rule .kindDecl) : Change.Of item .nothing
  | business {name : String} (label : item.label = .rule .businessHeader)
      (named : item.businessName = .ok name) : Change.Of item (.business name)
  | process {p : Process} (label : item.label = .rule .processDecl)
      (lowered : item.lowerProcess = .ok p) : Change.Of item (.process p)
  | function {f : Function} (label : item.label = .rule .functionDecl)
      (lowered : item.lowerFunction = .ok f) : Change.Of item (.function f)

theorem addToService_eq_ok {s s' : Service} {item : Tree} : Tree.addToService s item = .ok s' ↔
    ∃ change, Change.Of item change ∧ change.apply s = s' := by
  constructor
  · intro added
    rw [Tree.addToService] at added
    split at added
    · rename_i label
      exact ⟨_, .nothing label, Except.ok.inj added⟩
    · rename_i label
      obtain ⟨name, named, same⟩ := Tree.map_eq_ok.mp added
      exact ⟨_, .business label named, same⟩
    · rename_i label
      obtain ⟨p, lowered, same⟩ := Tree.map_eq_ok.mp added
      exact ⟨_, .process label lowered, same⟩
    · rename_i label
      obtain ⟨f, lowered, same⟩ := Tree.map_eq_ok.mp added
      exact ⟨_, .function label lowered, same⟩
    · cases added
  · rintro ⟨change, of, rfl⟩
    cases of with
    | nothing label => simp only [Tree.addToService, label, Change.apply]
    | business label named => simp only [Tree.addToService, label, named]; rfl
    | process label lowered => simp only [Tree.addToService, label, lowered]; rfl
    | function label lowered => simp only [Tree.addToService, label, lowered]; rfl

/-- What a service holds of the items that it was put together from. -/
structure Assembled (s : Service) (items : List Tree) : Prop where
  business : Tree.NamesBusiness items s.business
  processes : s.processes.KeepsLast (Tree.ofKind .processDecl items) Tree.DeclaresProcess
  functions : s.functions.KeepsLast (Tree.ofKind .functionDecl items) Tree.DeclaresFunction

theorem assembled_nil : (named "").Assembled [] :=
  ⟨rfl, Catalog.keepsLast_empty, Catalog.keepsLast_empty⟩

/-- Every item keeps what is known of the service. -/
theorem Assembled.add {s s' : Service} {items : List Tree} {new : Tree} (h : s.Assembled items)
    (item : new.Item) (added : Tree.addToService s new = .ok s') :
    s'.Assembled (items ++ [new]) := by
  obtain ⟨change, of, rfl⟩ := addToService_eq_ok.mp added
  cases of with
  | nothing label =>
      exact ⟨h.business.skip (by simp [label]), h.processes.skip (by simp [label]),
        h.functions.skip (by simp [label])⟩
  | business label named =>
      exact ⟨Tree.namesBusiness_concat label (item.headerNames label named),
        h.processes.skip (by simp [label]), h.functions.skip (by simp [label])⟩
  | process label lowered =>
      refine ⟨h.business.skip (by simp [label]), ?_, h.functions.skip (by simp [label])⟩
      exact h.processes.declare label (item.declaresProcess label lowered) fun other again =>
        Except.ok.inj (again.1.symm.trans lowered)
  | function label lowered =>
      refine ⟨h.business.skip (by simp [label]), h.processes.skip (by simp [label]), ?_⟩
      exact h.functions.declare label (item.declaresFunction label lowered) fun other again =>
        Except.ok.inj (again.1.symm.trans lowered)

end Service

/-! ## Product documents -/

namespace ProductDocument

/-- What an item does to a product document. -/
inductive Change where
  | nothing
  | business (name : String)
  | requirement (name : String) (items : List String)

namespace Change

def apply : Change → ProductDocument → ProductDocument
  | .nothing, d => d
  | .business name, d => { d with business := name }
  | .requirement name items, d => d.putRequirement name items

/-- The changes do not touch one thing. -/
def Apart : Change → Change → Prop
  | .business _, .business _ => False
  | .requirement name _, .requirement other _ => name ≠ other
  | _, _ => True

/-- Changes of different things commute. -/
theorem apply_comm {first second : Change} (apart : Apart first second) (d : ProductDocument) :
    first.apply (second.apply d) = second.apply (first.apply d) := by
  cases first <;> cases second <;> try rfl
  case business.business => exact apart.elim
  case requirement.requirement => simp [apply, putRequirement, Catalog.put_comm (Ne.symm apart)]

end Change

/-- The change that an item stands for. -/
inductive Change.Of (item : Tree) : Change → Prop
  | nothing (label : item.label = .rule .kindDecl) : Change.Of item .nothing
  | business {name : String} (label : item.label = .rule .businessHeader)
      (named : item.businessName = .ok name) : Change.Of item (.business name)
  | requirement {name : String} {items : List String} (label : item.label = .rule .requirementDecl)
      (lowered : item.lowerRequirement = .ok (name, items)) : Change.Of item (.requirement name items)

theorem addToDocument_eq_ok {d d' : ProductDocument} {item : Tree} :
    Tree.addToDocument d item = .ok d' ↔ ∃ change, Change.Of item change ∧ change.apply d = d' := by
  constructor
  · intro added
    rw [Tree.addToDocument] at added
    split at added
    · rename_i label
      exact ⟨_, .nothing label, Except.ok.inj added⟩
    · rename_i label
      obtain ⟨name, named, same⟩ := Tree.map_eq_ok.mp added
      exact ⟨_, .business label named, same⟩
    · rename_i label
      obtain ⟨⟨name, items⟩, lowered, same⟩ := Tree.map_eq_ok.mp added
      exact ⟨_, .requirement label lowered, same⟩
    · cases added
  · rintro ⟨change, of, rfl⟩
    cases of with
    | nothing label => simp only [Tree.addToDocument, label, Change.apply]
    | business label named => simp only [Tree.addToDocument, label, named]; rfl
    | requirement label lowered => simp only [Tree.addToDocument, label, lowered]; rfl

/-- What a product document holds of the items that it was put together from. -/
structure Assembled (d : ProductDocument) (items : List Tree) : Prop where
  business : Tree.NamesBusiness items d.business
  requirements :
    d.requirements.KeepsLast (Tree.ofKind .requirementDecl items) Tree.DeclaresRequirement

theorem assembled_nil : (named "").Assembled [] := ⟨rfl, Catalog.keepsLast_empty⟩

/-- Every item keeps what is known of the document. -/
theorem Assembled.add {d d' : ProductDocument} {items : List Tree} {new : Tree}
    (h : d.Assembled items) (item : new.Item) (quoted : new.Quoted)
    (added : Tree.addToDocument d new = .ok d') : d'.Assembled (items ++ [new]) := by
  obtain ⟨change, of, rfl⟩ := addToDocument_eq_ok.mp added
  cases of with
  | nothing label =>
      exact ⟨h.business.skip (by simp [label]), h.requirements.skip (by simp [label])⟩
  | business label named =>
      exact ⟨Tree.namesBusiness_concat label (item.headerNames label named),
        h.requirements.skip (by simp [label])⟩
  | requirement label lowered =>
      refine ⟨h.business.skip (by simp [label]), ?_⟩
      exact h.requirements.declare label (item.declaresRequirement label quoted lowered)
        fun other again => (Prod.mk.inj (Except.ok.inj (again.1.symm.trans lowered))).2

end ProductDocument

/-! ## Scripts -/

section Fold

variable {σ : Type} {add : σ → Tree → Lowered σ} {start s : σ}

/-- What every item keeps holds at the end. -/
theorem foldlM_keeps {P : List Tree → σ → Prop} {Q : Tree → Prop} (nil : P [] start)
    (keeps : ∀ {items new s s'}, Q new → P items s → add s new = .ok s' → P (items ++ [new]) s')
    {items : List Tree} (each : ∀ item ∈ items, Q item) (run : items.foldlM add start = .ok s) :
    P items s := by
  induction items using List.reverseRecOn generalizing s with
  | nil =>
      obtain rfl := Except.ok.inj run
      exact nil
  | append_singleton items new ih =>
      rw [List.foldlM_append] at run
      obtain ⟨before, earlier, last⟩ := bind_eq_ok.mp run
      obtain ⟨_, added, same⟩ := bind_eq_ok.mp last
      obtain rfl := Except.ok.inj same
      exact keeps (each new (by simp)) (ih (fun item member => each item (by simp [member])) earlier)
        added

/-- Items whose changes commute may be exchanged among others. -/
theorem foldlM_exchange {χ : Type} {Of : Tree → χ → Prop} {apply : χ → σ → σ} {a b : Tree}
    {before behind : List Tree} (run : (before ++ a :: b :: behind).foldlM add start = .ok s)
    (adds : ∀ s s' item, add s item = .ok s' ↔ ∃ change, Of item change ∧ apply change s = s')
    (comm : ∀ first second, Of a first → Of b second → ∀ s,
      apply first (apply second s) = apply second (apply first s)) :
    (before ++ b :: a :: behind).foldlM add start = .ok s := by
  simp only [List.foldlM_append, List.foldlM_cons] at run ⊢
  obtain ⟨middle, earlier, later⟩ := bind_eq_ok.mp run
  obtain ⟨one, addedA, rest⟩ := bind_eq_ok.mp later
  obtain ⟨two, addedB, last⟩ := bind_eq_ok.mp rest
  obtain ⟨first, ofA, rfl⟩ := (adds _ _ a).mp addedA
  obtain ⟨second, ofB, rfl⟩ := (adds _ _ b).mp addedB
  exact bind_eq_ok.mpr ⟨middle, earlier, bind_eq_ok.mpr ⟨apply second middle,
    (adds _ _ b).mpr ⟨second, ofB, rfl⟩, bind_eq_ok.mpr ⟨_, (adds _ _ a).mpr ⟨first, ofA, rfl⟩,
      by rw [comm first second ofA ofB middle]; exact last⟩⟩⟩

end Fold

namespace Tree

theorem assembled_of_lowerService {script : Tree} (items : ∀ item ∈ script.significant, item.Item)
    {s : Service} (run : script.lowerService = .ok s) : s.Assembled script.significant :=
  foldlM_keeps (P := fun items s => s.Assembled items) Service.assembled_nil
    (fun item known added => known.add item added) items run

theorem assembled_of_lowerDocument {script : Tree}
    (items : ∀ item ∈ script.significant, item.Item ∧ item.Quoted) {d : ProductDocument}
    (run : script.lowerDocument = .ok d) : d.Assembled script.significant :=
  foldlM_keeps (P := fun items d => d.Assembled items) ProductDocument.assembled_nil
    (fun item known added => known.add item.1 item.2 added) items run

/-- The items are not two headers, and do not declare one name in one catalog. -/
def Independent (a b : Tree) : Prop :=
  ¬ (a.label = .rule .businessHeader ∧ b.label = .rule .businessHeader) ∧
    ∀ rule : Rule, rule.declares → a.label = .rule rule → b.label = .rule rule →
      a.nameWord ≠ b.nameWord

/-- The second script is the first with two neighbouring items exchanged that are independent. -/
def Exchanged (script swapped : Tree) : Prop :=
  ∃ before a between b behind, script.children = before ++ a :: (between ++ b :: behind) ∧
    swapped.children = before ++ b :: (between ++ a :: behind) ∧ (∀ t ∈ between, t.isTrivia) ∧
      a.isTrivia = false ∧ b.isTrivia = false ∧ Independent a b

theorem Exchanged.significant {script swapped : Tree} (h : script.Exchanged swapped) :
    ∃ before a b behind, script.significant = before ++ a :: b :: behind ∧
      swapped.significant = before ++ b :: a :: behind ∧ Independent a b := by
  obtain ⟨before, a, between, b, behind, here, there, trivia, isA, isB, independent⟩ := h
  have none : between.filter (fun t => !t.isTrivia) = [] := by simpa using trivia
  refine ⟨withoutTrivia before, a, b, withoutTrivia behind, ?_, ?_, independent⟩
  · simp [Tree.significant, here, withoutTrivia, isA, isB, none]
  · simp [Tree.significant, there, withoutTrivia, isA, isB, none]

theorem Independent.service {a b : Tree} (h : Independent a b) (ia : a.Item) (ib : b.Item)
    {first second : Service.Change} (ofA : Service.Change.Of a first)
    (ofB : Service.Change.Of b second) : Service.Change.Apart first second := by
  cases ofA with
  | nothing => trivial
  | business la _ =>
      cases ofB with
      | business lb _ => exact h.1 ⟨la, lb⟩
      | _ => trivial
  | process la pa =>
      cases ofB with
      | process lb pb =>
          intro same
          refine h.2 .processDecl rfl la lb ?_
          rw [(ia.declaresProcess la pa).1, (ib.declaresProcess lb pb).1, same]
      | _ => trivial
  | function la fa =>
      cases ofB with
      | function lb fb =>
          intro same
          refine h.2 .functionDecl rfl la lb ?_
          rw [(ia.declaresFunction la fa).1, (ib.declaresFunction lb fb).1, same]
      | _ => trivial

theorem Independent.document {a b : Tree} (h : Independent a b) (ia : a.Item) (ib : b.Item)
    (qa : a.Quoted) (qb : b.Quoted) {first second : ProductDocument.Change}
    (ofA : ProductDocument.Change.Of a first) (ofB : ProductDocument.Change.Of b second) :
    ProductDocument.Change.Apart first second := by
  cases ofA with
  | nothing => trivial
  | business la _ =>
      cases ofB with
      | business lb _ => exact h.1 ⟨la, lb⟩
      | _ => trivial
  | requirement la ra =>
      cases ofB with
      | requirement lb rb =>
          intro same
          refine h.2 .requirementDecl rfl la lb ?_
          rw [(ia.declaresRequirement la qa ra).1, (ib.declaresRequirement lb qb rb).1, same]
      | _ => trivial

theorem Exchanged.lowerService {script swapped : Tree} (h : script.Exchanged swapped)
    (items : ∀ item ∈ script.significant, item.Item) {s : Service}
    (run : script.lowerService = .ok s) : swapped.lowerService = .ok s := by
  obtain ⟨before, a, b, behind, here, there, independent⟩ := h.significant
  rw [here] at items
  rw [Tree.lowerService, here] at run
  rw [Tree.lowerService, there]
  refine foldlM_exchange run (fun _ _ _ => Service.addToService_eq_ok)
    fun first second ofA ofB => ?_
  exact Service.Change.apply_comm
    (independent.service (items a (by simp)) (items b (by simp)) ofA ofB)

theorem Exchanged.lowerDocument {script swapped : Tree} (h : script.Exchanged swapped)
    (items : ∀ item ∈ script.significant, item.Item ∧ item.Quoted) {d : ProductDocument}
    (run : script.lowerDocument = .ok d) : swapped.lowerDocument = .ok d := by
  obtain ⟨before, a, b, behind, here, there, independent⟩ := h.significant
  rw [here] at items
  rw [Tree.lowerDocument, here] at run
  rw [Tree.lowerDocument, there]
  refine foldlM_exchange run (fun _ _ _ => ProductDocument.addToDocument_eq_ok)
    fun first second ofA ofB => ?_
  obtain ⟨ia, qa⟩ := items a (by simp)
  obtain ⟨ib, qb⟩ := items b (by simp)
  exact ProductDocument.Change.apply_comm (independent.document ia ib qa qb ofA ofB)

end Tree

namespace Parsed

variable {limit : Nat} {source : String}

/-- The strings of a script are written with quotes. -/
theorem quoted_of_mem (ok : (ofText limit source).isOk) {item : Tree}
    (member : item ∈ (ofText limit source).root.significant) : item.Quoted := by
  have isItem := items_of_isOk ok item member
  obtain ⟨rule, label, declared⟩ := isItem.item
  have inside := Tree.mem_nodes_of_mem_children (Tree.mem_of_withoutTrivia member)
  obtain ⟨rest, row⟩ := row_of_mem ok inside (by
    rw [label]
    rintro ⟨⟩
    simp [Grammar.isItem] at declared)
  obtain ⟨parts, rfl⟩ := isItem.tidy.eq_ofRule label
  intro t inParts string
  obtain ⟨tok, rfl⟩ := ((Tree.tidy_ofRule.mp isItem.tidy).1 t inParts).eq_leaf (by
    simp [Tree.isToken, Tree.tokenKind?, string, Label.tokenKind?])
  have among : tok.lexeme ∈ (Tree.ofRule rule parts).lexemes := by
    rw [Tree.lexemes_ofRule]
    exact Tree.mem_lexemesAll.mpr ⟨_, inParts, by simp⟩
  have isString : tok.lexeme.kind = .string := Label.token.inj string
  obtain ⟨behind, stands⟩ := row.stands among
  obtain ⟨quote, body, whole, isQuote, -⟩ := (Lexeme.stands_string isString).mp stands
  exact ⟨quote, body, whole, isQuote⟩

/-- **What a module is put together from.**  Whenever a script in order becomes a service or a
product document, its catalogs keep what the last items under each name declare, and its business is
the one that the last header names; and it becomes the same after an exchange of neighbouring items
that do not touch one thing. -/
theorem ofText_assembles (limit : Nat) (source : String) (ok : (ofText limit source).isOk) :
    (∀ s, (ofText limit source).root.lowerService = .ok s →
      s.Assembled (ofText limit source).root.significant ∧
        ∀ swapped, (ofText limit source).root.Exchanged swapped → swapped.lowerService = .ok s) ∧
    ∀ d, (ofText limit source).root.lowerDocument = .ok d →
      d.Assembled (ofText limit source).root.significant ∧
        ∀ swapped, (ofText limit source).root.Exchanged swapped →
          swapped.lowerDocument = .ok d := by
  have items : ∀ item ∈ (ofText limit source).root.significant, item.Item := items_of_isOk ok
  have sound : ∀ item ∈ (ofText limit source).root.significant, item.Item ∧ item.Quoted :=
    fun item member => ⟨items item member, quoted_of_mem ok member⟩
  exact ⟨fun s run => ⟨Tree.assembled_of_lowerService items run,
      fun swapped exchanged => exchanged.lowerService items run⟩,
    fun d run => ⟨Tree.assembled_of_lowerDocument sound run,
      fun swapped exchanged => exchanged.lowerDocument sound run⟩⟩

/-- A service with two processes of one name and two headers, in which the function and the process
behind it change places; and a product document with two requirements of one name. -/
theorem ofText_assembles_twice :
    let service :=
      "@kind service;@business `A`;process p\x7b\x7dfunction f(T x)\x7b\x7d process p\x7b\x7d" ++
        "@business ` B ,C/**/D `;"
    let document := "@kind prd;requirement r\x7b\"a\";'b';\x7drequirement r\x7b\"c\";\x7d"
    (ofText 8 service).isOk ∧ (ofText 8 document).isOk ∧
    (∃ s, (ofText 8 service).root.lowerService = .ok s ∧
      s.business = "B , C D" ∧ s.processes.names = ["p"] ∧ s.functions.names = ["f"] ∧
      s.Assembled (ofText 8 service).root.significant ∧
        ∃ swapped, (ofText 8 service).root.Exchanged swapped ∧ swapped.lowerService = .ok s) ∧
    ∃ d, (ofText 8 document).root.lowerDocument = .ok d ∧
      d.business = "" ∧ d.requirements.entries = [("r", ["c"])] ∧
      d.Assembled (ofText 8 document).root.significant := by
  intro service document
  have ok : (ofText 8 service).isOk := by decide +kernel
  have ok' : (ofText 8 document).isOk := by decide +kernel
  have lowered : (ofText 8 service).root.lowerService.toOption.map
      (fun s => (s.business, s.processes.names, s.functions.names)) =
        some ("B , C D", ["p"], ["f"]) := by decide +kernel
  have lowered' : (ofText 8 document).root.lowerDocument.toOption.map
      (fun d => (d.business, d.requirements.entries)) = some ("", [("r", ["c"])]) := by
    decide +kernel
  have split : ∃ before a gap b behind,
      (ofText 8 service).root.children = before ++ a :: ([gap] ++ b :: behind) ∧ gap.isTrivia ∧
        a.label = .rule .functionDecl ∧ b.label = .rule .processDecl := by
    refine ⟨(ofText 8 service).root.children.take 3, (ofText 8 service).root.children[3]!,
      (ofText 8 service).root.children[4]!, (ofText 8 service).root.children[5]!,
      (ofText 8 service).root.children.drop 6, ?_⟩
    decide +kernel
  obtain ⟨s, made, held⟩ := exists_of_map_toOption lowered
  obtain ⟨d, made', held'⟩ := exists_of_map_toOption lowered'
  obtain ⟨business, names⟩ := Prod.mk.inj held
  obtain ⟨processes, functions⟩ := Prod.mk.inj names
  obtain ⟨business', requirements⟩ := Prod.mk.inj held'
  obtain ⟨before, a, gap, b, behind, whole, trivia, isFunction, isProcess⟩ := split
  have exchanged : (ofText 8 service).root.Exchanged
      { (ofText 8 service).root with children := before ++ b :: ([gap] ++ a :: behind) } := by
    refine ⟨before, a, [gap], b, behind, whole, rfl, by simpa using trivia, ?_, ?_, ?_, ?_⟩
    · simp [Tree.isTrivia, Tree.tokenKind?, isFunction, Label.tokenKind?]
    · simp [Tree.isTrivia, Tree.tokenKind?, isProcess, Label.tokenKind?]
    · simp [isFunction]
    · intro rule _ ruleOfA ruleOfB
      simp [isFunction] at ruleOfA
      simp [isProcess, ← ruleOfA] at ruleOfB
  obtain ⟨assembled, same⟩ := (ofText_assembles 8 service ok).1 s made
  exact ⟨ok, ok',
    ⟨s, made, business, processes, functions, assembled, _, exchanged, same _ exchanged⟩,
    d, made', business', requirements, ((ofText_assembles 8 document ok').2 d made').1⟩

end Parsed

end QuestScript
