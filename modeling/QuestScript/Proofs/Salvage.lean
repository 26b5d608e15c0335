/-
# QuestScript.Proofs.Salvage -- what recovery keeps and what it loses

Where a statement or an item gives up, what it had read is lost: its nodes stood in a frame of
its own.  The tokens from there on are kept, those that are skipped under an error node.  So the
leaves of a tree are the tokens of its script without some runs, and each run is what one
statement or item took before it gave up (`Salvages`, `Form.script_salvaged`).

`Parsed.ofText_salvages` says so of every script, in order or not: each run was reported, and
the tree says the script just if there is none.  A statement that breaks off behind its first
token is enough for one (`Parsed.ofText_abandoned`).
-/
import Mathlib.Data.List.Flatten
import QuestScript.Proofs.Items
import QuestScript.Proofs.Lossless

namespace QuestScript

set_option autoImplicit false

namespace Grammar

open QuestScript.Tree (tokensAll tokensAll_append tokensAll_leaves)

/-! ## What is lost -/

/-- The tokens were taken by a statement or an item that gave up behind them. -/
structure Abandoned (limit : Nat) (lost : List Token) (fault : Fault) : Prop where
  some : lost ≠ []
  read : ∃ rule, (rule = Form.statement ∨ rule = Form.item) ∧ ∃ n ≤ limit, ∃ reported,
    rule.readAt n [] (lost ++ fault.rest) = .failed fault reported

/-- From tokens up to those left, some are kept, in order, and the others are runs that were lost
where a statement or an item gave up. -/
inductive Salvages (limit : Nat) :
    List Token → List Token → List Token → List Fault → Prop where
  | done (rest : List Token) : Salvages limit rest rest [] []
  | keep {ts rest kept : List Token} {faults : List Fault} (t : Token)
      (behind : Salvages limit ts rest kept faults) :
      Salvages limit (t :: ts) rest (t :: kept) faults
  | lose {rest kept : List Token} {faults : List Fault} (lost : List Token) (fault : Fault)
      (abandoned : Abandoned limit lost fault)
      (behind : Salvages limit fault.rest rest kept faults) :
      Salvages limit (lost ++ fault.rest) rest kept (fault :: faults)

namespace Salvages

variable {limit : Nat} {ts us rest kept more : List Token} {faults later : List Fault}

theorem all (taken rest : List Token) : Salvages limit (taken ++ rest) rest taken [] := by
  induction taken with
  | nil => exact .done rest
  | cons t taken ih => exact .keep t ih

theorem trans (h : Salvages limit ts us kept faults) (behind : Salvages limit us rest more later) :
    Salvages limit ts rest (kept ++ more) (faults ++ later) := by
  induction h with
  | done us => exact behind
  | keep t _ ih => exact .keep t (ih behind)
  | lose lost fault abandoned _ ih => exact .lose lost fault abandoned (ih behind)

theorem sublist (h : Salvages limit ts rest kept faults) : (kept ++ rest).Sublist ts := by
  induction h with
  | done rest => exact List.Sublist.refl rest
  | keep t _ ih => exact ih.cons_cons t
  | lose lost fault _ _ ih => exact ih.trans (List.sublist_append_right lost fault.rest)

/-- Nothing is lost just if nothing was given up. -/
theorem whole_iff (h : Salvages limit ts rest kept faults) : kept ++ rest = ts ↔ faults = [] := by
  induction h with
  | done rest => simp
  | keep t _ ih => simpa using ih
  | lose lost fault abandoned behind _ =>
      have fewer := behind.sublist.length_le
      have some := List.length_pos_of_ne_nil abandoned.some
      constructor
      · intro same
        have := congrArg List.length same
        simp only [List.length_append] at this fewer
        omega
      · simp

end Salvages

/-- Where a statement or an item gives up it has abandoned what it took, if it took anything. -/
theorem abandoned_of_failed {rule : Form} (isRule : rule = .statement ∨ rule = .item)
    {limit n : Nat} (within : n ≤ limit) {frame : List Tree} {ts : List Token} {fault : Fault}
    {reported : List Fault} (failed : rule.readAt n frame ts = .failed fault reported) :
    fault.rest = ts ∨ ∃ lost, Abandoned limit lost fault ∧ lost ++ fault.rest = ts := by
  have ⟨productive, appends⟩ : rule.productive ∧ rule.appends := by
    rcases isRule with rfl | rfl <;> decide
  obtain ⟨lost, rfl⟩ : fault.rest <:+ ts := by
    simpa only [failed, Outcome.rest] using Form.readAt_suffix productive n frame ts
  -- What is in the frame makes no difference to where the rule gives up.
  have afresh : rule.readAt n [] (lost ++ fault.rest) = .failed fault reported := by
    have same := Form.readAt_into productive appends n frame [] (lost ++ fault.rest)
    rw [List.append_nil, failed] at same
    cases read : rule.readAt n [] (lost ++ fault.rest) <;> simp_all [Outcome.into]
  cases lost with
  | nil => exact .inl rfl
  | cons t lost =>
      exact .inr ⟨t :: lost, ⟨List.cons_ne_nil t lost, rule, isRule, n, within, reported, afresh⟩,
        rfl⟩

/-! ## Reading -/

/-- The tokens up to those left are leaves that were added to the frame, but for the runs that
were lost, and these were reported. -/
def Outcome.Salvaged (limit : Nat) (frame : List Tree) (ts : List Token) : Outcome → Prop
  | .done frame' rest reported => ∃ kept faults, Salvages limit ts rest kept faults ∧
      tokensAll frame' = tokensAll frame ++ kept ∧ faults.Sublist reported
  | .failed _ _ => True

namespace Outcome

variable {limit : Nat} {o : Outcome} {frame frame' : List Tree} {ts rest : List Token}

/-- Where nothing is reported nothing is lost. -/
theorem salvaged_of_conserves (limit : Nat)
    (h : (Outcome.done frame' rest []).Conserves frame ts) :
    (Outcome.done frame' rest []).Salvaged limit frame ts := by
  obtain ⟨taken, added, rfl, same, -, all⟩ := h
  obtain rfl := all rfl
  exact ⟨added, [], .all added rest, same, List.Sublist.refl []⟩

theorem Salvaged.andThen {next : Reader} (h : o.Salvaged limit frame ts)
    (hnext : ∀ frame' rest reported, o = .done frame' rest reported →
      (next frame' rest).Salvaged limit frame' rest) :
    (o.andThen next).Salvaged limit frame ts := by
  cases o with
  | failed fault reported => trivial
  | done middle between one =>
      obtain ⟨kept, faults, salvages, leaves, sublist⟩ := h
      have second := hnext middle between one rfl
      simp only [Outcome.andThen]
      cases later : next middle between with
      | failed fault two => trivial
      | done last rest two =>
          rw [later] at second
          obtain ⟨more, others, salvages', leaves', sublist'⟩ := second
          exact ⟨kept ++ more, faults ++ others, salvages.trans salvages',
            by rw [leaves', leaves, List.append_assoc], sublist.append sublist'⟩

theorem Salvaged.orElse {skip : List Token → Outcome} (h : o.Salvaged limit frame ts)
    (abandons : ∀ fault reported, o = .failed fault reported →
      fault.rest = ts ∨ ∃ lost, Abandoned limit lost fault ∧ lost ++ fault.rest = ts)
    (hskip : ∀ fault reported, o = .failed fault reported →
      (skip fault.rest).Salvaged limit frame fault.rest) :
    (o.orElse skip).Salvaged limit frame ts := by
  cases o with
  | done frame' rest reported => exact h
  | failed fault one =>
      have second := hskip fault one rfl
      simp only [Outcome.orElse]
      cases skipped : skip fault.rest with
      | failed fault' two => trivial
      | done last rest two =>
          rw [skipped] at second
          obtain ⟨kept, faults, salvages, leaves, sublist⟩ := second
          rcases abandons fault one rfl with same | ⟨lost, abandoned, rfl⟩
          · exact ⟨kept, faults, same ▸ salvages, leaves,
              (sublist.cons fault).trans (List.sublist_append_right one (fault :: two))⟩
          · exact ⟨kept, fault :: faults, .lose lost fault abandoned salvages, leaves,
              (sublist.cons_cons fault).trans (List.sublist_append_right one (fault :: two))⟩

end Outcome

theorem Reader.ofToken_salvaged (limit : Nat) (test : Token → Option Cause) (atEnd : Cause)
    (frame : List Tree) (ts : List Token) :
    (ofToken test atEnd frame ts).Salvaged limit frame ts := by
  have conserves := ofToken_conserves test atEnd frame ts
  rcases ofToken_cases test atEnd frame ts with ⟨cause, failed⟩ | ⟨t, rest, -, -, done⟩
  · rw [failed]
    trivial
  · rw [done] at conserves ⊢
    exact Outcome.salvaged_of_conserves limit conserves

namespace Form

/-- The form recovers from nothing but statements. -/
def mends : Form → Bool
  | .seq first second => first.mends && second.mends
  | .frame body => body.mends
  | .choose _ _ yes no => yes.mends && no.mends
  | .repeated _ _ body => body.mends
  | .recover (.frame (.enter .statement)) skip => skip.mends
  | .recover _ _ => false
  | _ => true

theorem mends_recover {body skip : Form} (h : (recover body skip).mends) :
    body = statement ∧ skip.mends := by
  unfold mends at h
  split at h <;> simp_all [statement]

end Form

theorem Entry.form_mends (entry : Entry) : entry.form.mends := by
  cases entry with
  | link least own => cases least <;> cases own <;> decide
  | _ => decide

namespace Form

theorem salvaged_inductive (limit : Nat) : Inductive fun n f frame ts =>
    n ≤ limit → f.mends → (f.readAt n frame ts).Salvaged limit frame ts where
  empty n frame ts _ _ := Outcome.salvaged_of_conserves limit (Outcome.conserves_idle frame ts)
  trivia n frame ts _ _ :=
    Outcome.salvaged_of_conserves limit (readAt_conserves (f := .trivia) rfl n frame ts)
  token n admits expected frame ts _ _ := Reader.ofToken_salvaged limit _ _ frame ts
  string n expected frame ts _ _ := Reader.ofToken_salvaged limit _ _ frame ts
  refuse n expected frame ts _ _ := trivial
  close n rule frame ts _ _ :=
    Outcome.salvaged_of_conserves limit (readAt_conserves (f := .close rule) rfl n frame ts)
  seq n first second frame ts ihFirst ihSecond within mends := by
    simp only [Form.mends, Bool.and_eq_true] at mends
    exact (ihFirst within mends.1).andThen fun frame' rest reported done =>
      ihSecond frame' rest reported done within mends.2
  frame n body outer ts ih within mends := by
    have inner := ih within mends
    rw [readAt_frame]
    cases read : body.readAt n [] ts with
    | failed fault reported => trivial
    | done frame' rest reported =>
        rw [read] at inner
        obtain ⟨kept, faults, salvages, leaves, sublist⟩ := inner
        refine ⟨kept, faults, salvages, ?_, sublist⟩
        rw [tokensAll_append, leaves]
        rfl
  choose n look admits yes no frame ts _ ihYes ihNo within mends := by
    simp only [Form.mends, Bool.and_eq_true] at mends
    rw [readAt_choose]
    split
    · rename_i looked
      exact ihYes looked within mends.1
    · rename_i failed
      exact ihNo (by simpa using failed) within mends.2
  stop n look admits body frame ts productive _ stopped _ _ := by
    rw [readAt_repeated productive, stopped]
    exact Outcome.salvaged_of_conserves limit (Outcome.conserves_idle frame ts)
  round n look admits body frame ts productive _ looked ihBody ihRest within mends := by
    rw [readAt_repeated productive, if_pos looked]
    exact (ihBody within mends).andThen fun frame' rest reported done =>
      ihRest frame' rest reported done within mends
  tooDeep entry frame ts _ _ := trivial
  enter n entry frame ts ih within _ := ih (by omega) entry.form_mends
  recover n body skip frame ts ihBody ihSkip within mends := by
    obtain ⟨rfl, mends⟩ := mends_recover mends
    exact (ihBody within rfl).orElse (fun fault reported => abandoned_of_failed (.inl rfl) within)
      fun fault reported failed => ihSkip fault reported failed within mends

/-- A form that recovers from statements only keeps all but what statements lose. -/
theorem readAt_salvaged {f : Form} (productive : f.productive) (mends : f.mends) {limit n : Nat}
    (within : n ≤ limit) (frame : List Tree) (ts : List Token) :
    (f.readAt n frame ts).Salvaged limit frame ts :=
  readAt_induct (salvaged_inductive limit) n productive frame ts within mends

/-- So does an item with what is skipped instead. -/
theorem item_salvaged {limit n : Nat} (within : n ≤ limit) (frame : List Tree) (ts : List Token) :
    ((recover item skippedItem).readAt n frame ts).Salvaged limit frame ts :=
  (readAt_salvaged (f := item) (by decide) (by decide) within frame ts).orElse
    (fun _ _ => abandoned_of_failed (.inr rfl) within)
    fun fault _ _ => readAt_salvaged (f := skippedItem) (by decide) (by decide) within frame fault.rest

/-- A script keeps all but what statements and items lose. -/
theorem script_salvaged {limit n : Nat} (within : n ≤ limit) (frame : List Tree)
    (ts : List Token) : (script.readAt n frame ts).Salvaged limit frame ts := by
  have gap := readAt_salvaged (f := .trivia) rfl rfl within frame ts
  by_cases next : nextKind ts = .eof
  · have read : script.readAt n frame ts = trivia.readAt n frame ts := script_end next
    rw [read]
    exact gap
  · have first : ((trivia >> recover item skippedItem).readAt n frame ts).Salvaged limit frame ts :=
      gap.andThen fun frame' rest _ _ => item_salvaged within frame' rest
    have flushed := Outcome.done_andThen (frame ++ (leadingTrivia ts).map Tree.leaf)
      (afterTrivia ts) ((recover item skippedItem).readAt n)
    rw [script_round next, ← flushed]
    exact first.andThen fun frame' rest reported done =>
      have shorter : Shorter rest ts := by
        simpa [Shorter] using shorter_of_item (by simpa using next) (flushed.symm.trans done)
      script_salvaged within frame' rest
termination_by (significant ts).length
decreasing_by exact shorter

end Form

end Grammar

/-! ## Scripts -/

/-- Tokens that all have a text cannot be left out without a trace. -/
theorem Token.eq_of_textOf {ts us : List Token} (sublist : ts.Sublist us)
    (solid : ∀ t ∈ us, t.text.toList ≠ []) (same : textOf ts = textOf us) : ts = us := by
  induction sublist with
  | slnil => rfl
  | cons t sublist ih =>
      have some := List.length_pos_of_ne_nil (solid t List.mem_cons_self)
      have fewer := (sublist.flatMap fun t => t.text.toList).length_le
      have length := congrArg List.length same
      rw [textOf_cons, List.length_append] at length
      simp only [textOf] at length
      omega
  | cons_cons t sublist ih =>
      rw [textOf_cons, textOf_cons, List.append_cancel_left_eq] at same
      rw [ih (fun t member => solid t (List.mem_cons_of_mem _ member)) same]

namespace Parsed

open Grammar (Form Fault Salvages)

/-- The leaves of a tree are the tokens of its script but for the runs that a statement or an item
lost, each of which was reported. -/
theorem salvages_root (limit : Nat) (ts : List Token) :
    ∃ faults, Salvages limit (body ts) [] (ofTokens limit ts).root.tokens faults ∧
      (faults.map (Diagnostic.ofFault limit (endSpan ts))).Sublist
        (ofTokens limit ts).diagnostics := by
  obtain ⟨parts, reported, done, whole⟩ := ofTokens_eq limit ts
  have salvaged := Form.script_salvaged (Nat.le_refl limit) [] (body ts)
  rw [done] at salvaged
  obtain ⟨kept, faults, salvages, leaves, sublist⟩ := salvaged
  obtain rfl : Tree.tokensAll parts = kept := leaves
  refine ⟨faults, ?_, ?_⟩
  · rw [whole, tokens_rootOf]
    exact salvages
  · rw [whole]
    exact sublist.map _

/-- **What recovery keeps.**  Whatever is wrong with a script, the leaves of its tree are its
tokens but for some runs, each of them what one statement or item had taken before it gave up,
which is reported; what was skipped from there on is kept.  The tree says the script just if there
are no such runs. -/
theorem ofText_salvages (limit : Nat) (source : String) :
    let ts := Token.ofText source.toList
    let parsed := ofText limit source
    ∃ faults, Salvages limit (body ts) [] parsed.root.tokens faults ∧
      (faults.map (Diagnostic.ofFault limit (endSpan ts))).Sublist parsed.diagnostics ∧
      (parsed.root.tokens = body ts ↔ faults = []) ∧
      (parsed.root.fullText = source ↔ faults = []) := by
  intro ts parsed
  obtain ⟨faults, salvages, reported⟩ := salvages_root limit ts
  have whole : parsed.root.tokens = body ts ↔ faults = [] := by
    have exact := salvages.whole_iff
    rwa [List.append_nil] at exact
  refine ⟨faults, salvages, reported, whole, ?_⟩
  rw [← whole, ← String.toList_inj, ← textOf_body source.toList]
  have text : parsed.root.fullText.toList = Token.textOf parsed.root.tokens :=
    toList_fullText_root limit ts
  rw [text]
  refine ⟨fun same => ?_, fun same => by rw [same]⟩
  exact Token.eq_of_textOf (tokens_root limit ts).1 text_ne_nil_of_mem_body same

/-- The statement gives up behind `a = `, and these tokens are lost. -/
theorem ofText_abandoned :
    let source := "process p \x7b a = ; \x7d"
    let parsed := ofText 256 source
    parsed.isOk = false ∧ parsed.root.tokens ≠ body (Token.ofText source.toList) ∧
      parsed.root.fullText ≠ source := by
  decide +kernel

end Parsed

end QuestScript
