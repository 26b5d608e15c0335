/-
# QuestScript.Proofs.Woven -- calls between the texts of statements

Statements are written as content, written as source, and searched for calls, each in a walk of
its own.  All three walks meet the leaves of the statements in the same order, that of their
places (`Statement.leavesFrom`): statements say what their leaves say and have the calls that
their leaves are (`renderAll_leaves`, `callsAll_leaves`).  A leaf is in that row just if it
stands at its place in the statements (`mem_leavesFrom_zero`), and no place comes twice
(`pairwise_leavesFrom`).

Along the row, content and source differ in the calls alone (`woven_of_leaves`).  So the source is
the content with each of the collected calls put in once, between pieces of it.
-/
import QuestScript.Statement.Rendering

namespace QuestScript

set_option autoImplicit false

/-- A call is at least its parentheses. -/
theorem Call.length_text_pos (c : Call) : 0 < c.text.length := by
  have opening : "(".length = 1 := rfl
  obtain ⟨_ | receiver, name, arguments⟩ := c <;>
    simp only [Call.text, String.length_append, opening] <;> omega

namespace Statement

/-! ## Places -/

/-- Where a statement stands: in which of its parts, in which of the parts of that, and so on. -/
abbrev Place := List Nat

/-- The part of a statement at a place in it. -/
def part? : Statement → Place → Option Statement
  | s, [] => some s
  | s, i :: place => s.children[i]?.bind fun child => child.part? place

/-- The part of some statements at a place among them; it begins with one of them. -/
def partAll? (ss : List Statement) : Place → Option Statement
  | [] => none
  | i :: place => ss[i]?.bind fun s => s.part? place

mutual

/-- The leaves of a statement, each with its place in it. -/
def leaves : Statement → List (Place × Statement)
  | .composite _ cs => leavesFrom 0 cs
  | .forLoop cs _ => leavesFrom 0 cs
  | .process _ cs => leavesFrom 0 cs
  | .function _ _ cs => leavesFrom 0 cs
  | leaf => [([], leaf)]

/-- The leaves of some statements, each with its place among them, the first being the `i`-th. -/
def leavesFrom (i : Nat) : List Statement → List (Place × Statement)
  | [] => []
  | s :: ss => s.leaves.map (fun leaf => (i :: leaf.1, leaf.2)) ++ leavesFrom (i + 1) ss

end

theorem leaves_of_isComposite {s : Statement} (h : s.isComposite) :
    s.leaves = leavesFrom 0 s.children := by
  cases s <;> first | rfl | simp [isComposite] at h

theorem calls_of_isComposite {s : Statement} (h : s.isComposite) :
    s.calls = callsAll s.children := by
  cases s <;> first | rfl | simp [isComposite] at h

theorem leaves_of_leaf {s : Statement} (h : s.isComposite = false) : s.leaves = [([], s)] := by
  cases s <;> first | rfl | simp [isComposite] at h

theorem children_of_leaf {s : Statement} (h : s.isComposite = false) : s.children = [] := by
  cases s <;> first | rfl | simp [isComposite] at h

theorem callsAll_append (ss ts : List Statement) :
    callsAll (ss ++ ts) = callsAll ss ++ callsAll ts := by
  induction ss with
  | nil => rfl
  | cons s ss ih => simp [callsAll, ih]

/-- Induction along some statements and into each of them. -/
theorem walk_induction {motive : List Statement → Prop} (nil : motive [])
    (leaf : ∀ s ss, s.isComposite = false → motive ss → motive (s :: ss))
    (composite : ∀ s ss, s.isComposite → motive s.children → motive ss → motive (s :: ss))
    (ss : List Statement) : motive ss := by
  -- Of one statement it is said that it may be put in front of any others.
  apply @Statement.rec_1 (fun s => ∀ ss, motive ss → motive (s :: ss)) motive
  case typeRef | primary | call => exact fun _ ss => leaf _ ss rfl
  case token => exact fun _ _ ss => leaf _ ss rfl
  case composite | forLoop | process => exact fun _ _ within ss => composite _ ss rfl within
  case function => exact fun _ _ _ within ss => composite _ ss rfl within
  case nil => exact nil
  case cons => exact fun _ ss ahead behind => ahead ss behind

/-! ## The row of leaves -/

section Row

variable {i : Nat} {s : Statement} {ss : List Statement}

theorem leavesFrom_leaf (h : s.isComposite = false) (i : Nat) (ss : List Statement) :
    leavesFrom i (s :: ss) = ([i], s) :: leavesFrom (i + 1) ss := by
  rw [leavesFrom, leaves_of_leaf h]
  rfl

theorem leavesFrom_composite (h : s.isComposite) (i : Nat) (ss : List Statement) :
    leavesFrom i (s :: ss) = (leavesFrom 0 s.children).map (fun leaf => (i :: leaf.1, leaf.2)) ++
      leavesFrom (i + 1) ss := by
  rw [leavesFrom, leaves_of_isComposite h]

/-- Statements say what their leaves say. -/
theorem renderAll_leaves (r : Rendering) (i : Nat) (ss : List Statement) :
    renderAll r ((leavesFrom i ss).map Prod.snd) = renderAll r ss := by
  induction ss using walk_induction generalizing i with
  | nil => rfl
  | leaf s ss isLeaf ih => rw [leavesFrom_leaf isLeaf, List.map_cons, renderAll, ih, renderAll]
  | composite s ss isComposite within ih =>
      rw [leavesFrom_composite isComposite, List.map_append, List.map_map, renderAll_append, ih,
        renderAll, render_of_isComposite isComposite, ← within 0]
      rfl

/-- The calls of statements are those among their leaves. -/
theorem callsAll_leaves (i : Nat) (ss : List Statement) :
    callsAll ((leavesFrom i ss).map Prod.snd) = callsAll ss := by
  induction ss using walk_induction generalizing i with
  | nil => rfl
  | leaf s ss isLeaf ih => rw [leavesFrom_leaf isLeaf, List.map_cons, callsAll, ih, callsAll]
  | composite s ss isComposite within ih =>
      rw [leavesFrom_composite isComposite, List.map_append, List.map_map, callsAll_append, ih,
        callsAll, calls_of_isComposite isComposite, ← within 0]
      rfl

theorem mem_leavesFrom {place : Place} {leaf : Statement} : (place, leaf) ∈ leavesFrom i ss ↔
    ∃ j s rest, place = (i + j) :: rest ∧ ss[j]? = some s ∧ (rest, leaf) ∈ s.leaves := by
  induction ss generalizing i with
  | nil => simp [leavesFrom]
  | cons s ss ih =>
      have first : (place, leaf) ∈ s.leaves.map (fun leaf => (i :: leaf.1, leaf.2)) ↔
          ∃ rest, place = i :: rest ∧ (rest, leaf) ∈ s.leaves := by
        rw [List.mem_map]
        constructor
        · rintro ⟨⟨rest, _⟩, member, same⟩
          obtain ⟨rfl, rfl⟩ := Prod.mk.inj same
          exact ⟨rest, rfl, member⟩
        · rintro ⟨rest, rfl, member⟩
          exact ⟨_, member, rfl⟩
      rw [leavesFrom, List.mem_append, first, ih]
      constructor
      · rintro (⟨rest, rfl, member⟩ | ⟨j, t, rest, rfl, found, member⟩)
        · exact ⟨0, s, rest, rfl, rfl, member⟩
        · exact ⟨j + 1, t, rest, by rw [Nat.add_assoc, Nat.add_comm 1 j], found, member⟩
      · rintro ⟨_ | j, t, rest, rfl, found, member⟩
        · obtain rfl : s = t := by simpa using found
          exact .inl ⟨rest, rfl, member⟩
        · exact .inr ⟨j, t, rest, by rw [Nat.add_assoc, Nat.add_comm 1 j], found, member⟩

theorem nil_notMem_leavesFrom {leaf : Statement} : ([], leaf) ∉ leavesFrom i ss := by
  intro member
  obtain ⟨j, _, rest, place, -⟩ := mem_leavesFrom.mp member
  cases place

theorem cons_mem_leavesFrom {j : Nat} {rest : Place} {leaf : Statement} :
    (j :: rest, leaf) ∈ leavesFrom 0 ss ↔ ∃ s, ss[j]? = some s ∧ (rest, leaf) ∈ s.leaves := by
  rw [mem_leavesFrom]
  constructor
  · rintro ⟨k, s, _, same, found, member⟩
    rw [Nat.zero_add] at same
    obtain ⟨rfl, rfl⟩ := List.cons.inj same
    exact ⟨s, found, member⟩
  · rintro ⟨s, found, member⟩
    exact ⟨j, s, rest, by rw [Nat.zero_add], found, member⟩

theorem mem_leaves {place : Place} {leaf : Statement} :
    (place, leaf) ∈ s.leaves ↔ s.part? place = some leaf ∧ leaf.isComposite = false := by
  suffices all : ∀ ss : List Statement, ∀ s ∈ ss, ∀ place, (place, leaf) ∈ s.leaves ↔
      s.part? place = some leaf ∧ leaf.isComposite = false from
    all [s] s (by simp) place
  intro ss
  induction ss using walk_induction with
  | nil => simp
  | leaf s ss isLeaf ih =>
      refine List.forall_mem_cons.mpr ⟨fun place => ?_, ih⟩
      cases place with
      | nil =>
          rw [leaves_of_leaf isLeaf, part?]
          simp only [List.mem_singleton, Prod.mk.injEq, true_and, Option.some.injEq]
          exact ⟨fun same => ⟨same.symm, same ▸ isLeaf⟩, fun h => h.1.symm⟩
      | cons j rest => simp [leaves_of_leaf isLeaf, part?, children_of_leaf isLeaf]
  | composite s ss isComposite within ih =>
      refine List.forall_mem_cons.mpr ⟨fun place => ?_, ih⟩
      rw [leaves_of_isComposite isComposite]
      cases place with
      | nil =>
          rw [part?, Option.some.injEq]
          refine iff_of_false nil_notMem_leavesFrom ?_
          rintro ⟨rfl, isLeaf⟩
          simp [isComposite] at isLeaf
      | cons j rest =>
          rw [cons_mem_leavesFrom, part?, Option.bind_eq_some_iff]
          constructor
          · rintro ⟨c, found, member⟩
            obtain ⟨whole, isLeaf⟩ := (within c (List.mem_of_getElem? found) rest).mp member
            exact ⟨⟨c, found, whole⟩, isLeaf⟩
          · rintro ⟨⟨c, found, whole⟩, isLeaf⟩
            exact ⟨c, found, (within c (List.mem_of_getElem? found) rest).mpr ⟨whole, isLeaf⟩⟩

/-- A leaf is in the row at its place, and nothing else is. -/
theorem mem_leavesFrom_zero {place : Place} {leaf : Statement} : (place, leaf) ∈ leavesFrom 0 ss ↔
    partAll? ss place = some leaf ∧ leaf.isComposite = false := by
  cases place with
  | nil => simp [nil_notMem_leavesFrom, partAll?]
  | cons j rest =>
      rw [cons_mem_leavesFrom, partAll?, Option.bind_eq_some_iff]
      simp only [mem_leaves, ← and_assoc, exists_and_right]

/-- The places of the leaves ascend. -/
theorem pairwise_leavesFrom (i : Nat) (ss : List Statement) :
    (leavesFrom i ss).Pairwise fun l m => l.1 < m.1 := by
  induction ss using walk_induction generalizing i with
  | nil => exact .nil
  | leaf s ss isLeaf ih =>
      rw [leavesFrom_leaf isLeaf]
      refine .cons (fun m member => ?_) (ih (i + 1))
      obtain ⟨j, _, rest, place, -⟩ := mem_leavesFrom.mp member
      rw [place]
      exact List.Lex.rel (by omega)
  | composite s ss isComposite within ih =>
      rw [leavesFrom_composite isComposite]
      refine List.pairwise_append.mpr ⟨?_, ih (i + 1), ?_⟩
      · exact List.pairwise_map.mpr ((within 0).imp fun less => List.Lex.cons less)
      · intro l inside m member
        obtain ⟨⟨place, leaf⟩, -, rfl⟩ := List.mem_map.mp inside
        obtain ⟨j, _, rest, place, -⟩ := mem_leavesFrom.mp member
        rw [place]
        exact List.Lex.rel (by omega)

end Row

/-! ## Calls between texts -/

/-- A text in pieces, one before the first call and one behind each: the one text is made of the
pieces alone, and the other has the calls between them. -/
def Woven (calls : List Call) (content source : String) : Prop :=
  ∃ (first : String) (rest : List (Call × String)), rest.map Prod.fst = calls ∧
    content = first ++ String.join (rest.map Prod.snd) ∧
    source = first ++ String.join (rest.map fun piece => piece.1.text ++ piece.2)

section Woven

variable {calls : List Call} {content source : String}

/-- A text may be put before both. -/
theorem Woven.text (h : Woven calls content source) (text : String) :
    Woven calls (text ++ content) (text ++ source) := by
  obtain ⟨first, rest, named, rfl, rfl⟩ := h
  exact ⟨text ++ first, rest, named, (String.append_assoc ..).symm, (String.append_assoc ..).symm⟩

/-- A call may be put before the one of them that has calls. -/
theorem Woven.call (h : Woven calls content source) (c : Call) :
    Woven (c :: calls) content (c.text ++ source) := by
  obtain ⟨first, rest, rfl, rfl, rfl⟩ := h
  exact ⟨"", (c, first) :: rest, by simp, by simp, by simp [String.append_assoc]⟩

/-- The one text is longer by a character at least for each call. -/
theorem Woven.length_le (h : Woven calls content source) :
    content.length + calls.length ≤ source.length := by
  obtain ⟨first, rest, rfl, rfl, rfl⟩ := h
  induction rest with
  | nil => exact Nat.le_refl _
  | cons piece rest ih =>
      have some := piece.1.length_text_pos
      simp only [String.length_append, List.map_cons, String.join_cons, List.length_cons] at ih ⊢
      omega

theorem Woven.eq_iff (h : Woven calls content source) : content = source ↔ calls = [] := by
  constructor
  · rintro rfl
    have none := h.length_le
    exact List.eq_nil_of_length_eq_zero (by omega)
  · rintro rfl
    obtain ⟨first, rest, none, rfl, rfl⟩ := h
    rw [List.map_eq_nil_iff.mp none]
    rfl

end Woven

/-- Leaves say the same as content and as source, but for the calls. -/
theorem woven_of_leaves (pad : Bool) {ls : List Statement} (h : ∀ l ∈ ls, l.isComposite = false) :
    Woven (callsAll ls) (renderAll ⟨.content, pad⟩ ls) (renderAll ⟨.source, pad⟩ ls) := by
  induction ls with
  | nil => exact ⟨"", [], rfl, rfl, rfl⟩
  | cons l ls ih =>
      obtain ⟨isLeaf, below⟩ := List.forall_mem_cons.mp h
      have woven := ih below
      rw [callsAll, renderAll, renderAll]
      cases l with
      | call c => simpa [calls, render, Rendering.call] using woven.call c
      | typeRef text | primary text | token kind text => exact woven.text _
      | composite | forLoop | process | function => simp [isComposite] at isLeaf

/-- The call that a statement is. -/
def call? : Statement → Option Call
  | .call c => some c
  | _ => none

theorem call?_eq_some {s : Statement} {c : Call} : s.call? = some c ↔ s = .call c := by
  cases s <;> simp [call?]

theorem calls_eq_toList {s : Statement} (h : s.isComposite = false) : s.calls = s.call?.toList := by
  cases s <;> first | rfl | simp [isComposite] at h

theorem callsAll_of_leaves {ls : List Statement} (h : ∀ l ∈ ls, l.isComposite = false) :
    callsAll ls = ls.filterMap call? := by
  induction ls with
  | nil => rfl
  | cons l ls ih =>
      obtain ⟨isLeaf, below⟩ := List.forall_mem_cons.mp h
      rw [callsAll, ih below, calls_eq_toList isLeaf, List.filterMap_cons]
      cases l.call? <;> rfl

/-- The calls among some statements, each with its place. -/
def placedCalls (ss : List Statement) : List (Place × Call) :=
  (leavesFrom 0 ss).filterMap fun leaf => leaf.2.call?.map (leaf.1, ·)

section Placed

variable {ss : List Statement}

theorem isComposite_of_mem_row {l : Statement} (h : l ∈ (leavesFrom 0 ss).map Prod.snd) :
    l.isComposite = false := by
  obtain ⟨⟨place, leaf⟩, inside, rfl⟩ := List.mem_map.mp h
  exact (mem_leavesFrom_zero.mp inside).2

/-- They are the calls that are collected, in the same order. -/
theorem map_snd_placedCalls (ss : List Statement) :
    (placedCalls ss).map Prod.snd = callsAll ss := by
  have named (leaf : Place × Statement) :
      (leaf.2.call?.map (leaf.1, ·)).map Prod.snd = leaf.2.call? := by
    cases leaf.2.call? <;> rfl
  rw [← callsAll_leaves 0, callsAll_of_leaves fun l => isComposite_of_mem_row,
    List.filterMap_map, placedCalls, List.map_filterMap]
  congr 1
  exact funext named

theorem pairwise_placedCalls (ss : List Statement) :
    (placedCalls ss).Pairwise fun a b => a.1 < b.1 := by
  refine (pairwise_leavesFrom 0 ss).filterMap _ fun l m less a ha b hb => ?_
  obtain ⟨c, -, rfl⟩ := Option.map_eq_some_iff.mp ha
  obtain ⟨d, -, rfl⟩ := Option.map_eq_some_iff.mp hb
  exact less

theorem mem_placedCalls {place : Place} {c : Call} :
    (place, c) ∈ placedCalls ss ↔ partAll? ss place = some (.call c) := by
  rw [placedCalls, List.mem_filterMap]
  constructor
  · rintro ⟨⟨_, leaf⟩, inside, found⟩
    obtain ⟨_, isCall, same⟩ := Option.map_eq_some_iff.mp found
    obtain ⟨rfl, rfl⟩ := Prod.mk.inj same
    rw [← call?_eq_some.mp isCall]
    exact (mem_leavesFrom_zero.mp inside).1
  · exact fun found => ⟨(place, .call c), mem_leavesFrom_zero.mpr ⟨found, rfl⟩, rfl⟩

end Placed

/-- **Content, source and calls fit together**: with padding and without, the source of some
statements is their content with the collected calls put in, each once and in order, so the two
are the same only where there are no calls; and the calls are collected in the order of their
places, one from every place where a call stands and none from elsewhere. -/
theorem renderAll_woven (pad : Bool) (ss : List Statement) :
    (∃ (first : String) (rest : List (Call × String)), rest.map Prod.fst = callsAll ss ∧
      renderAll ⟨.content, pad⟩ ss = first ++ String.join (rest.map Prod.snd) ∧
      renderAll ⟨.source, pad⟩ ss =
        first ++ String.join (rest.map fun piece => piece.1.text ++ piece.2)) ∧
    (renderAll ⟨.content, pad⟩ ss = renderAll ⟨.source, pad⟩ ss ↔ callsAll ss = []) ∧
    ∃ placed : List (Place × Call), placed.map Prod.snd = callsAll ss ∧
      placed.Pairwise (fun a b => a.1 < b.1) ∧
      ∀ place c, (place, c) ∈ placed ↔ partAll? ss place = some (.call c) := by
  have woven : Woven (callsAll ss) (renderAll ⟨.content, pad⟩ ss) (renderAll ⟨.source, pad⟩ ss) := by
    rw [← renderAll_leaves ⟨.content, pad⟩ 0 ss, ← renderAll_leaves ⟨.source, pad⟩ 0 ss,
      ← callsAll_leaves 0 ss]
    exact woven_of_leaves pad fun l => isComposite_of_mem_row
  exact ⟨woven, woven.eq_iff, placedCalls ss, map_snd_placedCalls ss, pairwise_placedCalls ss,
    fun _ _ => mem_placedCalls⟩

end Statement

end QuestScript
