/-
# QuestScript.Proofs.ShownPaths -- where the report of a script is written

A report is written at the path that is shown for its script, with an ending of its own.  What
is shown of a name that is no text stands for other names too, so different scripts may be
shown by one path, and then their reports have one place.  That is the only way: scripts that
are shown by different paths have reports in different places (`Path.text_eq_of_target`), and
paths whose names are all texts are shown by different paths (`Path.eq_of_text`).

Both rest on one fact about what is shown.  A slash is a single byte that no character goes on
with, so what is shown of a path are its names, each as it is shown alone, with slashes between
them (`Path.text_eq`), and the names can be read off again.
-/
import QuestScript.Batch.Path

namespace QuestScript

open Text (bytes shown)

set_option autoImplicit false

/-! ## What is shown around a byte -/

namespace Text

section Byte

variable {c : Char} {b : UInt8} {bs rest : List UInt8}

/-- A byte that is a character goes on with no other. -/
theorem prefix_of_prefix_append (single : String.utf8EncodeChar c = [b]) {d : Char}
    (some : bs ≠ []) (h : String.utf8EncodeChar d <+: bs ++ b :: rest) :
    String.utf8EncodeChar d <+: bs := by
  have first : b.IsUTF8FirstByte := by
    have head := UInt8.isUTF8FirstByte_getElem_zero_utf8EncodeChar (c := c)
    simpa [single] using head
  rcases Nat.lt_or_ge bs.length (String.utf8EncodeChar d).length with beyond | within
  · have here : (String.utf8EncodeChar d)[bs.length] = b := by
      rw [h.getElem beyond, List.getElem_append_right (Nat.le_refl _)]
      simp
    have start := UInt8.isUTF8FirstByte_getElem_utf8EncodeChar.mp (here ▸ first)
    exact absurd (List.length_eq_zero_iff.mp start) some
  · exact List.prefix_of_prefix_length_le h (List.prefix_append _ _) within

theorem utf8Size_eq_one (single : String.utf8EncodeChar c = [b]) : c.utf8Size = 1 := by
  rw [← String.length_utf8EncodeChar, single, List.length_singleton]

theorem firstChar?_append (single : String.utf8EncodeChar c = [b]) (some : bs ≠ []) :
    firstChar? (bs ++ b :: rest) = firstChar? bs := by
  refine Option.ext fun d => ?_
  rw [firstChar?_eq_some_iff, firstChar?_eq_some_iff]
  exact ⟨prefix_of_prefix_append single some, fun h => h.trans (List.prefix_append _ _)⟩

theorem not_continues_of_ascii (ascii : b < 0x80) : continues b = false := by
  have notMore : ¬ 0x80 ≤ b := UInt8.not_le.mpr ascii
  simp [continues, notMore]

theorem not_beginsLong_of_ascii (ascii : b < 0x80) (first : UInt8) :
    beginsLong first b = false := by
  have tooSmall (least : UInt8) (atLeast : 0x80 ≤ least) : decide (least ≤ b) = false :=
    decide_eq_false (UInt8.not_le.mpr (UInt8.lt_of_lt_of_le ascii atLeast))
  unfold beginsLong
  split
  · simp [tooSmall 0xA0 (by decide)]
  · split
    · simp [tooSmall 0x90 (by decide)]
    · simp [tooSmall 0x80 (by decide)]

theorem brokenExtent_append (ascii : b < 0x80) (first : UInt8) :
    brokenExtent first (bs ++ b :: rest) = brokenExtent first bs := by
  match bs with
  | [] => simp [brokenExtent, not_beginsLong_of_ascii ascii]
  | [second] => simp [brokenExtent, not_continues_of_ascii ascii]
  | second :: third :: more => simp [brokenExtent]

theorem brokenExtent_le (first : UInt8) (bs : List UInt8) : brokenExtent first bs ≤ bs.length := by
  fun_cases brokenExtent first bs with
  | case2 second rest _ two =>
      cases rest with
      | nil => simp at two
      | cons third rest => simp
  | _ => simp

/-- What is shown of bytes does not depend on what is behind such a byte, nor on what is before. -/
theorem shownFrom_append_cons (single : String.utf8EncodeChar c = [b]) (ascii : b < 0x80)
    {skip : Nat} (within : skip ≤ bs.length) :
    shownFrom skip (bs ++ b :: rest) = shownFrom skip bs ++ c :: shownFrom 0 rest := by
  induction bs generalizing skip with
  | nil =>
      obtain rfl := Nat.le_zero.mp within
      have first : firstChar? (b :: rest) = some c :=
        firstChar?_eq_some_iff.mpr (single ▸ List.prefix_append [b] rest)
      have begins : shownFrom 0 (b :: rest) = c :: shownFrom 0 rest := by
        rw [shownFrom, first]
        simp [utf8Size_eq_one single]
      simpa [shownFrom] using begins
  | cons first bs ih =>
      cases skip with
      | succ skip => exact ih (Nat.le_of_succ_le_succ within)
      | zero =>
          rw [List.cons_append, shownFrom, shownFrom, ← List.cons_append,
            firstChar?_append single (List.cons_ne_nil first bs)]
          cases read : firstChar? (first :: bs) with
          | some d =>
              have fits : d.utf8Size ≤ (first :: bs).length := by
                rw [← String.length_utf8EncodeChar]
                exact (firstChar?_eq_some_iff.mp read).length_le
              have inside : d.utf8Size - 1 ≤ bs.length := by
                rw [List.length_cons] at fits
                omega
              simp only [ih inside, List.cons_append]
          | none =>
              simp only [brokenExtent_append ascii, ih (brokenExtent_le first bs),
                List.cons_append]

/-- A character of a single byte is only shown where the byte is. -/
theorem mem_of_mem_shownFrom (single : String.utf8EncodeChar c = [b]) (own : c ≠ replacement)
    {skip : Nat} (member : c ∈ shownFrom skip bs) : b ∈ bs := by
  fun_induction shownFrom skip bs with
  | case1 => simp at member
  | case2 skip first bs ih => exact List.mem_cons_of_mem _ (ih member)
  | case3 first bs d read ih =>
      rcases List.mem_cons.mp member with rfl | later
      · have begins := firstChar?_eq_some_iff.mp read
        rw [single, List.cons_prefix_cons] at begins
        exact begins.1 ▸ List.mem_cons_self
      · exact List.mem_cons_of_mem _ (ih later)
  | case4 first bs read ih =>
      rcases List.mem_cons.mp member with same | later
      · exact absurd same own
      · exact List.mem_cons_of_mem _ (ih later)

theorem shownFrom_eq_nil : shownFrom 0 bs = [] ↔ bs = [] := by
  cases bs with
  | nil => simp [shownFrom]
  | cons first bs => rw [shownFrom]; split <;> simp

/-- Only the byte is shown as its character. -/
theorem eq_of_shownFrom (single : String.utf8EncodeChar c = [b]) (own : c ≠ replacement)
    (alone : shownFrom 0 bs = [c]) : bs = [b] := by
  cases bs with
  | nil => simp [shownFrom] at alone
  | cons first bs =>
      rw [shownFrom] at alone
      split at alone
      · rename_i d read
        obtain ⟨rfl, rest⟩ := List.cons.inj alone
        rw [utf8Size_eq_one single, Nat.sub_self, shownFrom_eq_nil] at rest
        have begins := firstChar?_eq_some_iff.mp read
        rw [single, List.cons_prefix_cons] at begins
        rw [begins.1, rest]
      · exact absurd (List.cons.inj alone).1.symm own

end Byte

end Text

namespace Batch.Path

/-! ## Names -/

/-- What a folder may list a file under. -/
structure IsName (name : Name) : Prop where
  some : name ≠ []
  leads : name ≠ bytes "."
  plain : slash ∉ name

instance (name : Name) : Decidable (IsName name) :=
  decidable_of_iff (name ≠ [] ∧ name ≠ bytes "." ∧ slash ∉ name)
    ⟨fun h => ⟨h.1, h.2.1, h.2.2⟩, fun h => ⟨h.some, h.leads, h.plain⟩⟩

/-- The path is made of names. -/
structure Proper (path : Path) : Prop where
  some : path ≠ []
  names : ∀ name ∈ path, IsName name

/-- The names of the path are texts. -/
def IsText (path : Path) : Prop := ∃ names : List String, names.map bytes = path

/-- What may stand between the slashes of a text and names something there. -/
structure IsStep (name : String) : Prop where
  some : name ≠ ""
  leads : name ≠ "."
  plain : '/' ∉ name.toList

theorem IsName.shown {name : Name} (h : IsName name) : IsStep (shown name) where
  some none := h.some (Text.shownFrom_eq_nil.mp (String.ofList_eq_empty_iff.mp none))
  leads dot := by
    have alone : Text.shownFrom 0 name = ['.'] := by
      rw [← String.toList_ofList (l := Text.shownFrom 0 name)]
      exact congrArg String.toList dot
    exact h.leads (Text.eq_of_shownFrom (by decide) (by decide) alone)
  plain member := by
    rw [Text.shown, String.toList_ofList] at member
    exact h.plain (Text.mem_of_mem_shownFrom (by decide) (by decide) member)

/-- What is shown of a path are its names as they are shown, with slashes between them. -/
theorem text_eq (path : Path) : text path = "/".intercalate (path.map shown) := by
  induction path with
  | nil => rfl
  | cons name path ih =>
      cases path with
      | nil => simp [text]
      | cons next path =>
          rw [List.map_cons, String.intercalate_cons_of_ne_nil (by simp), ← ih]
          have whole : [slash].intercalate (name :: next :: path) =
              name ++ slash :: [slash].intercalate (next :: path) := by simp [List.intercalate]
          rw [text, text, whole, Text.shown, Text.shown, Text.shown,
            Text.shownFrom_append_cons (c := '/') (by decide) (by decide) (Nat.zero_le _)]
          simp [String.append_assoc]

/-- Names between slashes can be read off. -/
theorem ofText_intercalate {names : List String} (some : names ≠ [])
    (steps : ∀ name ∈ names, IsStep name) :
    ofText ("/".intercalate names) = names.map bytes := by
  have plain : ∀ name ∈ names, '/' ∉ name.toList := fun name member => (steps name member).plain
  rw [ofText, show "/" = String.singleton '/' from rfl, String.toList_split_intercalate plain,
    if_neg some, List.filter_eq_self.mpr]
  intro name member
  obtain ⟨some, leads, -⟩ := steps name member
  simp [some, leads]

/-- Paths of texts are shown differently. -/
theorem eq_of_text {path other : Path} (proper : Proper path) (isText : IsText path)
    (proper' : Proper other) (isText' : IsText other) (same : text path = text other) :
    path = other := by
  have read {path : Path} (proper : Proper path) (isText : IsText path) :
      ofText (text path) = path := by
    obtain ⟨names, rfl⟩ := isText
    rw [text_eq, ofText_intercalate (by simpa using proper.some)]
    · simp [Text.shown_bytes]
    · intro name member
      obtain ⟨known, among, rfl⟩ := List.mem_map.mp member
      exact (proper.names known among).shown
  rw [← read proper isText, same, read proper' isText']

/-! ## Reports -/

/-- The names with an ending behind the last of them. -/
def extended (ending : String) : List String → List String
  | [] => []
  | [name] => [name ++ ending]
  | name :: next :: names => name :: extended ending (next :: names)

variable {names : List String} {ending : String}

theorem extended_ne_nil (some : names ≠ []) : extended ending names ≠ [] := by
  fun_cases extended ending names <;> simp_all

theorem intercalate_extended (some : names ≠ []) :
    "/".intercalate (extended ending names) = "/".intercalate names ++ ending := by
  induction names with
  | nil => exact absurd rfl some
  | cons name names ih =>
      cases names with
      | nil => simp [extended]
      | cons next names =>
          have behind := ih (List.cons_ne_nil next names)
          rw [extended, String.intercalate_cons_of_ne_nil (extended_ne_nil (List.cons_ne_nil _ _)),
            behind, String.intercalate_cons_cons]
          simp [String.append_assoc]

theorem IsStep.append {name : String} (h : IsStep name) : IsStep (name ++ ".json") where
  some none := by simp at none
  leads dot := by
    have long := congrArg (fun text => text.toList.length) dot
    simp at long
  plain member := by
    rw [String.toList_append, List.mem_append] at member
    exact member.elim h.plain (by decide)

theorem isStep_extended (steps : ∀ name ∈ names, IsStep name) :
    ∀ name ∈ extended ".json" names, IsStep name := by
  induction names with
  | nil => simp [extended]
  | cons name names ih =>
      obtain ⟨first, others⟩ := List.forall_mem_cons.mp steps
      cases names with
      | nil => simpa [extended] using first.append
      | cons next names =>
          rw [extended, List.forall_mem_cons]
          exact ⟨first, ih others⟩

/-- The names on the way to a report. -/
theorem ofText_target {path : Path} (proper : Proper path) :
    ofText (text path ++ ".json") = (extended ".json" (path.map shown)).map bytes := by
  have some : path.map shown ≠ [] := by simpa using proper.some
  have steps : ∀ name ∈ path.map shown, IsStep name := by
    intro name member
    obtain ⟨known, among, rfl⟩ := List.mem_map.mp member
    exact (proper.names known among).shown
  rw [text_eq, ← intercalate_extended some,
    ofText_intercalate (extended_ne_nil some) (isStep_extended steps)]

/-- Scripts have their reports in one place only if their paths are shown alike. -/
theorem text_eq_of_target {path other : Path} (proper : Proper path) (proper' : Proper other)
    (same : ofText (text path ++ ".json") = ofText (text other ++ ".json")) :
    text path = text other := by
  have some {path : Path} (proper : Proper path) : path.map shown ≠ [] := by
    simpa using proper.some
  rw [ofText_target proper, ofText_target proper'] at same
  have names := congrArg (fun way => "/".intercalate (way.map shown)) same
  simp only [List.map_map, Function.comp_def, Text.shown_bytes, List.map_id'] at names
  rwa [intercalate_extended (some proper), intercalate_extended (some proper'),
    String.append_left_inj, ← text_eq, ← text_eq] at names

end Batch.Path

end QuestScript
