/-
# QuestScript.Module.Catalog -- named entries

A catalog holds at most one entry under each name, in the order of the names' bytes.
Putting an entry under a name that is taken replaces the entry that was there.
`get?` is what a catalog holds, and `get?_put` says what putting does to it; the order
of the entries is part of the type.
-/
import QuestScript.Text.ByteOrder

namespace QuestScript

open Text (Precedes precedes_of_not)

set_option autoImplicit false

namespace Catalog

/-- Entries in the order of their names, no name twice. -/
def Ascending {α : Type} (entries : List (String × α)) : Prop :=
  entries.Pairwise fun a b => Precedes a.1 b.1

end Catalog

/-- Entries by name, in the order of the names. -/
structure Catalog (α : Type) where
  entries : List (String × α)
  ascending : Catalog.Ascending entries

namespace Catalog

variable {α : Type}

/-- Put an entry into its place, over the one that has the name. -/
def putEntry (name : String) (value : α) : List (String × α) → List (String × α)
  | [] => [(name, value)]
  | (n, v) :: rest =>
      if name = n then (name, value) :: rest
      else if Precedes name n then (name, value) :: (n, v) :: rest
      else (n, v) :: putEntry name value rest

theorem mem_putEntry {name : String} {value : α} {entries : List (String × α)}
    {entry : String × α} (h : entry ∈ putEntry name value entries) :
    entry = (name, value) ∨ entry ∈ entries := by
  induction entries with
  | nil => simpa [putEntry] using h
  | cons head rest ih =>
      obtain ⟨n, v⟩ := head
      simp only [putEntry] at h
      split at h
      · rcases List.mem_cons.mp h with h | h
        · exact .inl h
        · exact .inr (List.mem_cons_of_mem _ h)
      · split at h
        · rcases List.mem_cons.mp h with h | h
          · exact .inl h
          · exact .inr h
        · rcases List.mem_cons.mp h with h | h
          · exact .inr (by simp [h])
          · exact (ih h).imp id (List.mem_cons_of_mem _)

theorem ascending_putEntry {name : String} {value : α} {entries : List (String × α)}
    (h : Ascending entries) : Ascending (putEntry name value entries) := by
  induction entries with
  | nil => simp [putEntry, Ascending]
  | cons head rest ih =>
      obtain ⟨n, v⟩ := head
      obtain ⟨first, others⟩ := List.pairwise_cons.mp h
      simp only [putEntry]
      split
      · rename_i e
        subst e
        exact List.pairwise_cons.mpr ⟨first, others⟩
      · split
        · rename_i before
          refine List.pairwise_cons.mpr ⟨?_, h⟩
          intro entry he
          rcases List.mem_cons.mp he with rfl | he
          · exact before
          · exact before.trans (first entry he)
        · rename_i hne hnot
          refine List.pairwise_cons.mpr ⟨?_, ih others⟩
          intro entry he
          rcases mem_putEntry he with rfl | he
          · exact precedes_of_not hnot hne
          · exact first entry he

/-- A catalog without entries. -/
def empty : Catalog α := ⟨[], List.Pairwise.nil⟩

/-- Put an entry under a name. -/
def put (c : Catalog α) (name : String) (value : α) : Catalog α :=
  ⟨putEntry name value c.entries, ascending_putEntry c.ascending⟩

/-- The entry under a name. -/
def get? (c : Catalog α) (name : String) : Option α :=
  (c.entries.find? fun entry => entry.1 = name).map Prod.snd

/-- The names, in order. -/
def names (c : Catalog α) : List String := c.entries.map Prod.fst

/-- The entries in the order of their names. -/
def values (c : Catalog α) : List α := c.entries.map Prod.snd

theorem ext {c d : Catalog α} (h : c.entries = d.entries) : c = d := by
  cases c; cases d; simp_all

@[simp] theorem get?_empty (name : String) : (empty : Catalog α).get? name = none := rfl

/-- The last entry put under a name is the one found there. -/
theorem get?_put (c : Catalog α) (name other : String) (value : α) :
    (c.put name value).get? other = if name = other then some value else c.get? other := by
  obtain ⟨entries, h⟩ := c
  simp only [put, get?]
  clear h
  induction entries with
  | nil => by_cases e : name = other <;> simp [putEntry, e]
  | cons head rest ih =>
      obtain ⟨n, v⟩ := head
      simp only [putEntry]
      by_cases e : name = n
      · subst e
        by_cases e' : name = other <;> simp [e']
      · simp only [e, if_false]
        by_cases b : Precedes name n
        · rw [if_pos b]
          by_cases e' : name = other <;> simp [e']
        · rw [if_neg b]
          simp only [List.find?_cons]
          by_cases e' : n = other
          · have : name ≠ other := fun q => e (q.trans e'.symm)
            simp [e', this]
          · simpa [e'] using ih

end Catalog

end QuestScript
