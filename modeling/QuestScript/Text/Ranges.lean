/-
# QuestScript.Text.Ranges -- sets of characters as ascending ranges

Character properties are kept as lists of closed ranges of code points in ascending
order.  `Ranges.has` walks the list and stops at the first range that begins beyond
the character; on an ascending list that is membership in one of the ranges.
-/

namespace QuestScript.Text

set_option autoImplicit false

/-- Closed ranges of code points, ascending and apart from each other. -/
abbrev Ranges := List (Nat × Nat)

namespace Ranges

/-- Some range holds the character. -/
def has : Ranges → Char → Bool
  | [], _ => false
  | (lo, hi) :: rest, c =>
      if c.toNat < lo then false else if c.toNat ≤ hi then true else has rest c

/-- A character found lies in one of the ranges. -/
theorem exists_of_has {rs : Ranges} {c : Char} (h : has rs c = true) :
    ∃ r ∈ rs, r.1 ≤ c.toNat ∧ c.toNat ≤ r.2 := by
  induction rs with
  | nil => simp [has] at h
  | cons r rest ih =>
      obtain ⟨lo, hi⟩ := r
      simp only [has] at h
      split at h
      · cases h
      · split at h
        · exact ⟨(lo, hi), by simp, by simp only; omega, by assumption⟩
        · obtain ⟨r, hr, bounds⟩ := ih h
          exact ⟨r, by simp [hr], bounds⟩

end Ranges

end QuestScript.Text
