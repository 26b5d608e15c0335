/-
# QuestScript.Text.Enclosed -- text between two marks

Arguments stand between parentheses, string values between quotes.  `inside?` takes the
marks off a text that has both; one character cannot be both marks.
-/
import QuestScript.Text.Blank

namespace QuestScript.Text

set_option autoImplicit false

/-- What stands between `first` and `last`, when the text begins and ends with them. -/
def inside? (first last : Char) : List Char → Option (List Char)
  | [] => none
  | c :: cs => if c = first ∧ cs.getLast? = some last then some cs.dropLast else none

/-- A text without its quotes, if it stands in quotes of either kind. -/
def unquoted (text : String) : String :=
  match inside? '"' '"' text.toList <|> inside? '\'' '\'' text.toList with
  | some inner => String.ofList inner
  | none => text

/-- A text without the blanks at both ends. -/
def trimmed (text : String) : String := String.ofList (trim text.toList)

theorem inside?_eq_some_iff {first last : Char} {text inner : List Char} :
    inside? first last text = some inner ↔ text = first :: (inner ++ [last]) := by
  cases text with
  | nil => simp [inside?]
  | cons c cs =>
      simp only [inside?, List.cons.injEq]
      constructor
      · intro h
        split at h
        · rename_i hc
          obtain ⟨rfl, hl⟩ := hc
          simp only [Option.some.injEq] at h
          subst h
          refine ⟨rfl, ?_⟩
          have hne : cs ≠ [] := by intro e; simp [e] at hl
          rw [List.getLast?_eq_some_getLast hne, Option.some.injEq] at hl
          rw [← hl, List.dropLast_concat_getLast]
        · cases h
      · rintro ⟨rfl, rfl⟩
        simp

end QuestScript.Text
