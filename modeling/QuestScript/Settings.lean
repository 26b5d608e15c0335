/-
# QuestScript.Settings -- what may be set

Two settings govern the reading and writing of scripts.  Settings that come from a user
are checked; a program may fill in any.
-/

namespace QuestScript

set_option autoImplicit false

/-- How scripts are read and written. -/
structure Settings where
  /-- Write `:` and `.` with a blank on both sides. -/
  padDoubleSpace : Bool
  /-- The levels of nesting a script may have. -/
  maxNesting : Nat
deriving DecidableEq, Repr

/-- What is wrong with settings. -/
inductive SettingsError where
  | nestingOutOfRange (given : Nat)
deriving DecidableEq, Repr

namespace Settings

/-- The settings of a user who sets nothing. -/
def standard : Settings := ⟨false, 256⟩

/-- The greatest nesting limit a user may set. -/
def greatestNesting : Nat := 4096

end Settings

/-- What is wrong with settings, in words. -/
def SettingsError.message : SettingsError → String
  | .nestingOutOfRange given =>
      "max_nesting_depth must be in 1..=" ++ toString Settings.greatestNesting ++ ": " ++
        toString given

namespace Settings

/-- The settings a user asks for, if their limit is in range. -/
def checked (padDoubleSpace : Bool) (maxNesting : Nat) : Except SettingsError Settings :=
  if 1 ≤ maxNesting ∧ maxNesting ≤ greatestNesting then .ok ⟨padDoubleSpace, maxNesting⟩
  else .error (.nestingOutOfRange maxNesting)

/-- Settings on one line. -/
def describe (s : Settings) : String :=
  "pad_double_space_tokens=" ++ (if s.padDoubleSpace then "true" else "false") ++
    ", max_nesting_depth=" ++ toString s.maxNesting

theorem checked_eq_ok_iff {pad : Bool} {n : Nat} {s : Settings} :
    checked pad n = .ok s ↔ (1 ≤ n ∧ n ≤ greatestNesting) ∧ s = ⟨pad, n⟩ := by
  unfold checked
  split <;> rename_i h
  · simp [h, eq_comm]
  · simp [h]

theorem checked_eq_error_iff {pad : Bool} {n : Nat} {e : SettingsError} :
    checked pad n = .error e ↔ ¬ (1 ≤ n ∧ n ≤ greatestNesting) ∧ e = .nestingOutOfRange n := by
  unfold checked
  split <;> rename_i h
  · simp [h]
  · simp [h, eq_comm]

end Settings

end QuestScript
