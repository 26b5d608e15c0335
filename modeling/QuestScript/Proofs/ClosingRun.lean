/-
# QuestScript.Proofs.ClosingRun -- tidying a text again

Squeezing runs is done once and for all: in a squeezed text no run is left to squeeze
(`squeezedBefore_squeezedBefore`, `squeezeFrom_squeezeFrom`).  Ending the last line comes
behind it, and the newline that is added there belongs to the run at the end of the text if
there is one.  Tidying again squeezes it with that run, so it comes to the same as ending the
line first (`tidyLines_tidyLines`), and there is nothing left to do a third time.

Twice is once just where that newline is not one too many: where the text does not end in a
run that has the newlines that are kept and goes on behind the last of them (`Ragged`).
-/
import Mathlib.Data.List.DropRight
import Mathlib.Data.List.Induction
import QuestScript.Text.BlankLines

namespace QuestScript.Text

set_option autoImplicit false

variable {run text : List Char} {c : Char}

/-! ## Runs -/

/-- White space that begins with a newline, or nothing. -/
structure IsRun (run : List Char) : Prop where
  blank : ∀ c ∈ run, isBlank c = true
  newline : ∀ c ∈ run.head?, c = '\n'

/-- A run goes on with the character, or begins with it. -/
def joins (run : List Char) (c : Char) : Bool := isBlank c && (c = '\n' || !run.isEmpty)

theorem isBlank_newline : isBlank '\n' = true := by decide

theorem joins_newline (run : List Char) : joins run '\n' = true := by
  simp [joins, isBlank_newline]

theorem isRun_nil : IsRun [] := ⟨by simp, by simp⟩

theorem IsRun.concat (h : IsRun run) (joined : joins run c) : IsRun (run ++ [c]) := by
  simp only [joins, Bool.and_eq_true, Bool.or_eq_true, decide_eq_true_eq, Bool.not_eq_true',
    List.isEmpty_eq_false_iff] at joined
  refine ⟨?_, ?_⟩
  · simpa [or_imp, forall_and] using ⟨h.blank, joined.1⟩
  · cases run with
    | nil => simpa using joined.2
    | cons x xs => exact h.newline

/-- The indentation behind the last newline of a run. -/
theorem count_indentation (run : List Char) :
    ((run.reverse.takeWhile (· ≠ '\n')).reverse).count '\n' = 0 := by
  rw [List.count_reverse, List.count_eq_zero]
  intro member
  simpa using List.mem_takeWhile_imp member

theorem count_squeeze (run : List Char) :
    (squeeze run).count '\n' = min (run.count '\n') keptNewlines := by
  unfold squeeze
  split
  · rw [List.count_append, count_indentation, List.count_replicate_self]
    omega
  · omega

theorem squeeze_of_le (h : run.count '\n' ≤ keptNewlines) : squeeze run = run :=
  if_neg (Nat.not_lt.mpr h)

theorem squeeze_squeeze (run : List Char) : squeeze (squeeze run) = squeeze run :=
  squeeze_of_le (count_squeeze run ▸ Nat.min_le_right _ _)

theorem IsRun.squeeze (h : IsRun run) : IsRun (squeeze run) := by
  unfold Text.squeeze
  split
  · refine ⟨fun c member => ?_, by simp [keptNewlines, List.replicate]⟩
    rcases List.mem_append.mp member with newline | indentation
    · rw [List.eq_of_mem_replicate newline]
      decide
    · refine h.blank c ?_
      simpa using (List.takeWhile_prefix (· ≠ '\n')).subset (List.mem_reverse.mp indentation)
  · exact h

theorem squeeze_eq_nil : squeeze run = [] ↔ run = [] := by
  unfold squeeze
  split
  · rename_i long
    refine ⟨by simp [keptNewlines, List.replicate], ?_⟩
    rintro rfl
    simp at long
  · exact Iff.rfl

theorem joins_squeeze (run : List Char) (c : Char) : joins (squeeze run) c = joins run c := by
  have same : (squeeze run).isEmpty = run.isEmpty := by
    rw [Bool.eq_iff_iff, List.isEmpty_iff, List.isEmpty_iff, squeeze_eq_nil]
  rw [joins, joins, same]

/-! ## The run at the end of a text -/

/-- The run that is being read behind a text. -/
def openRun (run : List Char) : List Char → List Char
  | [] => run
  | c :: cs => if joins run c then openRun (run ++ [c]) cs else openRun [] cs

/-- What is written of a text while its last run is still being read. -/
def squeezedBefore (run : List Char) : List Char → List Char
  | [] => []
  | c :: cs =>
      if joins run c then squeezedBefore (run ++ [c]) cs
      else squeeze run ++ c :: squeezedBefore [] cs

theorem squeezeFrom_cons (run : List Char) (c : Char) (cs : List Char) : squeezeFrom run (c :: cs) =
    if joins run c then squeezeFrom (run ++ [c]) cs else squeeze run ++ c :: squeezeFrom [] cs := rfl

theorem squeezeFrom_eq (run text : List Char) :
    squeezeFrom run text = squeezedBefore run text ++ squeeze (openRun run text) := by
  induction text generalizing run with
  | nil => rfl
  | cons c cs ih =>
      rw [squeezeFrom_cons, squeezedBefore, openRun]
      split
      · exact ih _
      · rw [ih, List.append_assoc, List.cons_append]

theorem openRun_append (run xs ys : List Char) :
    openRun run (xs ++ ys) = openRun (openRun run xs) ys := by
  induction xs generalizing run with
  | nil => rfl
  | cons x xs ih =>
      rw [List.cons_append, openRun, openRun]
      split <;> exact ih _

theorem squeezedBefore_append (run xs ys : List Char) : squeezedBefore run (xs ++ ys) =
    squeezedBefore run xs ++ squeezedBefore (openRun run xs) ys := by
  induction xs generalizing run with
  | nil => rfl
  | cons x xs ih =>
      rw [List.cons_append, squeezedBefore, squeezedBefore, openRun]
      split
      · exact ih _
      · rw [ih, List.append_assoc, List.cons_append]

theorem isRun_openRun (h : IsRun run) (text : List Char) : IsRun (openRun run text) := by
  induction text generalizing run with
  | nil => exact h
  | cons c cs ih =>
      rw [openRun]
      split
      · rename_i joined
        exact ih (h.concat joined)
      · exact ih isRun_nil

/-- A run is read as it is. -/
theorem IsRun.reads (h : IsRun run) : openRun [] run = run ∧ squeezedBefore [] run = [] := by
  induction run using List.reverseRecOn with
  | nil => exact ⟨rfl, rfl⟩
  | append_singleton run c ih =>
      have front : IsRun run := by
        refine ⟨fun x member => h.blank x (List.mem_append_left [c] member), fun x first => ?_⟩
        cases run with
        | nil => simp at first
        | cons y ys => exact h.newline x first
      have joined : joins run c = true := by
        have blank := h.blank c (by simp)
        cases run with
        | nil =>
            obtain rfl := h.newline c rfl
            simpa [joins] using blank
        | cons y ys => simp [joins, blank]
      obtain ⟨whole, none⟩ := ih front
      rw [openRun_append, squeezedBefore_append, whole, none, openRun, squeezedBefore, joined]
      exact ⟨rfl, rfl⟩

/-- **Squeezing leaves nothing to squeeze**: what is written before the last run is read again as
it is, and ends in no run. -/
theorem squeezedBefore_squeezedBefore (h : IsRun run) (text : List Char) :
    openRun [] (squeezedBefore run text) = [] ∧
      squeezedBefore [] (squeezedBefore run text) = squeezedBefore run text := by
  induction text generalizing run with
  | nil => exact ⟨rfl, rfl⟩
  | cons c cs ih =>
      rw [squeezedBefore]
      split
      · rename_i joined
        exact ih (h.concat joined)
      · rename_i apart
        obtain ⟨whole, none⟩ := h.squeeze.reads
        obtain ⟨closed, kept⟩ := ih isRun_nil
        have stops : joins (squeeze run) c = false := by simpa [joins_squeeze] using apart
        rw [openRun_append, squeezedBefore_append, whole, none, openRun, squeezedBefore, stops]
        exact ⟨closed, by simp [squeeze_squeeze, kept]⟩

/-- Squeezing a text again, with another run at its end. -/
theorem squeezeFrom_behind (h : IsRun run) (text : List Char) :
    squeezeFrom [] (squeezedBefore [] text ++ run) = squeezedBefore [] text ++ squeeze run := by
  obtain ⟨closed, kept⟩ := squeezedBefore_squeezedBefore isRun_nil text
  obtain ⟨whole, none⟩ := h.reads
  rw [squeezeFrom_eq, squeezedBefore_append, openRun_append, closed, kept, whole, none,
    List.append_nil]

theorem squeezeFrom_squeezeFrom (text : List Char) :
    squeezeFrom [] (squeezeFrom [] text) = squeezeFrom [] text := by
  rw [squeezeFrom_eq [] text, squeezeFrom_behind (isRun_openRun isRun_nil text).squeeze,
    squeeze_squeeze]

/-! ## The last line -/

theorem getLast?_squeeze (run : List Char) : (squeeze run).getLast? = run.getLast? := by
  unfold squeeze
  split
  · rename_i long
    cases run using List.reverseRecOn with
    | nil => simp at long
    | append_singleton run c =>
        by_cases newline : c = '\n'
        · simp [newline, keptNewlines, List.replicate]
        · simp [newline, ← List.append_assoc]
  · rfl

/-- Squeezing keeps the last character. -/
theorem getLast?_squeezeFrom (run text : List Char) :
    (squeezeFrom run text).getLast? = (run ++ text).getLast? := by
  induction text generalizing run with
  | nil => simpa [squeezeFrom] using getLast?_squeeze run
  | cons c cs ih =>
      rw [squeezeFrom_cons]
      split
      · rw [ih, List.append_assoc, List.singleton_append]
      · simp [List.getLast?_append, List.getLast?_cons, ih]

theorem getLast?_endLine (text : List Char) : (endLine text).getLast? = some '\n' := by
  unfold endLine
  split
  · assumption
  · simp

theorem endLine_of_getLast? (h : text.getLast? = some '\n') : endLine text = text := if_pos h

/-- A squeezed text that ends its last line is tidy. -/
theorem tidyLines_squeezeFrom (h : text.getLast? = some '\n') :
    tidyLines (squeezeFrom [] text) = squeezeFrom [] text := by
  rw [tidyLines, squeezeFrom_squeezeFrom, endLine_of_getLast?]
  rwa [getLast?_squeezeFrom, List.nil_append]

/-- With a newline behind it, a run is squeezed as if it had not been squeezed before. -/
theorem squeeze_squeeze_newline (run : List Char) :
    squeeze (squeeze run ++ ['\n']) = squeeze (run ++ ['\n']) := by
  by_cases long : run.count '\n' ≤ keptNewlines
  · rw [squeeze_of_le long]
  · have squeezed : (squeeze run).count '\n' = keptNewlines := by
      rw [squeeze, if_pos (Nat.not_le.mp long), List.count_append, count_indentation,
        List.count_replicate_self, Nat.add_zero]
    have longer (front : List Char) (h : keptNewlines ≤ front.count '\n') :
        squeeze (front ++ ['\n']) = List.replicate keptNewlines '\n' := by
      rw [squeeze, if_pos (by simpa using Nat.lt_succ_of_le h)]
      simp
    rw [longer _ squeezed.ge, longer _ (Nat.le_of_not_le long)]

/-! ## In the text itself -/

/-- Of the blanks at the end of a text, those from their first newline on. -/
def closingRun (text : List Char) : List Char := (text.rtakeWhile isBlank).dropWhile (· ≠ '\n')

theorem closingRun_concat (text : List Char) (c : Char) : closingRun (text ++ [c]) =
    if joins (closingRun text) c then closingRun text ++ [c] else [] := by
  unfold closingRun joins
  rw [List.rtakeWhile_concat]
  by_cases blank : isBlank c
  · rw [if_pos blank, List.dropWhile_append]
    by_cases none : (List.dropWhile (· ≠ '\n') (text.rtakeWhile isBlank)).isEmpty
    · rw [if_pos none, List.isEmpty_iff.mp none]
      by_cases newline : c = '\n'
      · subst newline
        simpa [List.dropWhile] using blank
      · simp [newline, List.dropWhile]
    · rw [if_neg none, if_pos (by simp only [blank, none]; simp)]
  · simp [blank]

theorem closingRun_suffix (text : List Char) : closingRun text <:+ text :=
  (List.dropWhile_suffix _).trans (List.rtakeWhile_suffix isBlank text)

theorem openRun_eq_closingRun (text : List Char) : openRun [] text = closingRun text := by
  induction text using List.reverseRecOn with
  | nil => rfl
  | append_singleton text c ih =>
      rw [openRun_append, ih, closingRun_concat, openRun, openRun, openRun]

theorem getLast?_closingRun : (closingRun text).getLast? = some '\n' ↔ text.getLast? = some '\n' := by
  constructor
  · intro newline
    obtain ⟨before, split⟩ := closingRun_suffix text
    rw [← split, List.getLast?_append, newline, Option.some_or]
  · intro newline
    obtain ⟨before, rfl⟩ := List.getLast?_eq_some_iff.mp newline
    simp [closingRun_concat, joins_newline]

/-- The run at the end of the text has the newlines that are kept of a run, and another blank
behind the last of them. -/
def Ragged (text : List Char) : Prop :=
  keptNewlines ≤ (closingRun text).count '\n' ∧ (closingRun text).getLast? ≠ some '\n'

instance : DecidablePred Ragged := fun text =>
  inferInstanceAs (Decidable (keptNewlines ≤ (closingRun text).count '\n' ∧
    (closingRun text).getLast? ≠ some '\n'))

theorem isRun_closingRun (text : List Char) : IsRun (closingRun text) :=
  openRun_eq_closingRun text ▸ isRun_openRun isRun_nil text

theorem IsRun.newline_behind (h : IsRun run) : IsRun (run ++ ['\n']) :=
  h.concat (joins_newline run)

/-! ## Twice and three times -/

theorem tidyLines_of_ended (ended : text.getLast? = some '\n') :
    tidyLines text = squeezeFrom [] text := by
  rw [tidyLines, endLine_of_getLast?]
  rwa [getLast?_squeezeFrom, List.nil_append]

/-- Where the last line is not ended, the newline comes behind the squeezed run. -/
theorem tidyLines_of_open (opened : text.getLast? ≠ some '\n') :
    tidyLines text = squeezedBefore [] text ++ (squeeze (closingRun text) ++ ['\n']) := by
  have last : (squeezeFrom [] text).getLast? ≠ some '\n' := by
    rwa [getLast?_squeezeFrom, List.nil_append]
  rw [tidyLines, endLine, if_neg last, squeezeFrom_eq, openRun_eq_closingRun, List.append_assoc]

theorem squeezeFrom_newline (text : List Char) : squeezeFrom [] (text ++ ['\n']) =
    squeezedBefore [] text ++ squeeze (closingRun text ++ ['\n']) := by
  rw [squeezeFrom_eq, squeezedBefore_append, openRun_eq_closingRun, openRun_eq_closingRun,
    closingRun_concat, squeezedBefore, joins_newline, if_pos rfl, if_pos rfl, squeezedBefore,
    List.append_nil]

/-- Tidying again is ending the last line before the runs are squeezed. -/
theorem tidyLines_tidyLines (text : List Char) :
    tidyLines (tidyLines text) = squeezeFrom [] (endLine text) := by
  rw [tidyLines_of_ended (getLast?_tidyLines text)]
  by_cases ended : text.getLast? = some '\n'
  · rw [tidyLines_of_ended ended, squeezeFrom_squeezeFrom, endLine_of_getLast? ended]
  · have run := (isRun_closingRun text).squeeze.newline_behind
    rw [tidyLines_of_open ended, squeezeFrom_behind run, squeeze_squeeze_newline, endLine,
      if_neg ended, squeezeFrom_newline]

/-- A newline behind a squeezed run is one too many just if it has all that are kept. -/
theorem squeeze_newline_eq_iff (run : List Char) :
    squeeze (squeeze run ++ ['\n']) = squeeze run ++ ['\n'] ↔
      run.count '\n' < keptNewlines := by
  constructor
  · intro same
    have few := count_squeeze (squeeze run ++ ['\n'])
    rw [same, List.count_append, List.count_singleton_self, count_squeeze] at few
    omega
  · intro few
    rw [squeeze_of_le few.le]
    refine squeeze_of_le ?_
    rwa [List.count_append, List.count_singleton_self]

theorem tidyLines_eq_iff (text : List Char) :
    tidyLines (tidyLines text) = tidyLines text ↔ ¬ Ragged text := by
  by_cases ended : text.getLast? = some '\n'
  · have fixed : tidyLines (tidyLines text) = tidyLines text := by
      rw [tidyLines_tidyLines, endLine_of_getLast? ended, tidyLines_of_ended ended]
    exact iff_of_true fixed fun ragged => ragged.2 (getLast?_closingRun.mpr ended)
  · have last := mt getLast?_closingRun.mp ended
    rw [tidyLines_tidyLines, tidyLines_of_open ended, endLine, if_neg ended, squeezeFrom_newline,
      List.append_cancel_left_eq, ← squeeze_squeeze_newline, squeeze_newline_eq_iff, Ragged,
      and_iff_left last, Nat.not_le]

/-- **Tidying settles at the second time**: the text is then squeezed with its last line ended.
It is settled at the first time just if it does not end in a run that has the newlines that are
kept and goes on behind them. -/
theorem tidyLines_settles (text : List Char) :
    tidyLines (tidyLines text) = squeezeFrom [] (endLine text) ∧
    (tidyLines (tidyLines text) = tidyLines text ↔ ¬ Ragged text) ∧
    tidyLines (tidyLines (tidyLines text)) = tidyLines (tidyLines text) := by
  refine ⟨tidyLines_tidyLines text, tidyLines_eq_iff text, ?_⟩
  rw [tidyLines_tidyLines text, tidyLines_squeezeFrom (getLast?_endLine text)]

/-- The blanks of the last line are taken from it at the second time. -/
theorem tidyLines_indented :
    tidyLines (tidyLines "a\n\n\n  ".toList) ≠ tidyLines "a\n\n\n  ".toList := by
  decide

example : tidyLines "a\n\n\n  ".toList = "a\n\n  \n".toList := by decide
example : tidyLines (tidyLines "a\n\n\n  ".toList) = "a\n\n".toList := by decide

end QuestScript.Text
