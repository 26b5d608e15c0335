/-
# QuestScript.Proofs.WrittenLines -- tidying keeps the written lines of a text

A line is written if a character stands in it that is not blank.  Tidying a text takes blank
lines away and nothing else: the written lines stay as they are and in their order, and of the
newlines before each of them two are kept (`tidyLines_written`).

The lines are counted along the text.  All newlines between two written lines are in one run,
so a run says how many there are and with which indentation the next line begins
(`IsRun.endsLine`); a squeezed run says the same, with fewer newlines.  Blanks before the
first newline of a text belong to no run, and there are no newlines before them to count.
-/
import QuestScript.Proofs.ClosingRun

namespace QuestScript.Text

set_option autoImplicit false

/-! ## Lines -/

/-- The lines of a text, without their newlines. -/
def lines (text : List Char) : List (List Char) := text.splitOn '\n'

/-- A character that is not blank stands in the line. -/
def isWritten (line : List Char) : Bool := line.any fun c => !isBlank c

/-- The written ones of some lines, each with the number of newlines between it and the written
line before it; before the first of the lines `newlines` were counted. -/
def writtenFrom (newlines : Nat) : List (List Char) → List (Nat × List Char)
  | [] => []
  | line :: lines =>
      if isWritten line then (newlines, line) :: writtenFrom 1 lines
      else writtenFrom (newlines + 1) lines

/-- For each written line, the newlines between it and the written line before it; for the
first, those between the beginning of the text and it. -/
def newlinesBefore (text : List Char) : List Nat := (writtenFrom 0 (lines text)).map Prod.fst

theorem map_snd_writtenFrom (newlines : Nat) (ls : List (List Char)) :
    (writtenFrom newlines ls).map Prod.snd = ls.filter isWritten := by
  induction ls generalizing newlines with
  | nil => rfl
  | cons line ls ih =>
      rw [writtenFrom, List.filter_cons]
      split
      · rw [List.map_cons, ih]
      · exact ih _

theorem isWritten_append (xs ys : List Char) :
    isWritten (xs ++ ys) = (isWritten xs || isWritten ys) := List.any_append

/-! ## Along a text -/

variable {run text line : List Char} {newlines : Nat} {c : Char}

/-- The written lines of a text of whose first line `line` was read already. -/
def writtenBehind (newlines : Nat) (line text : List Char) : List (Nat × List Char) :=
  writtenFrom newlines ((lines text).modifyHead (line ++ ·))

theorem writtenBehind_nil (newlines : Nat) (line : List Char) :
    writtenBehind newlines line [] = if isWritten line then [(newlines, line)] else [] := by
  simp [writtenBehind, lines, writtenFrom]

theorem writtenBehind_start (newlines : Nat) (text : List Char) :
    writtenBehind newlines [] text = writtenFrom newlines (lines text) := by
  rw [writtenBehind]
  congr
  exact congrFun List.modifyHead_id _

/-- A newline ends the line that is being read. -/
theorem writtenBehind_newline (newlines : Nat) (line text : List Char) :
    writtenBehind newlines line ('\n' :: text) =
      if isWritten line then (newlines, line) :: writtenBehind 1 [] text
      else writtenBehind (newlines + 1) [] text := by
  rw [writtenBehind_start, writtenBehind_start, writtenBehind, lines, List.splitOn,
    List.splitOnP_cons_eq_if_modifyHead]
  simp [writtenFrom, lines, List.splitOn]

/-- Any other character goes on with it. -/
theorem writtenBehind_cons (other : c ≠ '\n') (newlines : Nat) (line text : List Char) :
    writtenBehind newlines line (c :: text) = writtenBehind newlines (line ++ [c]) text := by
  rw [writtenBehind, writtenBehind, lines, List.splitOn, List.splitOnP_cons_eq_if_modifyHead,
    if_neg (by simpa using other), List.modifyHead_modifyHead]
  congr 2
  funext rest
  simp

/-- Ending the last line of a text writes none. -/
theorem writtenBehind_endLine (newlines : Nat) (line text : List Char) :
    writtenBehind newlines line (text ++ ['\n']) = writtenBehind newlines line text := by
  induction text generalizing newlines line with
  | nil =>
      rw [List.nil_append, writtenBehind_newline, writtenBehind_nil, writtenBehind_nil,
        writtenBehind_nil]
      rfl
  | cons c text ih =>
      rw [List.cons_append]
      by_cases newline : c = '\n'
      · subst newline
        rw [writtenBehind_newline, writtenBehind_newline, ih, ih]
      · rw [writtenBehind_cons newline, writtenBehind_cons newline, ih]

/-! ## Runs -/

/-- What stands behind the last newline of a run. -/
def indentation (run : List Char) : List Char := (run.reverse.takeWhile (· ≠ '\n')).reverse

theorem indentation_newline (run : List Char) : indentation (run ++ ['\n']) = [] := by
  simp [indentation]

theorem indentation_concat (other : c ≠ '\n') (run : List Char) :
    indentation (run ++ [c]) = indentation run ++ [c] := by
  simp [indentation, other]

theorem indentation_squeeze (run : List Char) : indentation (squeeze run) = indentation run := by
  unfold squeeze
  split
  · have none : ∀ c ∈ indentation run, c ≠ '\n' := fun c member => by
      simpa using List.mem_takeWhile_imp (List.mem_reverse.mp member)
    rw [← indentation]
    generalize indentation run = blanks at none
    induction blanks using List.reverseRecOn with
    | nil => rfl
    | append_singleton blanks c ih =>
        rw [← List.append_assoc, indentation_concat (none c (by simp)),
          ih fun x member => none x (List.mem_append_left [c] member)]
  · rfl

theorem IsRun.isWritten_indentation (h : IsRun run) : isWritten (indentation run) = false := by
  refine List.any_eq_false.mpr fun c member => ?_
  have inside : c ∈ run := by
    simpa using (List.takeWhile_prefix _).subset (List.mem_reverse.mp member)
  simp [h.blank c inside]

theorem IsRun.init (h : IsRun (run ++ [c])) (some : run ≠ []) : IsRun run ∧ isBlank c := by
  refine ⟨⟨fun x member => h.blank x (List.mem_append_left [c] member), fun x first => ?_⟩,
    h.blank c (by simp)⟩
  cases run with
  | nil => exact absurd rfl some
  | cons y ys => exact h.newline x first

/-- A run ends the line before it.  If that is written, or no newlines were counted before it,
those of the run are the ones before the next written line, which begins with the indentation
behind the run. -/
theorem IsRun.endsLine (h : IsRun run) (some : run ≠ [])
    (counts : isWritten line ∨ newlines = 0) (text : List Char) :
    writtenBehind newlines line (run ++ text) = writtenBehind newlines line [] ++
      writtenBehind (run.count '\n') (indentation run) text := by
  induction run using List.reverseRecOn generalizing text with
  | nil => exact absurd rfl some
  | append_singleton run c ih =>
      rw [List.append_assoc, List.singleton_append]
      by_cases first : run = []
      · subst first
        obtain rfl := h.newline c rfl
        rw [indentation_newline, List.nil_append, List.nil_append, writtenBehind_newline,
          writtenBehind_nil, List.count_singleton_self]
        rcases counts with written | none
        · rw [if_pos written, if_pos written, List.singleton_append]
        · rw [none, Nat.zero_add]
          split <;> rfl
      · obtain ⟨before, blank⟩ := h.init first
        rw [ih before first, List.append_cancel_left_eq, List.count_append]
        by_cases newline : c = '\n'
        · subst newline
          rw [writtenBehind_newline, if_neg (by simp [before.isWritten_indentation]),
            indentation_newline, List.count_singleton_self]
        · rw [writtenBehind_cons newline, indentation_concat newline,
            List.count_singleton, if_neg (by simpa using newline), Nat.add_zero]

/-! ## Tidy texts -/

/-- A written line with no more newlines before it than are kept. -/
def capped (entry : Nat × List Char) : Nat × List Char := (min keptNewlines entry.1, entry.2)

theorem writtenBehind_nil_capped (newlines : Nat) (line : List Char) :
    writtenBehind (min keptNewlines newlines) line [] =
      (writtenBehind newlines line []).map capped := by
  rw [writtenBehind_nil, writtenBehind_nil]
  split <;> rfl

/-- A squeezed run ends the line before it as the run does, with fewer newlines. -/
theorem IsRun.squeeze_endsLine (h : IsRun run) (some : run ≠ [])
    (counts : isWritten line ∨ newlines = 0) (text : List Char) :
    writtenBehind (min keptNewlines newlines) line (Text.squeeze run ++ text) =
      (writtenBehind newlines line []).map capped ++
        writtenBehind (min keptNewlines (run.count '\n')) (indentation run) text := by
  have counts' : isWritten line ∨ min keptNewlines newlines = 0 :=
    counts.imp_right fun none => by rw [none, Nat.min_zero]
  rw [h.squeeze.endsLine (mt squeeze_eq_nil.mp some) counts', writtenBehind_nil_capped,
    count_squeeze, indentation_squeeze, Nat.min_comm]

/-- The written lines of a squeezed text, `run` being the run that is being read. -/
theorem writtenBehind_squeezeFrom (h : IsRun run) (counts : isWritten line ∨ newlines = 0)
    (text : List Char) :
    writtenBehind (min keptNewlines newlines) line (squeezeFrom run text) =
      (writtenBehind newlines line (run ++ text)).map capped := by
  induction text generalizing run line newlines with
  | nil =>
      rw [squeezeFrom]
      by_cases none : run = []
      · rw [none, squeeze_nil, List.nil_append, writtenBehind_nil_capped]
      · rw [← List.append_nil (squeeze run), h.squeeze_endsLine none counts,
          h.endsLine none counts, List.map_append, writtenBehind_nil_capped]
  | cons c cs ih =>
      rw [squeezeFrom_cons]
      split
      · rename_i joined
        rw [ih (h.concat joined) counts, List.append_assoc, List.singleton_append]
      · rename_i apart
        have other : c ≠ '\n' := by
          rintro rfl
          exact apart (joins_newline run)
        by_cases none : run = []
        · subst none
          have counts' : isWritten (line ++ [c]) ∨ newlines = 0 :=
            counts.imp_left fun written => by rw [isWritten_append, written, Bool.true_or]
          rw [squeeze_nil, List.nil_append, writtenBehind_cons other, ih isRun_nil counts',
            List.nil_append, List.nil_append, writtenBehind_cons other]
        · -- The character that ends a run is written behind its indentation.
          have solid : isBlank c = false := by simpa [joins, none] using apart
          have written : isWritten (indentation run ++ [c]) := by
            rw [isWritten_append]
            simp [isWritten, solid]
          rw [h.squeeze_endsLine none counts, h.endsLine none counts, List.map_append,
            writtenBehind_cons other, writtenBehind_cons other, ih isRun_nil (.inl written),
            List.nil_append]

theorem writtenFrom_tidyLines (text : List Char) :
    writtenFrom 0 (lines (tidyLines text)) = (writtenFrom 0 (lines text)).map capped := by
  have squeezed := writtenBehind_squeezeFrom isRun_nil (.inr rfl : isWritten [] ∨ 0 = 0) text
  rw [Nat.min_zero, List.nil_append] at squeezed
  rw [← writtenBehind_start, ← writtenBehind_start, ← squeezed, tidyLines, endLine]
  split
  · rfl
  · rw [writtenBehind_endLine]

/-- **Tidying keeps the written lines**: those of a tidied text are the written lines of the text,
each as it was and in their order, and of the newlines before each of them, two are kept. -/
theorem tidyLines_written (text : List Char) :
    (lines (tidyLines text)).filter isWritten = (lines text).filter isWritten ∧
      newlinesBefore (tidyLines text) = (newlinesBefore text).map (min 2) := by
  have same := writtenFrom_tidyLines text
  constructor
  · rw [← map_snd_writtenFrom 0, same, List.map_map, ← map_snd_writtenFrom 0]
    rfl
  · rw [newlinesBefore, same, newlinesBefore, List.map_map, List.map_map]
    rfl

example : newlinesBefore " \n\n\n  a \n\t\n\n b\nc".toList = [3, 3, 1] := by decide
example : newlinesBefore (tidyLines " \n\n\n  a \n\t\n\n b\nc".toList) = [2, 2, 1] := by decide

end QuestScript.Text
