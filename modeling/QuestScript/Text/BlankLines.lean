/-
# QuestScript.Text.BlankLines -- bounding runs of blank lines

Before a script is read, long runs of blank lines are shortened.  A run is a newline
with all the white space that follows it, so it ends where the next line's first mark
stands.  A run with more than `keptNewlines` newlines is replaced by exactly that many
and the indentation after its last newline; a shorter run is kept as it is.  The result
always ends in a newline.
-/
import QuestScript.Text.Blank

namespace QuestScript.Text

set_option autoImplicit false

/-- Newlines kept of a longer run: one blank line between two others. -/
def keptNewlines : Nat := 2

/-- What becomes of one run of white space that begins with a newline. -/
def squeeze (run : List Char) : List Char :=
  if run.count '\n' > keptNewlines then
    List.replicate keptNewlines '\n' ++ (run.reverse.takeWhile (· ≠ '\n')).reverse
  else run

/-- Squeeze every run of a text.  `run` is the run that is being read, empty outside
of runs; a newline opens one and the next character that is not blank ends it. -/
def squeezeFrom (run : List Char) : List Char → List Char
  | [] => squeeze run
  | c :: cs =>
      if isBlank c && (c = '\n' || !run.isEmpty) then squeezeFrom (run ++ [c]) cs
      else squeeze run ++ c :: squeezeFrom [] cs

/-- Add the final newline if there is none. -/
def endLine (text : List Char) : List Char :=
  if text.getLast? = some '\n' then text else text ++ ['\n']

/-- Bound the runs of blank lines and end the last line. -/
def tidyLines (text : List Char) : List Char := endLine (squeezeFrom [] text)

@[simp] theorem squeeze_nil : squeeze [] = [] := rfl

theorem getLast?_tidyLines (text : List Char) : (tidyLines text).getLast? = some '\n' := by
  unfold tidyLines endLine
  split
  · assumption
  · simp

example : tidyLines "a\n\n\n\n  b".toList = "a\n\n  b\n".toList := by decide
example : tidyLines "a \n \n b".toList = "a \n \n b\n".toList := by decide

end QuestScript.Text
