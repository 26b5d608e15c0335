/-
# QuestScript.Batch.Run -- all scripts of a folder

A run takes the files below a folder, in whatever order they are listed, and reports on
each that has the name of a script, in the order of their paths.  A script that is not
UTF-8 or has no module counts as failed and leaves no report; it does not keep the others
from having theirs.
-/
import QuestScript.Batch.Report

namespace QuestScript.Batch

set_option autoImplicit false

/-- A file and what it holds. -/
structure SourceFile where
  path : Path
  content : ByteArray

/-- What is done in a run. -/
structure Job where
  registry : Registry
  settings : Settings
  mode : RenderMode

/-- What comes of a run. -/
structure Summary where
  reports : List Report
  failed : Nat

namespace SourceFile

/-- The scripts among some files, in the order of their paths. -/
def scripts (files : List SourceFile) : List SourceFile :=
  (files.filter fun f => f.path.isScript).mergeSort fun a b =>
    decide (¬ Path.Precedes b.path a.path)

/-- The files below a folder, with their paths from there; none when there is no such
folder.  The outermost folder is always there. -/
def below? (folder : Path) (files : List SourceFile) : Option (List SourceFile) :=
  let inside := files.filter fun f => folder.isPrefixOf f.path && folder.length < f.path.length
  if folder = [] ∨ inside ≠ [] then
    some (inside.map fun f => { f with path := f.path.drop folder.length })
  else none

/-- The report on a script, if it has one. -/
def report? (job : Job) (file : SourceFile) : Option Report :=
  match String.fromUTF8? file.content with
  | none => none
  | some source => (Report.ofSource job.registry job.settings job.mode file.path source).toOption

end SourceFile

/-- Report on the scripts among some files. -/
def run (job : Job) (files : List SourceFile) : Summary :=
  let outcomes := (SourceFile.scripts files).map (SourceFile.report? job)
  ⟨outcomes.filterMap id, outcomes.countP Option.isNone⟩

namespace Summary

/-- The number of scripts that have a report. -/
def succeeded (s : Summary) : Nat := s.reports.length

/-- The reports, one on a line. -/
def lines (s : Summary) : String :=
  String.join (s.reports.map fun r => r.toJson.compactText ++ "\n")

/-- The reports as files: where each is written, and its text. -/
def files (s : Summary) : List (String × String) :=
  s.reports.map fun r => (r.target, r.toJson.prettyText)

end Summary

/-- Each script either has a report or has failed. -/
theorem succeeded_add_failed (job : Job) (files : List SourceFile) :
    (run job files).succeeded + (run job files).failed = (SourceFile.scripts files).length := by
  simp only [run, Summary.succeeded]
  induction SourceFile.scripts files with
  | nil => rfl
  | cons f fs ih =>
      cases h : SourceFile.report? job f <;> simp [h] at ih ⊢ <;> omega

end QuestScript.Batch
