/-
# QuestScript.Program -- what the program does

All of a run but the reading and writing of files.  The arguments say which folder to
list; what is in it decides the reply: what is printed, which files are written and how
the program ends.  The exit code is 2 when the arguments are not understood, and 1 when
the run cannot be made or a script fails that must not.
-/
import QuestScript.Batch.Run
import QuestScript.CommandLine.Usage

namespace QuestScript.Program

open CommandLine (Options UsageError)

set_option autoImplicit false

/-- Why a run cannot be made. -/
inductive RunError where
  | badSettings (error : SettingsError)
  /-- The folder cannot be listed. -/
  | unreadableFolder (folder : String)
deriving DecidableEq, Repr

/-- Why a run cannot be made, in words. -/
def RunError.message : RunError → String
  | .badSettings error => error.message
  | .unreadableFolder folder => "cannot read directory " ++ folder

/-- Run over the files below the folder, if it can be listed.  Settings are looked at
before the folder is. -/
def carryOut (options : Options) (files : Option (List Batch.SourceFile)) :
    Except RunError Batch.Summary :=
  match options.settings, files with
  | .error error, _ => .error (.badSettings error)
  | .ok _, none => .error (.unreadableFolder options.folder)
  | .ok settings, some files => .ok (Batch.run ⟨.standard, settings, options.mode⟩ files)

/-- What the program leaves behind. -/
structure Reply where
  exitCode : Nat
  printed : String
  /-- What is told on the side. -/
  complaint : String
  /-- The files of the folder for reports, when there is to be one. -/
  written : Option (List (String × String))
deriving DecidableEq, Repr

/-- The reply to arguments that are not carried out. -/
def refuse (error : UsageError) : Reply :=
  if error.isAnswer then ⟨0, error.message, "", none⟩ else ⟨2, "", error.message, none⟩

/-- The reply to arguments that are.  The reports are printed unless there is a folder
for them. -/
def reply (options : Options) (files : Option (List Batch.SourceFile)) : Reply :=
  match carryOut options files with
  | .error error => ⟨1, "", error.message ++ "\n", none⟩
  | .ok summary =>
      let exitCode := if options.strict && summary.failed > 0 then 1 else 0
      match options.out with
      | none => ⟨exitCode, summary.lines, "", none⟩
      | some _ => ⟨exitCode, "", "", some summary.files⟩

end QuestScript.Program
