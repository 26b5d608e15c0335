/-
# QuestScript.Main -- the program

Lists the folder of scripts, and prints and writes what the reply says.  Everything that
is decided is decided in `QuestScript.Program`.
-/
import QuestScript.Batch.Folder
import QuestScript.Program

namespace QuestScript.Program

set_option autoImplicit false

/-- List a folder and the folders in it.  The system gives their names as texts. -/
partial def list (folder : IO.FS.DirEntry) : IO (List Batch.Entry) := do
  let entries ← folder.path.readDir
  entries.toList.mapM fun entry => do
    let name := Text.bytes entry.fileName
    if ← entry.path.isDir then return .folder name (← list entry) else return .file name

/-- The scripts below a folder, with their paths from there. -/
def scriptsBelow (folder : IO.FS.DirEntry) : IO (List Batch.SourceFile) := do
  (Batch.Entry.allScripts [] (← list folder)).mapM fun path => do
    return ⟨path, ← IO.FS.readBinFile (folder.path / path.text)⟩

/-- Write files below a folder, which is made even if there are none. -/
def writeBelow (folder : String) (files : List (String × String)) : IO Unit := do
  IO.FS.createDirAll folder
  for (name, text) in files do
    let path := (IO.FS.DirEntry.mk folder name).path
    if let some parent := path.parent then IO.FS.createDirAll parent
    IO.FS.writeFile path text

/-- Print and write what a reply says. -/
def deliver (r : Reply) (out : Option String) : IO UInt32 := do
  if let some folder := out then
    if let some files := r.written then writeBelow folder files
  IO.print r.printed
  IO.eprint r.complaint
  return UInt32.ofNat r.exitCode

end QuestScript.Program

open QuestScript Program in
/-- Carry out what the arguments ask for. -/
def main (args : List String) : IO UInt32 := do
  match CommandLine.parse args with
  | .error error => deliver (refuse error) none
  | .ok options =>
      let files ←
        try some <$> scriptsBelow ⟨options.folder, "."⟩
        catch _ => pure none
      deliver (reply options files) options.out
