/-
# QuestScript.Batch.Folder -- what a folder lists

A folder lists files and further folders, in an order of its own.  The scripts below it
are found by going through the list and into each folder where it stands in it.  A folder
is never a script, whatever its name.
-/
import QuestScript.Batch.Run

namespace QuestScript.Batch

set_option autoImplicit false

/-- What a folder lists. -/
inductive Entry where
  | file (name : Name)
  | folder (name : Name) (entries : List Entry)

namespace Entry

/-- The name that is listed. -/
def name : Entry → Name
  | .file name => name
  | .folder name _ => name

mutual

/-- The paths of the scripts at or below an entry, in the order they are come across;
`under` is the way to the entry. -/
def scripts (under : Path) : Entry → List Path
  | .file name => if (under ++ [name]).isScript then [under ++ [name]] else []
  | .folder name entries => allScripts (under ++ [name]) entries

/-- The paths of the scripts at or below some entries. -/
def allScripts (under : Path) : List Entry → List Path
  | [] => []
  | e :: es => scripts under e ++ allScripts under es

end

end Entry

/-- The scripts below a folder with what they hold, found by going through its list. -/
def SourceFile.below (content : Path → ByteArray) (entries : List Entry) : List SourceFile :=
  (Entry.allScripts [] entries).map fun path => ⟨path, content path⟩

end QuestScript.Batch
