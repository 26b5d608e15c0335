/-
# QuestScript.Batch.Path -- paths of scripts

A path is the list of names on the way to a file.  Paths are ordered name by name, so a
folder stands where its name stands, and everything in it stands together.

Names are bytes: a folder may have a name that is no text.  Only a file whose name is a text
can be a script, but it may lie below such a folder.
-/
import QuestScript.Text.Encoded

namespace QuestScript.Batch

open Text (bytes)

set_option autoImplicit false

/-- The name of a file or folder. -/
abbrev Name := List UInt8

/-- The names of the folders on the way and of the file itself. -/
abbrev Path := List Name

namespace Path

/-- The names that a text spells with slashes; empty names and `.` lead nowhere. -/
def ofText (text : String) : Path :=
  (((text.split '/').toList.map fun name => name.copy).filter
    fun name => name ≠ "" && name ≠ ".").map bytes

/-- The byte that stands between names. -/
def slash : UInt8 := 0x2F

/-- A path as it is shown, with slashes between the names. -/
def text (path : Path) : String := Text.shown ([slash].intercalate path)

/-- The name of the file; going up from a folder names none. -/
def fileName? (path : Path) : Option Name :=
  match path.getLast? with
  | some name => if name = bytes ".." then none else some name
  | none => none

/-- The endings of the names of scripts. -/
def scriptEndings : List String := [".quest", ".ql"]

/-- The path is that of a script. -/
def isScript (path : Path) : Bool :=
  (path.fileName?.bind Text.ofBytes?).any fun name =>
    scriptEndings.any fun ending => ending.toList.isSuffixOf name.toList

/-- One path comes before another. -/
def Precedes (a b : Path) : Prop := a < b

instance (a b : Path) : Decidable (Precedes a b) := inferInstanceAs (Decidable (a < b))

variable {a b c : Path}

theorem Precedes.irrefl (a : Path) : ¬ Precedes a a := List.lt_irrefl _

theorem Precedes.trans (h : Precedes a b) (h' : Precedes b c) : Precedes a c :=
  List.lt_trans h h'

/-- Of two different paths one comes before the other. -/
theorem precedes_of_not (h : ¬ Precedes a b) (hne : a ≠ b) : Precedes b a :=
  Std.lt_of_le_of_ne (a := b) h fun e => hne e.symm

end Path

end QuestScript.Batch
