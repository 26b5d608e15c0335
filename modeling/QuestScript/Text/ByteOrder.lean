/-
# QuestScript.Text.ByteOrder -- the order of names

Names are ordered by the bytes of their UTF-8 form, the way a file system or a key-value
store orders them; no locale has a say.
-/

namespace QuestScript.Text

set_option autoImplicit false

/-- The UTF-8 form of a text. -/
def bytes (text : String) : List UInt8 := text.toByteArray.data.toList

/-- One name comes before another. -/
def Precedes (a b : String) : Prop := bytes a < bytes b

instance (a b : String) : Decidable (Precedes a b) :=
  inferInstanceAs (Decidable (bytes a < bytes b))

theorem bytes_inj {a b : String} (h : bytes a = bytes b) : a = b := by
  apply String.toByteArray_inj.mp
  apply ByteArray.ext
  apply Array.ext'
  exact h

theorem Precedes.irrefl (a : String) : ¬ Precedes a a := List.lt_irrefl _

theorem Precedes.trans {a b c : String} (h : Precedes a b) (h' : Precedes b c) : Precedes a c :=
  List.lt_trans h h'

/-- Of two different names one comes before the other. -/
theorem precedes_of_not {a b : String} (h : ¬ Precedes a b) (hne : a ≠ b) : Precedes b a :=
  Std.lt_of_le_of_ne (a := bytes b) h fun e => hne (bytes_inj e.symm)

/-- Sort names, equal ones staying in order. -/
def sortNames (names : List String) : List String :=
  names.mergeSort fun a b => decide (¬ Precedes b a)

end QuestScript.Text
