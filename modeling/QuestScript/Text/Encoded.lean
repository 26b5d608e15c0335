/-
# QuestScript.Text.Encoded -- bytes that need not be a text

Files and folders are named by bytes, and nothing makes these the UTF-8 form of a text.  Such
a name is shown all the same: what is UTF-8 stands as the text it is the form of
(`shown_bytes`), and of the rest each stretch that breaks off within a character becomes one
replacement character.  So different bytes may be shown alike, but not if both are a text.
-/
import QuestScript.Text.ByteOrder

namespace QuestScript.Text

set_option autoImplicit false

/-- The text whose UTF-8 form some bytes are. -/
def ofBytes? (bs : List UInt8) : Option String := String.fromUTF8? ⟨bs.toArray⟩

/-- The character whose UTF-8 form some bytes begin with. -/
def firstChar? (bs : List UInt8) : Option Char := ByteArray.utf8DecodeChar? ⟨bs.toArray⟩ 0

/-- What stands for bytes that are no character. -/
def replacement : Char := '\uFFFD'

/-- The byte may stand behind the first one of a character. -/
def continues (b : UInt8) : Bool := 0x80 ≤ b && b ≤ 0xBF

/-- A character of three or four bytes may begin with these two.  Of what may stand behind
the first one, some would make a character that has a shorter form, is half of a pair, or
lies beyond the last one. -/
def beginsLong (first second : UInt8) : Bool :=
  let least : UInt8 := if first = 0xE0 then 0xA0 else if first = 0xF0 then 0x90 else 0x80
  let greatest : UInt8 := if first = 0xED then 0x9F else if first = 0xF4 then 0x8F else 0xBF
  0xE0 ≤ first && first ≤ 0xF4 && least ≤ second && second ≤ greatest

/-- How many bytes behind the first one belong to a character that breaks off. -/
def brokenExtent (first : UInt8) : List UInt8 → Nat
  | [] => 0
  | second :: rest =>
      if beginsLong first second then
        if 0xF0 ≤ first && rest.head?.any continues then 2 else 1
      else 0

/-- The characters that bytes are shown as; the first `skip` bytes belong to the one
before. -/
def shownFrom : (skip : Nat) → List UInt8 → List Char
  | _, [] => []
  | skip + 1, _ :: bs => shownFrom skip bs
  | 0, b :: bs =>
      match firstChar? (b :: bs) with
      | some c => c :: shownFrom (c.utf8Size - 1) bs
      | none => replacement :: shownFrom (brokenExtent b bs) bs

/-- What bytes are shown as. -/
def shown (bs : List UInt8) : String := String.ofList (shownFrom 0 bs)

theorem shownFrom_append (skipped bs : List UInt8) :
    shownFrom skipped.length (skipped ++ bs) = shownFrom 0 bs := by
  induction skipped with
  | nil => rfl
  | cons b skipped ih => exact ih

theorem bytes_ofList_cons (c : Char) (cs : List Char) :
    bytes (String.ofList (c :: cs)) = String.utf8EncodeChar c ++ bytes (String.ofList cs) := by
  simp only [bytes, String.toByteArray_ofList]
  rw [List.utf8Encode_cons, List.utf8Encode_singleton]
  simp

theorem firstChar?_eq_some_iff {bs : List UInt8} {c : Char} :
    firstChar? bs = some c ↔ String.utf8EncodeChar c <+: bs := by
  constructor
  · intro first
    obtain ⟨rest, whole⟩ := ByteArray.exists_of_utf8DecodeChar?_eq_some first
    refine ⟨rest.data.toList, ?_⟩
    have same := congrArg (fun a : ByteArray => a.data.toList) whole
    simpa using same.symm
  · rintro ⟨rest, rfl⟩
    have whole : (⟨(String.utf8EncodeChar c ++ rest).toArray⟩ : ByteArray) =
        (String.utf8EncodeChar c).toByteArray ++ ⟨rest.toArray⟩ := ByteArray.ext (by simp)
    rw [firstChar?, whole, ByteArray.utf8DecodeChar?_utf8EncodeChar_append]

theorem firstChar?_bytes (c : Char) (cs : List Char) :
    firstChar? (bytes (String.ofList (c :: cs))) = some c :=
  firstChar?_eq_some_iff.mpr ⟨bytes (String.ofList cs), (bytes_ofList_cons c cs).symm⟩

/-- A text is shown as it is. -/
theorem shown_bytes (text : String) : shown (bytes text) = text := by
  have chars (cs : List Char) : shownFrom 0 (bytes (String.ofList cs)) = cs := by
    induction cs with
    | nil => rfl
    | cons c cs ih =>
        obtain ⟨b, more, form⟩ := List.exists_cons_of_ne_nil (String.utf8EncodeChar_ne_nil (c := c))
        have size : c.utf8Size - 1 = more.length := by
          rw [← String.length_utf8EncodeChar, form, List.length_cons, Nat.add_sub_cancel]
        have first := firstChar?_bytes c cs
        rw [bytes_ofList_cons, form, List.cons_append] at first ⊢
        rw [shownFrom, first]
        simp only [size, shownFrom_append, ih]
  rw [shown, ← String.ofList_toList (s := text), chars]

example : shown [0x61, 0xFF, 0xE4, 0xB8, 0x62] = "a\uFFFD\uFFFDb" := by decide +kernel

end QuestScript.Text
