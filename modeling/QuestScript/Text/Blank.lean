/-
# QuestScript.Text.Blank -- white space

The characters with the Unicode property `White_Space`, and the trimming of text at
both ends.  Characters that print nothing but are not white space (the zero width
space, the byte order mark) are not blank.
-/
import QuestScript.Text.Ranges

namespace QuestScript.Text

set_option autoImplicit false

/-- The code points with the property `White_Space`. -/
def blankRanges : Ranges :=
  [ (0x9, 0xD), (0x20, 0x20), (0x85, 0x85), (0xA0, 0xA0), (0x1680, 0x1680), (0x2000, 0x200A),
    (0x2028, 0x2029), (0x202F, 0x202F), (0x205F, 0x205F), (0x3000, 0x3000)]

/-- White space in the sense of Unicode. -/
def isBlank (c : Char) : Bool := blankRanges.has c

/-- The text without the blanks before its first and after its last other character. -/
def trim (text : List Char) : List Char :=
  ((text.dropWhile isBlank).reverse.dropWhile isBlank).reverse

example : isBlank '\n' = true ∧ isBlank '\u3000' = true ∧ isBlank '\u200b' = false := by decide
example : trim " a b\n".toList = ['a', ' ', 'b'] := by decide

end QuestScript.Text
