/-
# QuestScript.Json.Writer -- JSON values as text

Values are written either without any blanks, or with every item and field on a line of
its own, indented by two blanks for each level.  In strings only what must be escaped is:
the quote, the backslash and the control characters below the blank.
-/
import QuestScript.Json.Value

namespace QuestScript.Json

set_option autoImplicit false

/-! ## Strings -/

/-- A hexadecimal digit in lower case. -/
def hexDigit (n : Nat) : Char := Nat.digitChar n

/-- A character as it stands in a string. -/
def escape (c : Char) : List Char :=
  if c = '"' then ['\\', '"']
  else if c = '\\' then ['\\', '\\']
  else if c = '\x08' then ['\\', 'b']
  else if c = '\x0c' then ['\\', 'f']
  else if c = '\n' then ['\\', 'n']
  else if c = '\r' then ['\\', 'r']
  else if c = '\t' then ['\\', 't']
  else if c.toNat < 32 then
    ['\\', 'u', '0', '0', hexDigit (c.toNat / 16), hexDigit (c.toNat % 16)]
  else [c]

/-- A string in its quotes. -/
def quote (text : String) : List Char := '"' :: (text.toList.flatMap escape ++ ['"'])

/-- A number, null or a truth value, in one word. -/
def word : Json → List Char
  | .null => "null".toList
  | .bool true => "true".toList
  | .bool false => "false".toList
  | .num n => Nat.toDigits 10 n
  | .str text => quote text
  | .arr _ | .obj _ => []

/-! ## Without blanks -/

mutual

/-- A value without blanks, and `rest` behind it. -/
def compact : Json → List Char → List Char
  | .arr [], rest => '[' :: ']' :: rest
  | .arr (item :: items), rest => '[' :: compact item (compactItems items rest)
  | .obj [], rest => '{' :: '}' :: rest
  | .obj ((name, value) :: fields), rest =>
      '{' :: (quote name ++ ':' :: compact value (compactFields fields rest))
  | value, rest => word value ++ rest

/-- The items behind the first one, the bracket, and `rest`. -/
def compactItems : List Json → List Char → List Char
  | [], rest => ']' :: rest
  | item :: items, rest => ',' :: compact item (compactItems items rest)

/-- The fields behind the first one, the brace, and `rest`. -/
def compactFields : List (String × Json) → List Char → List Char
  | [], rest => '}' :: rest
  | (name, value) :: fields, rest =>
      ',' :: (quote name ++ ':' :: compact value (compactFields fields rest))

end

/-! ## On lines -/

/-- A new line at a level, and `rest` on it. -/
def newLine (level : Nat) (rest : List Char) : List Char :=
  '\n' :: (List.replicate (2 * level) ' ' ++ rest)

mutual

/-- A value on lines of its own, the first of which began elsewhere, and `rest` behind it. -/
def indented (level : Nat) : Json → List Char → List Char
  | .arr [], rest => '[' :: ']' :: rest
  | .arr (item :: items), rest =>
      '[' :: newLine (level + 1) (indented (level + 1) item (indentedItems level items rest))
  | .obj [], rest => '{' :: '}' :: rest
  | .obj ((name, value) :: fields), rest =>
      '{' :: newLine (level + 1) (quote name ++ ':' :: ' ' ::
        indented (level + 1) value (indentedFields level fields rest))
  | value, rest => word value ++ rest

/-- The items behind the first one, the bracket, and `rest`. -/
def indentedItems (level : Nat) : List Json → List Char → List Char
  | [], rest => newLine level (']' :: rest)
  | item :: items, rest =>
      ',' :: newLine (level + 1) (indented (level + 1) item (indentedItems level items rest))

/-- The fields behind the first one, the brace, and `rest`. -/
def indentedFields (level : Nat) : List (String × Json) → List Char → List Char
  | [], rest => newLine level ('}' :: rest)
  | (name, value) :: fields, rest =>
      ',' :: newLine (level + 1) (quote name ++ ':' :: ' ' ::
        indented (level + 1) value (indentedFields level fields rest))

end

/-- The text of a value without blanks. -/
def compactText (j : Json) : String := String.ofList (compact j [])

/-- The text of a value on lines. -/
def prettyText (j : Json) : String := String.ofList (indented 0 j [])

end QuestScript.Json
