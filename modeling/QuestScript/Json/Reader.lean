/-
# QuestScript.Json.Reader -- JSON values from text

Reads the JSON values that `Json` has, with blanks anywhere between their parts.  Arrays
and objects may be nested up to a limit; `read` is by recursion on the levels left, and a
list of items or fields has no more members than characters.
-/
import QuestScript.Json.Value

namespace QuestScript.Json

set_option autoImplicit false

/-- How deep arrays and objects may be nested. -/
def nestingLimit : Nat := 127

/-- Blanks between the parts of a value. -/
def isGap (c : Char) : Bool := c = ' ' || c = '\n' || c = '\t' || c = '\r'

/-- The text from the next character on that is not a blank. -/
def skipGap (cs : List Char) : List Char := cs.dropWhile isGap

/-! ## Strings and numbers -/

/-- The value of a hexadecimal digit. -/
def hexValue? (c : Char) : Option Nat :=
  if '0' ≤ c ∧ c ≤ '9' then some (c.toNat - '0'.toNat)
  else if 'a' ≤ c ∧ c ≤ 'f' then some (c.toNat - 'a'.toNat + 10)
  else if 'A' ≤ c ∧ c ≤ 'F' then some (c.toNat - 'A'.toNat + 10)
  else none

/-- The number that four hexadecimal digits write. -/
def hexNumber? (a b c d : Char) : Option Nat := do
  let a ← hexValue? a
  let b ← hexValue? b
  let c ← hexValue? c
  let d ← hexValue? d
  some (((a * 16 + b) * 16 + c) * 16 + d)

/-- What a backslash and a letter stand for. -/
def unescape? (c : Char) : Option Char :=
  if c = '"' ∨ c = '\\' ∨ c = '/' then some c
  else if c = 'b' then some '\x08'
  else if c = 'f' then some '\x0c'
  else if c = 'n' then some '\n'
  else if c = 'r' then some '\r'
  else if c = 't' then some '\t'
  else none

/-- The number is the first half of a pair that stands for one character. -/
def isFirstHalf (n : Nat) : Bool := 0xD800 ≤ n && n < 0xDC00

/-- The character that a number stands for by itself. -/
def single? (n : Nat) : Option Char :=
  if 0xD800 ≤ n ∧ n < 0xE000 then none else some (Char.ofNat n)

/-- The character that two halves stand for together. -/
def paired? (n m : Nat) : Option Char :=
  if 0xDC00 ≤ m ∧ m < 0xE000 then
    some (Char.ofNat (0x10000 + (n - 0xD800) * 0x400 + (m - 0xDC00)))
  else none

/-- The characters of a string up to its closing quote. -/
def stringBody : List Char → Option (List Char × List Char)
  | [] => none
  | '"' :: rest => some ([], rest)
  | '\\' :: 'u' :: a :: b :: c :: d :: rest => do
      let n ← hexNumber? a b c d
      if isFirstHalf n then
        match rest with
        | '\\' :: 'u' :: e :: f :: g :: h :: rest => do
            let m ← hexNumber? e f g h
            let x ← paired? n m
            let (xs, rest) ← stringBody rest
            some (x :: xs, rest)
        | _ => none
      else do
        let x ← single? n
        let (xs, rest) ← stringBody rest
        some (x :: xs, rest)
  | '\\' :: c :: rest => do
      let x ← unescape? c
      let (xs, rest) ← stringBody rest
      some (x :: xs, rest)
  | c :: rest =>
      if c.toNat < 32 then none
      else do
        let (xs, rest) ← stringBody rest
        some (c :: xs, rest)

/-- A number without superfluous zeros. -/
def number (cs : List Char) : Option (Nat × List Char) :=
  let digits := cs.takeWhile Char.isDigit
  if digits = [] ∨ (digits.head? = some '0' ∧ digits.length > 1) then none
  else some (Nat.ofDigitChars 10 digits 0, cs.dropWhile Char.isDigit)

/-- A string from its opening quote on, blanks before it allowed. -/
def quoted (cs : List Char) : Option (String × List Char) :=
  match skipGap cs with
  | '"' :: rest => (stringBody rest).map fun (text, rest) => (String.ofList text, rest)
  | _ => none

/-! ## Arrays and objects -/

/-- Items with commas between them, up to the bracket. -/
def items (inner : List Char → Option (Json × List Char)) :
    Nat → List Char → Option (List Json × List Char)
  | 0, _ => none
  | fuel + 1, cs => do
      let (item, rest) ← inner cs
      match skipGap rest with
      | ',' :: rest => do
          let (more, rest) ← items inner fuel rest
          some (item :: more, rest)
      | ']' :: rest => some ([item], rest)
      | _ => none

/-- Fields with commas between them, up to the brace. -/
def fields (inner : List Char → Option (Json × List Char)) :
    Nat → List Char → Option (List (String × Json) × List Char)
  | 0, _ => none
  | fuel + 1, cs => do
      let (name, rest) ← quoted cs
      match skipGap rest with
      | ':' :: rest => do
          let (value, rest) ← inner rest
          match skipGap rest with
          | ',' :: rest => do
              let (more, rest) ← fields inner fuel rest
              some ((name, value) :: more, rest)
          | '}' :: rest => some ([(name, value)], rest)
          | _ => none
      | _ => none

/-! ## Values -/

/-- Read a value; `inner` reads what stands inside arrays and objects, if anything may. -/
def value (inner : Option (List Char → Option (Json × List Char))) (cs : List Char) :
    Option (Json × List Char) :=
  match skipGap cs with
  | '[' :: rest =>
      inner.bind fun inner =>
        match skipGap rest with
        | ']' :: rest => some (.arr [], rest)
        | _ => (items inner rest.length rest).map fun (members, rest) => (.arr members, rest)
  | '{' :: rest =>
      inner.bind fun inner =>
        match skipGap rest with
        | '}' :: rest => some (.obj [], rest)
        | _ => (fields inner rest.length rest).map fun (members, rest) => (.obj members, rest)
  | '"' :: rest =>
      (stringBody rest).map fun (text, rest) => (.str (String.ofList text), rest)
  | 'n' :: 'u' :: 'l' :: 'l' :: rest => some (.null, rest)
  | 't' :: 'r' :: 'u' :: 'e' :: rest => some (.bool true, rest)
  | 'f' :: 'a' :: 'l' :: 's' :: 'e' :: rest => some (.bool false, rest)
  | cs => (number cs).map fun (n, rest) => (.num n, rest)

/-- Read a value with `levels` levels of nesting left. -/
def read : (levels : Nat) → List Char → Option (Json × List Char)
  | 0 => value none
  | levels + 1 => value (some (read levels))

/-- The value that a text writes, blanks around it allowed. -/
def parse? (text : String) : Option Json :=
  match read nestingLimit text.toList with
  | some (j, rest) => if skipGap rest = [] then some j else none
  | none => none

end QuestScript.Json
