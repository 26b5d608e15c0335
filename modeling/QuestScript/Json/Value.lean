/-
# QuestScript.Json.Value -- JSON values

The JSON values that trees, statements and reports are written as.  Numbers are natural
numbers, and the fields of an object stand in the order in which they are written.
-/

namespace QuestScript

set_option autoImplicit false

/-- A JSON value without negative numbers and fractions. -/
inductive Json where
  | null
  | bool (value : Bool)
  | num (value : Nat)
  | str (text : String)
  | arr (items : List Json)
  | obj (fields : List (String × Json))
deriving Repr, Inhabited

namespace Json

/-- The first of some fields with a name. -/
def field? (name : String) : List (String × Json) → Option Json
  | [] => none
  | (n, value) :: rest => if n = name then some value else field? name rest

/-- The text of a string. -/
def asString? : Json → Option String
  | .str text => some text
  | _ => none

/-- The value of a number. -/
def asNat? : Json → Option Nat
  | .num n => some n
  | _ => none

/-- A text field. -/
def string? (name : String) (fields : List (String × Json)) : Option String :=
  (field? name fields).bind asString?

/-- A number field. -/
def nat? (name : String) (fields : List (String × Json)) : Option Nat :=
  (field? name fields).bind asNat?

/-- A field that may be null or absent. -/
def optional? {α : Type} (read : Json → Option α) (name : String)
    (fields : List (String × Json)) : Option (Option α) :=
  match field? name fields with
  | none | some .null => some none
  | some value => (read value).map some

/-- A value or null. -/
def ofOption {α : Type} (write : α → Json) : Option α → Json
  | none => .null
  | some a => write a

end Json

end QuestScript
