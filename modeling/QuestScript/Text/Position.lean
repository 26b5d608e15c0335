/-
# QuestScript.Text.Position -- places in a text

A position counts the same prefix of a text three ways: in bytes of its UTF-8 form,
in lines, and in characters since the last line began.  All counts start at zero.
`Position.after` is the only way a position moves: by the characters it passes.
-/

namespace QuestScript.Text

set_option autoImplicit false

/-- The bytes of a stretch of characters. -/
def byteCount : List Char → Nat
  | [] => 0
  | c :: cs => c.utf8Size + byteCount cs

theorem byteCount_append (cs ds : List Char) :
    byteCount (cs ++ ds) = byteCount cs + byteCount ds := by
  induction cs with
  | nil => simp [byteCount]
  | cons c cs ih => simp [byteCount, ih, Nat.add_assoc]

/-- A place between two characters of a text. -/
structure Position where
  byte : Nat
  line : Nat
  column : Nat
deriving DecidableEq, Repr, Inhabited

namespace Position

/-- Where every text begins. -/
def zero : Position := ⟨0, 0, 0⟩

/-- The position behind one more character; a newline opens the next line. -/
def next (p : Position) (c : Char) : Position :=
  if c = '\n' then ⟨p.byte + c.utf8Size, p.line + 1, 0⟩
  else ⟨p.byte + c.utf8Size, p.line, p.column + 1⟩

/-- The position behind a stretch of characters. -/
def after (p : Position) (cs : List Char) : Position := cs.foldl next p

@[simp] theorem after_nil (p : Position) : p.after [] = p := rfl

@[simp] theorem after_cons (p : Position) (c : Char) (cs : List Char) :
    p.after (c :: cs) = (p.next c).after cs := rfl

theorem after_append (p : Position) (cs ds : List Char) :
    p.after (cs ++ ds) = (p.after cs).after ds := by
  simp [after, List.foldl_append]

theorem byte_next (p : Position) (c : Char) : (p.next c).byte = p.byte + c.utf8Size := by
  unfold next; split <;> rfl

/-- Bytes add up over the characters passed. -/
theorem byte_after (p : Position) (cs : List Char) : (p.after cs).byte = p.byte + byteCount cs := by
  induction cs generalizing p with
  | nil => rfl
  | cons c cs ih => simp [ih, byte_next, byteCount, Nat.add_assoc]

end Position

end QuestScript.Text
