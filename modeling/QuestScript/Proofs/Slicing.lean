/-
# QuestScript.Proofs.Slicing -- a span cuts out the text it was made over

Positions count bytes, and a span is cut out of a text by its bytes.  Where the text is
put together from stretches of characters, the span from the position behind the first
stretch to the position behind the second one cuts out the second (`Span.slice_after`).
Tokens that are placed end to end are such stretches, so what several of them in a row
cover together is their text (`Token.slice_cover`).
-/
import QuestScript.Token.Basic
import QuestScript.Tree.Basic

namespace QuestScript

open Text (Position Span byteCount byteCount_append dropBytes takeBytes)

set_option autoImplicit false

namespace Text

theorem dropBytes_next (n : Nat) (x : Char) (xs : List Char) :
    dropBytes (x.utf8Size + n) (x :: xs) = dropBytes n xs := by
  have positive := x.utf8Size_pos
  obtain ⟨k, some⟩ := Nat.exists_eq_succ_of_ne_zero (show x.utf8Size + n ≠ 0 by omega)
  rw [some, dropBytes, if_pos (by omega), ← Nat.succ_eq_add_one, ← some, Nat.add_sub_cancel_left]

theorem takeBytes_next (n : Nat) (x : Char) (xs : List Char) :
    takeBytes (x.utf8Size + n) (x :: xs) = (takeBytes n xs).map (x :: ·) := by
  have positive := x.utf8Size_pos
  obtain ⟨k, some⟩ := Nat.exists_eq_succ_of_ne_zero (show x.utf8Size + n ≠ 0 by omega)
  rw [some, takeBytes, if_pos (by omega), ← Nat.succ_eq_add_one, ← some, Nat.add_sub_cancel_left]

theorem dropBytes_append (xs ys : List Char) : dropBytes (byteCount xs) (xs ++ ys) = some ys := by
  induction xs with
  | nil => rw [byteCount, dropBytes]; rfl
  | cons x xs ih => rw [byteCount, List.cons_append, dropBytes_next, ih]

theorem takeBytes_append (xs ys : List Char) : takeBytes (byteCount xs) (xs ++ ys) = some xs := by
  induction xs with
  | nil => rw [byteCount, takeBytes]
  | cons x xs ih => rw [byteCount, List.cons_append, takeBytes_next, ih, Option.map_some]

/-- The span from behind `xs` to behind `ys` cuts out `ys`. -/
theorem Span.slice_after (xs ys zs : List Char) :
    Span.slice ⟨Position.zero.after xs, Position.zero.after (xs ++ ys)⟩ (xs ++ (ys ++ zs)) = ys := by
  have start : (Position.zero.after xs).byte = byteCount xs := by
    simp [Position.byte_after, Position.zero]
  have stop : (Position.zero.after (xs ++ ys)).byte = byteCount xs + byteCount ys := by
    simp [Position.byte_after, Position.zero, byteCount_append]
  simp only [Span.slice, Span.length, start, stop]
  rw [if_pos (by omega), dropBytes_append, Nat.add_sub_cancel_left, Option.bind_some,
    takeBytes_append, Option.getD_some]

theorem Span.slice_emptyAt (p : Position) (text : List Char) : (emptyAt p).slice text = [] := by
  cases h : dropBytes p.byte text <;> simp [slice, emptyAt, length, h, takeBytes]

end Text

namespace Token

/-- The characters of some tokens, one behind the other. -/
def textOf (ts : List Token) : List Char := ts.flatMap fun t => t.text.toList

@[simp] theorem textOf_nil : textOf [] = [] := rfl

@[simp] theorem textOf_append (ts us : List Token) : textOf (ts ++ us) = textOf ts ++ textOf us :=
  List.flatMap_append

@[simp] theorem textOf_cons (t : Token) (ts : List Token) :
    textOf (t :: ts) = t.text.toList ++ textOf ts := rfl

/-- The tokens stand end to end from `p` on. -/
def EndToEnd (p : Position) (ts : List Token) : Prop := placed p (ts.map lexeme) = ts

theorem endToEnd_placed (p : Position) (ls : List Lexeme) : EndToEnd p (placed p ls) := by
  rw [EndToEnd, lexeme_placed]

theorem endToEnd_cons {p : Position} {t : Token} {ts : List Token} :
    EndToEnd p (t :: ts) ↔ t.span = ⟨p, p.after t.text.toList⟩ ∧
      EndToEnd (p.after t.text.toList) ts := by
  obtain ⟨kind, span, text⟩ := t
  simp only [EndToEnd, List.map_cons, lexeme, placed, List.cons.injEq, Token.mk.injEq, true_and,
    and_true]
  exact and_congr_left' eq_comm

/-- What stands behind some of the tokens stands end to end too, from the end of their text. -/
theorem endToEnd_append {p : Position} {ts us : List Token} :
    EndToEnd p (ts ++ us) ↔ EndToEnd p ts ∧ EndToEnd (p.after (textOf ts)) us := by
  induction ts generalizing p with
  | nil => simp [EndToEnd, placed]
  | cons t ts ih =>
      rw [List.cons_append, endToEnd_cons, endToEnd_cons, ih, textOf_cons,
        Position.after_append, and_assoc]

theorem EndToEnd.right {p : Position} {ts us : List Token} (h : EndToEnd p (ts ++ us)) :
    EndToEnd (p.after (textOf ts)) us := (endToEnd_append.mp h).2

/-- The span from the first to the last of some tokens. -/
def cover (first : Token) (rest : List Token) : Span :=
  ⟨first.span.start, (rest.getLast?.getD first).span.stop⟩

/-- Tokens that stand end to end cover their text. -/
theorem EndToEnd.cover_eq {p : Position} {t : Token} {ts us : List Token}
    (h : EndToEnd p (t :: ts ++ us)) : cover t ts = ⟨p, p.after (textOf (t :: ts))⟩ := by
  induction ts generalizing p t with
  | nil => simp [cover, (endToEnd_cons.mp h).1]
  | cons u ts ih =>
      obtain ⟨here, later⟩ := endToEnd_cons.mp h
      have stop := congrArg Span.stop (ih later)
      simp only [cover] at stop
      rw [textOf_cons, Position.after_append, ← stop]
      simp [cover, here, List.getLast?_cons]

/-- Tokens in a row of a text that is cut into tokens cover just their own text. -/
theorem slice_cover {before row behind : List Token} {t : Token}
    (h : EndToEnd .zero (before ++ (t :: row ++ behind))) :
    (cover t row).slice (textOf (before ++ (t :: row ++ behind))) = textOf (t :: row) := by
  rw [h.right.cover_eq, ← Position.after_append, textOf_append, textOf_append, Span.slice_after]

end Token

end QuestScript
