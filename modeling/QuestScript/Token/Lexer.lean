/-
# QuestScript.Token.Lexer -- cutting a script into tokens

A token is determined by its first character and by how far it reaches.  Each kind of
token has an extent: how many of the characters behind the first one belong to it.  The
lexer takes those characters, drops them and goes on, so no character is lost and none
is read twice; `ofText_cons` is the whole lexer as one equation.

* White space and comments in any mixture are one trivia token.
* A string ends with its quote, at the end of the line, or at the end of the script;
  a backslash takes the next character along, whatever it is.
* A number takes one decimal point, when a digit follows it, one exponent and one
  suffix.
* `>` never joins another `>`, so type arguments may close side by side.
-/
import QuestScript.Text.Blank
import QuestScript.Text.Letter
import QuestScript.Token.Basic

namespace QuestScript

open Text (isBlank isAlphabetic isAlphanumeric Position)

set_option autoImplicit false

namespace Lexeme

/-! ## Trivia -/

/-- What a stretch of trivia is in the middle of. -/
inductive TriviaPart where
  /-- Between comments. -/
  | blank
  | lineComment
  /-- Before the star that opens a block comment. -/
  | blockOpen
  | blockComment
  /-- Before the slash that closes a block comment. -/
  | blockClose
deriving DecidableEq, Repr

/-- How many characters continue trivia.  A line comment leaves the newline to the
blanks behind it; a block comment without an end takes the rest of the script. -/
def triviaExtent : TriviaPart → List Char → Nat
  | _, [] => 0
  | .blank, c :: cs =>
      if isBlank c then triviaExtent .blank cs + 1
      else if c = '/' && cs.head? = some '/' then triviaExtent .lineComment cs + 1
      else if c = '/' && cs.head? = some '*' then triviaExtent .blockOpen cs + 1
      else 0
  | .lineComment, c :: cs =>
      if c = '\n' then triviaExtent .blank cs + 1 else triviaExtent .lineComment cs + 1
  | .blockOpen, _ :: cs => triviaExtent .blockComment cs + 1
  | .blockComment, c :: cs =>
      if c = '*' && cs.head? = some '/' then triviaExtent .blockClose cs + 1
      else triviaExtent .blockComment cs + 1
  | .blockClose, _ :: cs => triviaExtent .blank cs + 1

/-! ## Strings and numbers -/

/-- How many characters continue a string opened by `quote`, its end included.
`escaped` says that a backslash was just read. -/
def stringExtent (quote : Char) : (escaped : Bool) → List Char → Nat
  | _, [] => 0
  | true, _ :: cs => stringExtent quote false cs + 1
  | false, c :: cs =>
      if c = quote then 1
      else if c = '\n' then 0
      else stringExtent quote (c = '\\') cs + 1

/-- The string opened by `quote` ends in an unescaped quote of its own, not at the end of
a line or of the script. -/
def stringCloses (quote : Char) : (escaped : Bool) → List Char → Bool
  | _, [] => false
  | true, _ :: cs => stringCloses quote false cs
  | false, c :: cs =>
      if c = quote then true
      else if c = '\n' then false
      else stringCloses quote (c = '\\') cs

/-- Suffixes that say how a number is stored. -/
def isNumberSuffix (c : Char) : Bool :=
  c = 'l' || c = 'L' || c = 'd' || c = 'D' || c = 'f' || c = 'F'

/-- What part of a number is being read. -/
inductive NumberPart where
  | whole
  | fraction
  /-- Behind the letter of the exponent, where a sign may stand. -/
  | exponentMark
  | exponent
deriving DecidableEq, Repr

/-- How many characters continue a number. -/
def numberExtent : NumberPart → List Char → Nat
  | _, [] => 0
  | part, c :: cs =>
      if c.isDigit || c = '_' then
        numberExtent (if part = .exponentMark then .exponent else part) cs + 1
      else if part = .whole && c = '.' && cs.head?.any Char.isDigit then
        numberExtent .fraction cs + 1
      else if (part = .whole || part = .fraction) && (c = 'e' || c = 'E') then
        numberExtent .exponentMark cs + 1
      else if part = .exponentMark && (c = '+' || c = '-') then numberExtent .exponent cs + 1
      else if isNumberSuffix c then 1
      else 0

/-! ## Words -/

/-- Characters that may begin a word. -/
def startsWord (c : Char) : Bool := isAlphabetic c || c = '_' || c = '$'

/-- Characters that may continue a word. -/
def continuesWord (c : Char) : Bool := isAlphanumeric c || c = '_' || c = '$'

/-- Characters that may continue an annotation. -/
def continuesMark (c : Char) : Bool := isAlphanumeric c || c = '_'

/-- How many of the first characters satisfy `p`. -/
def runExtent (p : Char → Bool) (cs : List Char) : Nat := (cs.takeWhile p).length

/-- A word is a keyword when it is spelled like one, and a name otherwise. -/
def wordKind (word : List Char) : TokenKind :=
  (TokenKind.keywords.find? fun kind => kind.display.toList = word).getD .identifier

/-- The annotations there are; any other one is an error. -/
def markKind (mark : List Char) : TokenKind :=
  ([TokenKind.kindMark, .businessMark].find? fun kind => kind.display.toList = mark).getD .error

/-! ## One token -/

/-- The kind of an operator that becomes another one when a given character follows. -/
def joined (cs : List Char) (pairs : List (Char × TokenKind)) (alone : TokenKind) :
    TokenKind × Nat :=
  match pairs.find? fun pair => cs.head? = some pair.1 with
  | some pair => (pair.2, 1)
  | none => (alone, 0)

/-- The kind of the token that begins with `c` and the number of characters of `cs` that
belong to it. -/
def scan (c : Char) (cs : List Char) : TokenKind × Nat :=
  let trivia := triviaExtent .blank (c :: cs)
  if trivia > 0 then (.trivia, trivia - 1)
  else
    match c with
    | '(' => (.lParen, 0)
    | ')' => (.rParen, 0)
    | '[' => (.lBracket, 0)
    | ']' => (.rBracket, 0)
    | '{' => (.lBrace, 0)
    | '}' => (.rBrace, 0)
    | ';' => (.semi, 0)
    | ',' => (.comma, 0)
    | '.' => (.dot, 0)
    | '?' => (.question, 0)
    | ':' => (.colon, 0)
    | '\x60' => (.backquote, 0)
    | '+' => joined cs [('+', .plusPlus), ('=', .plusAssign)] .plus
    | '-' => joined cs [('-', .minusMinus), ('=', .minusAssign)] .minus
    | '*' => joined cs [('=', .starAssign)] .star
    | '/' => joined cs [('=', .slashAssign)] .slash
    | '%' => joined cs [('=', .percentAssign)] .percent
    | '=' => joined cs [('=', .eqEq)] .assign
    | '!' => joined cs [('=', .bangEq)] .bang
    | '<' => joined cs [('=', .ltEq)] .lt
    | '>' => joined cs [('=', .gtEq)] .gt
    | '&' => joined cs [('&', .ampAmp)] .error
    | '|' => joined cs [('|', .pipePipe)] .error
    | '@' => (markKind (c :: cs.takeWhile continuesMark), runExtent continuesMark cs)
    | _ =>
        if c = '"' || c = '\'' then (.string, stringExtent c false cs)
        else if c.isDigit then (.number, numberExtent .whole cs)
        else if startsWord c then
          (wordKind (c :: cs.takeWhile continuesWord), runExtent continuesWord cs)
        else (.error, 0)

/-! ## The whole script -/

/-- The first `fuel` lexemes of a script. -/
def firstOf : Nat → List Char → List Lexeme
  | 0, _ => []
  | _ + 1, [] => []
  | fuel + 1, c :: cs =>
      let (kind, extent) := scan c cs
      ⟨kind, String.ofList (c :: cs.take extent)⟩ :: firstOf fuel (cs.drop extent)

/-- The lexemes of a script; it has no more of them than characters. -/
def ofText (cs : List Char) : List Lexeme := firstOf cs.length cs

/-- Fuel beyond the length of the script changes nothing. -/
theorem firstOf_eq_of_length_le {cs : List Char} {n m : Nat} (hn : cs.length ≤ n)
    (hm : cs.length ≤ m) : firstOf n cs = firstOf m cs := by
  induction n generalizing cs m with
  | zero =>
      obtain rfl : cs = [] := List.length_eq_zero_iff.mp (Nat.le_zero.mp hn)
      cases m <;> rfl
  | succ n ih =>
      cases cs with
      | nil => cases m <;> rfl
      | cons c cs =>
          cases m with
          | zero => simp at hm
          | succ m =>
              simp only [List.length_cons, Nat.add_le_add_iff_right] at hn hm
              simp only [firstOf]
              rw [ih (m := m)] <;> simp only [List.length_drop] <;> omega

@[simp] theorem ofText_nil : ofText [] = [] := rfl

/-- The lexer: one token, then the tokens of what it leaves. -/
theorem ofText_cons (c : Char) (cs : List Char) :
    ofText (c :: cs) =
      ⟨(scan c cs).1, String.ofList (c :: cs.take (scan c cs).2)⟩ ::
        ofText (cs.drop (scan c cs).2) := by
  unfold ofText
  simp only [List.length_cons, firstOf]
  rw [firstOf_eq_of_length_le (m := (cs.drop (scan c cs).2).length)] <;>
    simp only [List.length_drop] <;> omega

end Lexeme

namespace Token

/-- The tokens of a script, blanks and comments included, with the token at its end. -/
def ofText (cs : List Char) : List Token :=
  placed .zero (Lexeme.ofText cs) ++ [atEnd (Position.zero.after cs)]

end Token

end QuestScript
