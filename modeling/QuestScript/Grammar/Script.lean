/-
# QuestScript.Grammar.Script -- scripts and their items

    script      = item*
    item        = kind | header | process | function | requirement
    kind        = "@kind" ("service" | "prd" | name) ";"
    header      = "@business" quote (any token but quote and ";")+ quote ";"
    process     = "process" name block
    function    = "function" name "(" (parameter ("," parameter)*)? ")" block
    parameter   = type name
    requirement = "requirement" name "{" (string ";")* "}"

where a quote is a back quote.  A script recovers from an item that cannot be read: the
tokens up to the next item are put under an error node.  `Entry.form` is the whole grammar
as a table, and `Entry.read` reads by it.
-/
import QuestScript.Grammar.Reading
import QuestScript.Grammar.Statement

namespace QuestScript.Grammar

set_option autoImplicit false

namespace Form

/-- The name an item declares. -/
def itemName : Form := token (· == .identifier) "name"

/-- Any name may stand for a kind; whether there is such a kind is asked later. -/
def namesKind : TokenKind → Bool
  | .kwService | .kwPrd | .identifier => true
  | _ => false

/-- What kind of document the script is. -/
def kindDeclaration : Form :=
  node .kindDecl (one .kindMark >> token namesKind "document kind" >> one .semi)

/-- A name between back quotes. -/
def businessName : Form :=
  node .businessName
    (one .backquote >>
      whenNext (· == .backquote) (refuse "business name") >>
      whileNext (· != .backquote) (token (· != .semi) TokenKind.backquote.display) >>
      one .backquote)

/-- The business that the script belongs to. -/
def businessHeader : Form :=
  node .businessHeader (one .businessMark >> trivia >> businessName >> one .semi)

/-- A named body. -/
def process : Form := node .processDecl (one .kwProcess >> itemName >> trivia >> block)

/-- The parameters of a function. -/
def parameters : Form := node .parameters (commaSeparated (trivia >> typeRef >> one .identifier))

/-- A named body with parameters. -/
def function : Form :=
  node .functionDecl
    (one .kwFunction >> itemName >> one .lParen >>
      unlessNext (· == .rParen) (trivia >> parameters) >> one .rParen >> trivia >> block)

/-- A named list of texts. -/
def requirement : Form :=
  node .requirementDecl
    (one .kwRequirement >> itemName >> one .lBrace >>
      whileNext (· != .rBrace) (string "requirement item string" >> one .semi) >> one .rBrace)

/-- An item, by the token it begins with. -/
def item : Form :=
  ifNext (· == .kindMark) kindDeclaration
    (ifNext (· == .businessMark) businessHeader
      (ifNext (· == .kwProcess) process
        (ifNext (· == .kwFunction) function
          (ifNext (· == .kwRequirement) requirement
            (refuse "process, function or requirement")))))

/-- The token is neither the end nor the beginning of an item. -/
def isStray (kind : TokenKind) : Bool := kind != .eof && !kind.startsItem

/-- The tokens that an item could not be made of. -/
def skippedItem : Form := whenNext isStray (node .error (takeWhile isStray))

/-- Items up to the end, with the trivia behind each. -/
def items : Form := whileNext (· != .eof) (recover item skippedItem >> trivia)

/-- The items of a script. -/
def script : Form := trivia >> items

end Form

namespace Entry

/-- The grammar, entry by entry. -/
def form : Entry → Form
  | .statement => .anyStatement
  | .assignment => .assignment
  | .ternary => .ternary
  | .unary => .unary
  | .cast => .cast
  | .link least own => .link least own
  | .suffix => .suffix
  | .typeArguments => .typeArguments

/-- Read an entry with `levels` levels of nesting left, one of which it takes itself. -/
def read : (levels : Nat) → Entry → Reader
  | 0, _ => fun _ ts => .failed ⟨.tooDeep, ts⟩ []
  | levels + 1, entry => entry.form.read (read levels)

end Entry

/-- Read a form with `levels` levels of nesting left. -/
def Form.readAt (levels : Nat) (f : Form) : Reader := f.read (Entry.read levels)

end QuestScript.Grammar
