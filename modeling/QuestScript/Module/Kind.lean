/-
# QuestScript.Module.Kind -- the kinds of documents

A script says what it is in its first item.  There are two kinds: services, which hold
processes and functions, and product documents, which hold requirements.
-/

namespace QuestScript

set_option autoImplicit false

/-- What a script describes. -/
inductive DocumentKind where
  | service | prd
deriving DecidableEq, Repr, Inhabited

namespace DocumentKind

/-- Every kind, in the order of kinds. -/
def all : List DocumentKind := [.service, .prd]

/-- What a script calls the kind. -/
def code : DocumentKind → String
  | .service => "service"
  | .prd => "prd"

/-- What people call the kind. -/
def displayName : DocumentKind → String
  | .service => "服务"
  | .prd => "产品"

/-- The kind's own name, as descriptions of registries give it. -/
def title : DocumentKind → String
  | .service => "Service"
  | .prd => "Prd"

/-- The kind with a code, which must be spelled exactly. -/
def ofCode? (text : String) : Option DocumentKind := all.find? fun kind => kind.code == text

theorem ofCode?_code (kind : DocumentKind) : ofCode? kind.code = some kind := by
  cases kind <;> decide

end DocumentKind

end QuestScript
