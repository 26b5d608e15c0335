/-
# QuestScript.Module.Basic -- modules

A module is what a script describes: a service with its processes and functions, or a
product document with its requirements.  Both belong to a business, whose name may be
empty.
-/
import QuestScript.Module.Catalog
import QuestScript.Module.Kind
import QuestScript.Statement.Basic

namespace QuestScript

set_option autoImplicit false

/-- The processes and functions of a service. -/
structure Service where
  business : String
  processes : Catalog Process
  functions : Catalog Function

/-- The requirements of a product, each a list of items. -/
structure ProductDocument where
  business : String
  requirements : Catalog (List String)

/-- What a script describes. -/
inductive Module where
  | service (service : Service)
  | prd (document : ProductDocument)

namespace Service

/-- A service without processes and functions. -/
def named (business : String) : Service := ⟨business, .empty, .empty⟩

/-- Put a process under a name, over the one that has it. -/
def putProcess (s : Service) (name : String) (process : Process) : Service :=
  { s with processes := s.processes.put name process }

/-- Put a function under a name, over the one that has it. -/
def putFunction (s : Service) (name : String) (function : Function) : Service :=
  { s with functions := s.functions.put name function }

end Service

namespace ProductDocument

/-- A document without requirements. -/
def named (business : String) : ProductDocument := ⟨business, .empty⟩

/-- Put a requirement under a name, over the one that has it. -/
def putRequirement (d : ProductDocument) (name : String) (items : List String) :
    ProductDocument :=
  { d with requirements := d.requirements.put name items }

end ProductDocument

namespace Module

/-- The kind of a module. -/
def kind : Module → DocumentKind
  | .service _ => .service
  | .prd _ => .prd

/-- The business that a module belongs to. -/
def business : Module → String
  | .service s => s.business
  | .prd d => d.business

end Module

end QuestScript
