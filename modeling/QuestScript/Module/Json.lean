/-
# QuestScript.Module.Json -- written modules and components

A catalog is written as an object with its entries as fields, in the order of the names.
-/
import QuestScript.Module.Component
import QuestScript.Statement.Json

namespace QuestScript

set_option autoImplicit false

/-- A process with the statements of its body. -/
def Process.toJson (p : Process) : Json :=
  .obj [("name", .str p.name), ("children", .arr (Statement.toJsonAll p.body))]

/-- A function with its parameters and the statements of its body. -/
def Function.toJson (f : Function) : Json :=
  .obj [("name", .str f.name), ("parameters", .arr (f.parameters.map Parameter.toJson)),
    ("children", .arr (Statement.toJsonAll f.body))]

/-- A catalog with its entries as fields. -/
def Catalog.toJson {α : Type} (write : α → Json) (c : Catalog α) : Json :=
  .obj (c.entries.map fun entry => (entry.1, write entry.2))

/-- The fields of a service. -/
def Service.toFields (s : Service) : List (String × Json) :=
  [("biz_module", .str s.business), ("processes", s.processes.toJson Process.toJson),
    ("functions", s.functions.toJson Function.toJson)]

/-- The fields of a product document. -/
def ProductDocument.toFields (d : ProductDocument) : List (String × Json) :=
  [("biz_module", .str d.business),
    ("requirements", d.requirements.toJson fun items => .arr (items.map .str))]

/-- A module, beginning with its kind. -/
def Module.toJson (m : Module) : Json :=
  .obj (("kind", .str m.kind.code) ::
    match m with
    | .service s => s.toFields
    | .prd d => d.toFields)

/-- A component; a service that is not attached is left out. -/
def Component.toJson (c : Component) : Json :=
  .obj ([("alias", .str c.displayName), ("description", .str c.description),
    ("methods", .arr (c.methods.map fun m =>
      .obj [("alias", .str m.displayName), ("description", .str m.description)]))] ++
    match c.service with
    | some s => [("service", .obj s.toFields)]
    | none => [])

end QuestScript
