/-
# QuestScript.Batch.Report -- what is reported of a script

The report of a script holds its module and the text of each process and function.  It says
which script it is of by the path as it is shown, which for a path that is no text need not
be the path of that script alone.
-/
import QuestScript.Batch.Path
import QuestScript.Json.Writer
import QuestScript.Lowering.Registry
import QuestScript.Module.Json

namespace QuestScript.Batch

set_option autoImplicit false

/-- A process or a function of a service. -/
inductive UnitSort where
  | process | function
deriving DecidableEq, Repr

/-- The name of a sort in reports. -/
def UnitSort.name : UnitSort → String
  | .process => "process"
  | .function => "function"

/-- The text of a process or function and the number of calls in it. -/
structure RenderedUnit where
  sort : UnitSort
  name : String
  text : String
  calls : Nat
deriving DecidableEq, Repr

/-- The units of a module, processes before functions; a document has none. -/
def renderedUnits (rendering : Rendering) : Module → List RenderedUnit
  | .prd _ => []
  | .service s =>
      let unit (sort : UnitSort) (name : String) (body : List Statement) : RenderedUnit :=
        ⟨sort, name, Statement.renderAll rendering body, (Statement.callsAll body).length⟩
      s.processes.values.map (fun p => unit .process p.name p.body) ++
        s.functions.values.map fun f => unit .function f.name f.body

/-- What is reported of a script. -/
structure Report where
  /-- The path of the script, as it is shown. -/
  script : String
  units : List RenderedUnit
  module : Module

namespace Report

/-- The report of a script from its text. -/
def ofSource (registry : Registry) (settings : Settings) (mode : RenderMode) (path : Path)
    (source : String) : Except LoweringError Report :=
  (lowerScript registry settings source).map fun module =>
    ⟨path.text, renderedUnits ⟨mode, settings.padDoubleSpace⟩ module, module⟩

/-- Where the report is written, below the folder for reports.  The ending of the script
stays part of the name, so scripts that differ in it alone have reports of their own. -/
def target (r : Report) : String := r.script ++ ".json"

/-- A unit as a report lists it. -/
def unitJson (u : RenderedUnit) : Json :=
  .obj [("unit", .str u.sort.name), ("name", .str u.name), ("text", .str u.text),
    ("calls", .num u.calls)]

/-- A report, its module last. -/
def toJson (r : Report) : Json :=
  .obj [("script", .str r.script), ("kind", .str r.module.kind.code),
    ("biz_module", .str r.module.business), ("units", .arr (r.units.map unitJson)),
    ("module", r.module.toJson)]

end Report

end QuestScript.Batch
