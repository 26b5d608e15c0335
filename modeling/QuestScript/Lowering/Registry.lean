/-
# QuestScript.Lowering.Registry -- which pipeline lowers which kind

A pipeline lowers the scripts of one kind, and what it makes of them is up to it.  A
registry holds at most one pipeline for each kind; `lowerScript` is the whole way from
the text of a script to its module.
-/
import QuestScript.Lowering.Module
import QuestScript.Parsed
import QuestScript.Settings
import QuestScript.Text.BlankLines

namespace QuestScript

set_option autoImplicit false

/-- What is done with scripts of the kind `handles`: they are lowered to a module of the
kind `makes`. -/
structure Pipeline where
  handles : DocumentKind
  makes : DocumentKind
deriving DecidableEq, Repr

/-- Lower a script. -/
def Pipeline.run (p : Pipeline) (script : Tree) : Lowered Module :=
  match p.makes with
  | .service => script.lowerService.map .service
  | .prd => script.lowerDocument.map .prd

/-- The pipelines in use. -/
structure Registry where
  pipelines : List Pipeline
deriving DecidableEq, Repr

namespace Registry

/-- No pipelines. -/
def empty : Registry := ⟨[]⟩

/-- The pipeline for a kind. -/
def get? (r : Registry) (kind : DocumentKind) : Option Pipeline :=
  r.pipelines.find? fun p => p.handles = kind

/-- Add a pipeline in place of any earlier one for its kind. -/
def register (r : Registry) (p : Pipeline) : Registry :=
  ⟨p :: r.pipelines.filter fun q => q.handles ≠ p.handles⟩

/-- Each kind with the pipeline that makes that kind. -/
def standard : Registry := (empty.register ⟨.service, .service⟩).register ⟨.prd, .prd⟩

/-- The kinds that have a pipeline, in the order of kinds. -/
def kinds (r : Registry) : List DocumentKind := DocumentKind.all.filter fun k => (r.get? k).isSome

/-- A registry on one line. -/
def describe (r : Registry) : String :=
  "PipelineRegistry \x7b kinds: [" ++ ", ".intercalate (r.kinds.map DocumentKind.title) ++
    "] \x7d"

/-- Lower a script by the pipeline for what it says it is. -/
def assemble (r : Registry) (script : Tree) : Lowered Module := do
  let kind ← script.documentKind
  match r.get? kind with
  | some p => p.run script
  | none => .error (.noPipeline kind)

theorem get?_register (r : Registry) (p : Pipeline) (kind : DocumentKind) :
    (r.register p).get? kind = if p.handles = kind then some p else r.get? kind := by
  unfold register get?
  by_cases h : p.handles = kind
  · simp [h]
  · simp only [List.find?_cons, h, decide_false, if_false, List.find?_filter]
    congr 1
    funext q
    by_cases hq : q.handles = kind
    · have : kind ≠ p.handles := fun e => h e.symm
      simp [hq, this]
    · simp [hq]

end Registry

/-- The text of a script as its module: its blank lines are bounded, it is read, and it
is lowered unless something was wrong with it. -/
def lowerScript (registry : Registry) (settings : Settings) (source : String) :
    Lowered Module :=
  let text := String.ofList (Text.tidyLines source.toList)
  let parsed := Parsed.ofText settings.maxNesting text
  if parsed.isOk then registry.assemble parsed.root
  else .error (.invalidScript parsed.diagnostics)

end QuestScript
