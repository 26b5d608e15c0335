/-
# QuestScript.Proofs.Replies -- what the program says about a folder

The program answers for each script below a folder by itself.  A script has a report just if
its own content is lowered, and the report is a function of the path and the module
(`Describes`); the reports come in the order of the paths, each on a line or in a file of its
own.  `reply_below` says so of every folder and all that may be in it, and that neither the
order in which the folder is listed nor what else is in it shows.

It does not say so of all options, nor that every report has a place of its own
(`reply_below_collides`).  Options with a nesting limit that is out of range are refused before
anything is read, and scripts that are shown by one path have one place for their reports.
-/
import QuestScript.Program
import QuestScript.Proofs.Assembly
import QuestScript.Proofs.JsonText
import QuestScript.Proofs.Reports
import QuestScript.Proofs.WrittenLines

namespace QuestScript

open Text (bytes lines)

set_option autoImplicit false

/-! ## Documents -/

namespace Batch

/-- One unit is listed for each of some names, with the statements that are found under it. -/
def ListsBodies (rendering : Rendering) (sort : String) (names : List String)
    (body? : String → Option (List Statement)) (units : List Json) : Prop :=
  List.Forall₂
    (fun name unit => ∃ body, body? name = some body ∧
      unit = .obj [("unit", .str sort), ("name", .str name),
        ("text", .str (Statement.renderAll rendering body)),
        ("calls", .num (Statement.callsAll body).length)])
    names units

/-- The units of a service are its processes and then its functions, by name; a product
document has none. -/
def ListsUnits (rendering : Rendering) (units : List Json) : Module → Prop
  | .service s => ∃ processes functions, units = processes ++ functions ∧
      ListsBodies rendering "process" s.processes.names
        (fun name => (s.processes.get? name).map Process.body) processes ∧
      ListsBodies rendering "function" s.functions.names
        (fun name => (s.functions.get? name).map Function.body) functions
  | .prd _ => units = []

/-- The document tells of the module of the script at the path. -/
def Describes (job : Job) (path : Path) (module : Module) (document : Json) : Prop :=
  ∃ units, ListsUnits ⟨job.mode, job.settings.padDoubleSpace⟩ units module ∧
    document = .obj [("script", .str path.text), ("kind", .str module.kind.code),
      ("biz_module", .str module.business), ("units", .arr units), ("module", module.toJson)]

variable {job : Job} {content : ByteArray} {module : Module}

/-- Entries that have the names they are found under are listed by these. -/
theorem listsBodies_values {α : Type} {c : Catalog α} {nameOf : α → String}
    {bodyOf : α → List Statement} (rendering : Rendering) (sort : UnitSort)
    (named : ∀ name value, c.get? name = some value → nameOf value = name) :
    ListsBodies rendering sort.name c.names (fun name => (c.get? name).map bodyOf)
      (c.values.map fun value => Report.unitJson ⟨sort, nameOf value,
        Statement.renderAll rendering (bodyOf value),
        (Statement.callsAll (bodyOf value)).length⟩) := by
  rw [ListsBodies, Catalog.names, Catalog.values, List.map_map, List.forall₂_map_left_iff,
    List.forall₂_map_right_iff, List.forall₂_same]
  intro entry member
  have found : c.get? entry.1 = some entry.2 := Catalog.get?_eq_some.mpr member
  refine ⟨bodyOf entry.2, by rw [found]; rfl, ?_⟩
  rw [Function.comp_apply, named _ _ found]
  rfl

/-- The entries of a lowered service have the names they are found under. -/
theorem listsUnits_of_assembled {s : Service} {items : List Tree} (assembled : s.Assembled items)
    (rendering : Rendering) :
    ListsUnits rendering ((renderedUnits rendering (.service s)).map Report.unitJson)
      (.service s) := by
  refine ⟨_, _, List.map_append, ?_, ?_⟩
  · rw [List.map_map]
    refine listsBodies_values rendering .process fun name p found => ?_
    obtain ⟨_, -, declares⟩ := (assembled.processes.entry name p).mp found
    exact declares.2
  · rw [List.map_map]
    refine listsBodies_values rendering .function fun name f found => ?_
    obtain ⟨_, -, declares⟩ := (assembled.functions.entry name f).mp found
    exact declares.2.1

/-- A service comes from a script in order. -/
theorem lowerService_of_lowerScript {settings : Settings} {source : String} {s : Service}
    (lowered : lowerScript .standard settings source = .ok (.service s)) :
    ∃ text, (Parsed.ofText settings.maxNesting text).isOk ∧
      (Parsed.ofText settings.maxNesting text).root.lowerService = .ok s := by
  refine ⟨String.ofList (Text.tidyLines source.toList), ?_⟩
  unfold lowerScript at lowered
  generalize String.ofList (Text.tidyLines source.toList) = text at lowered ⊢
  simp only [Registry.assemble, Registry.get?_standard] at lowered
  split at lowered
  · rename_i ok
    obtain ⟨kind, -, run⟩ := bind_eq_ok.mp lowered
    cases kind with
    | service =>
        obtain ⟨_, made, same⟩ := Tree.map_eq_ok.mp run
        obtain rfl := Module.service.inj same
        exact ⟨ok, made⟩
    | prd =>
        obtain ⟨_, -, other⟩ := Tree.map_eq_ok.mp run
        cases other
  · cases lowered

/-- The units in the report of a lowered script. -/
theorem Job.Lowers.listsUnits (lowers : job.Lowers content module)
    (standard : job.registry = .standard) (rendering : Rendering) :
    ListsUnits rendering ((renderedUnits rendering module).map Report.unitJson) module := by
  cases module with
  | prd d => rfl
  | service s =>
      obtain ⟨source, -, lowered⟩ := lowers
      rw [standard] at lowered
      obtain ⟨text, ok, made⟩ := lowerService_of_lowerScript lowered
      exact listsUnits_of_assembled
        (Tree.assembled_of_lowerService (Parsed.items_of_isOk ok) made) rendering

/-- The report of a lowered script tells of its module. -/
theorem Job.Lowers.describes (lowers : job.Lowers content module)
    (standard : job.registry = .standard) (path : Path) :
    Describes job path module (job.report path module).toJson :=
  ⟨_, lowers.listsUnits standard _, rfl⟩

/-- Documents that each end a line are as many lines, and behind the last of them is nothing. -/
theorem lines_join (documents : List Json) :
    lines (String.join (documents.map fun d => d.compactText ++ "\n")).toList =
      documents.map (fun d => d.compactText.toList) ++ [[]] := by
  induction documents with
  | nil => rfl
  | cons d documents ih =>
      have inside : ∀ c ∈ d.compactText.toList, (c == '\n') = false := fun c member => by
        simpa using fun newline : c = '\n' => d.newline_notMem_compactText (newline ▸ member)
      rw [List.map_cons, String.join_cons, List.map_cons, List.cons_append, ← ih, lines,
        String.toList_append, String.toList_append]
      simp only [List.append_assoc, List.splitOn]
      exact List.splitOnP_append_cons_of_forall_mem inside '\n' (by simp) _

end Batch

/-! ## Replies -/

namespace Program

open Batch (Path Entry SourceFile Job Describes)
open CommandLine (Options)

/-- The run that options ask for. -/
def job (options : Options) : Job :=
  ⟨.standard, ⟨options.padDoubleSpace, options.maxDepth⟩, options.mode⟩

/-- The reply over the scripts below a folder. -/
def replyBelow (options : Options) (content : Path → ByteArray) (entries : List Entry) : Reply :=
  reply options (some (SourceFile.below content entries))

/-- The program reports on the scripts below a folder: those `reported`, each with its module,
and on each by the document that there is for its path and its module. -/
structure Answers (options : Options) (document : Path → Module → Json)
    (content : Path → ByteArray) (entries : List Entry) (reported : List (Path × Module)) :
    Prop where
  /-- A script is reported just if its own content is lowered, and with what that is lowered to. -/
  each : ∀ path module, (path, module) ∈ reported ↔
    Entry.Holds entries path ∧ path.isScript ∧ (job options).Lowers (content path) module
  ordered : reported.Pairwise fun a b => a.1.Precedes b.1
  /-- Reports have places of their own, unless their scripts are shown by one path. -/
  apart : reported.Pairwise fun a b =>
    (a.1.text ≠ b.1.text →
      Path.ofText (a.1.text ++ ".json") ≠ Path.ofText (b.1.text ++ ".json")) ∧
    (a.1.IsText → b.1.IsText → a.1.text ≠ b.1.text)
  /-- Without a folder for them the reports are printed, each on a line. -/
  printed : options.out = none →
    lines (replyBelow options content entries).printed.toList =
      reported.map (fun a => (document a.1 a.2).compactText.toList) ++ [[]] ∧
    (replyBelow options content entries).written = none
  /-- With one they are written, each to its place. -/
  written : options.out.isSome →
    (replyBelow options content entries).printed = "" ∧
    (replyBelow options content entries).written =
      some (reported.map fun a => (a.1.text ++ ".json", (document a.1 a.2).prettyText))
  /-- Each script has a report or has failed. -/
  counted : ∃ summary,
    carryOut options (some (SourceFile.below content entries)) = .ok summary ∧
    summary.succeeded = reported.length ∧
    summary.succeeded + summary.failed =
      {path | Entry.Holds entries path ∧ path.isScript}.ncard
  /-- The order in which the folder is listed does not show. -/
  relisted : ∀ others, Entry.Relisted entries others →
    replyBelow options content others = replyBelow options content entries

/-- The nesting limit of the options is in range. -/
def Accepts (options : Options) : Prop :=
  1 ≤ options.maxDepth ∧ options.maxDepth ≤ Settings.greatestNesting

instance (options : Options) : Decidable (Accepts options) := inferInstanceAs (Decidable (_ ∧ _))

variable {options : Options}

theorem carryOut_of_accepts (accepts : Accepts options) (files : List SourceFile) :
    carryOut options (some files) = .ok (Batch.run (job options) files) := by
  have accepted : options.settings = .ok ⟨options.padDoubleSpace, options.maxDepth⟩ :=
    Settings.checked_eq_ok_iff.mpr ⟨accepts, rfl⟩
  simp only [carryOut, accepted, job]

/-- Nothing is done with options that are not accepted, whatever the folder is. -/
theorem reply_of_not_accepts (refused : ¬ Accepts options) (files : Option (List SourceFile)) :
    reply options files =
      ⟨1, "", (SettingsError.nestingOutOfRange options.maxDepth).message ++ "\n", none⟩ := by
  have rejected : options.settings = .error (.nestingOutOfRange options.maxDepth) :=
    Settings.checked_eq_error_iff.mpr ⟨refused, rfl⟩
  have carried : carryOut options files =
      .error (.badSettings (.nestingOutOfRange options.maxDepth)) := by
    simp only [carryOut, rejected]
  rw [reply, carried]
  rfl

/-- What the program writes of a script with a module. -/
def document (options : Options) (path : Path) (module : Module) : Json :=
  ((job options).report path module).toJson

/-- The program answers by the reports of its run. -/
theorem answers (accepts : Accepts options) (content : Path → ByteArray) {entries : List Entry}
    (proper : Entry.Proper entries) :
    Answers options (document options) content entries
      (Batch.reported (job options) (SourceFile.below content entries)) := by
  have carried := carryOut_of_accepts accepts
  have reports := Batch.reports_eq (job options) (SourceFile.below content entries)
  constructor
  case each => exact fun path module => Batch.mem_reported_below
  case ordered => exact Batch.pairwise_reported_below _ content proper
  case apart => exact Batch.apart_below _ content proper
  case printed =>
    intro out
    rw [replyBelow, reply, carried, out]
    refine ⟨?_, rfl⟩
    have documents := Batch.lines_join
      ((Batch.reported (job options) (SourceFile.below content entries)).map
        fun a => document options a.1 a.2)
    simpa [Batch.Summary.lines, reports, List.map_map, Function.comp_def, document] using documents
  case written =>
    intro out
    obtain ⟨folder, named⟩ := Option.isSome_iff_exists.mp out
    rw [replyBelow, reply, carried, named]
    refine ⟨rfl, congrArg Option.some ?_⟩
    rw [Batch.Summary.files, reports, List.map_map]
    rfl
  case counted =>
    refine ⟨_, carried _, ?_, Batch.counted_below _ content proper⟩
    rw [Batch.Summary.succeeded, reports, List.length_map]
  case relisted =>
    intro others same
    rw [replyBelow, replyBelow, reply, reply, carried, carried,
      Batch.run_below_of_relisted _ content proper same]

end Program

end QuestScript
