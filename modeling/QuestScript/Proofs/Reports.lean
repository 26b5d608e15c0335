/-
# QuestScript.Proofs.Reports -- what a run reports, and in which order

Paths are ordered so that of two different ones exactly one comes first, and no two files have
the same path.  So there is only one way to order the scripts, and a run over the same files
comes to the same, in whatever order they are listed (`run_of_perm`).  The report of a script
is made of its path and what it holds and of nothing else, so what the other files are, and
whether they have reports, does not show in it (`mem_reported_below`).

A report is written where the path of its script is shown, so reports have different places
unless their scripts are shown by one path, which for paths of texts does not happen
(`apart_below`).
-/
import Mathlib.Data.List.Nodup
import Mathlib.Data.Set.Card
import QuestScript.Batch.Folder
import QuestScript.Proofs.ShownPaths

namespace QuestScript

set_option autoImplicit false

namespace Batch

/-! ## Files in the order of their paths -/

section Files

variable {job : Job} {files others : List SourceFile} {r : Report}

theorem SourceFile.scripts_perm (files : List SourceFile) :
    (scripts files).Perm (files.filter fun f => f.path.isScript) := List.mergeSort_perm _ _

theorem SourceFile.mem_scripts {f : SourceFile} :
    f ∈ scripts files ↔ f ∈ files ∧ f.path.isScript := by
  rw [(scripts_perm files).mem_iff, List.mem_filter]

/-- Each script comes before those behind it. -/
theorem SourceFile.pairwise_scripts (distinct : (files.map path).Nodup) :
    (scripts files).Pairwise fun f g => f.path.Precedes g.path := by
  have sorted : (scripts files).Pairwise fun f g => decide (¬ g.path.Precedes f.path) := by
    refine List.pairwise_mergeSort (fun f g h => ?_) (fun f g => ?_) _
    · simp only [decide_eq_true_eq]
      intro first second third
      by_cases same : g.path = f.path
      · exact second (same ▸ third)
      · exact second (third.trans (Path.precedes_of_not first same))
    · simp only [Bool.or_eq_true, decide_eq_true_eq, ← not_and_or]
      exact fun ⟨back, forth⟩ => Path.Precedes.irrefl _ (back.trans forth)
  have apart : ((scripts files).map path).Nodup :=
    ((scripts_perm files).map path).nodup_iff.mpr (distinct.sublist (List.filter_sublist.map path))
  rw [List.Nodup, List.pairwise_map] at apart
  exact (sorted.and apart).imp fun ⟨behind, ne⟩ =>
    Path.precedes_of_not (of_decide_eq_true behind) ne.symm

/-- There is one order of the scripts. -/
theorem SourceFile.scripts_eq (distinct : (files.map path).Nodup)
    (same : others.Perm (files.filter fun f => f.path.isScript))
    (ordered : others.Pairwise fun f g => f.path.Precedes g.path) : scripts files = others := by
  refine List.Perm.eq_of_pairwise (fun f g _ _ before behind => ?_) (pairwise_scripts distinct)
    ordered ((scripts_perm files).trans same.symm)
  exact absurd (before.trans behind) (Path.Precedes.irrefl _)

theorem SourceFile.scripts_of_perm (distinct : (files.map path).Nodup) (same : files.Perm others) :
    scripts files = scripts others :=
  scripts_eq distinct ((scripts_perm others).trans (same.symm.filter _))
    (pairwise_scripts ((same.map path).nodup_iff.mp distinct))

/-- **The order in which files are listed does not matter.** -/
theorem run_of_perm (job : Job) (distinct : (files.map SourceFile.path).Nodup)
    (same : files.Perm others) : run job files = run job others := by
  rw [run, run, SourceFile.scripts_of_perm distinct same]

/-! ## Reports -/

/-- What a script is lowered to, if it is UTF-8 and has a module. -/
def Job.Lowers (job : Job) (content : ByteArray) (module : Module) : Prop :=
  ∃ source, String.fromUTF8? content = some source ∧
    lowerScript job.registry job.settings source = .ok module

/-- The report that shows the module of a script. -/
def Job.report (job : Job) (path : Path) (module : Module) : Report :=
  ⟨path.text, renderedUnits ⟨job.mode, job.settings.padDoubleSpace⟩ module, module⟩

theorem SourceFile.report?_eq_some {f : SourceFile} : f.report? job = some r ↔
    ∃ module, job.Lowers f.content module ∧ job.report f.path module = r := by
  unfold report? Job.Lowers Report.ofSource
  cases String.fromUTF8? f.content with
  | none => simp
  | some source =>
      cases lowered : lowerScript job.registry job.settings source <;>
        simp [lowered, Except.map, Except.toOption, Job.report]

/-- The scripts that have a report, each with the module that it shows, in the order of the
paths. -/
def reported (job : Job) (files : List SourceFile) : List (Path × Module) :=
  (SourceFile.scripts files).filterMap fun f =>
    (f.report? job).map fun report => (f.path, report.module)

theorem reports_eq (job : Job) (files : List SourceFile) :
    (run job files).reports = (reported job files).map fun a => job.report a.1 a.2 := by
  simp only [run, reported, List.filterMap_map, List.map_filterMap, Function.id_comp]
  refine List.filterMap_congr fun f _ => ?_
  cases some : f.report? job with
  | none => rfl
  | some r =>
      obtain ⟨module, -, rfl⟩ := SourceFile.report?_eq_some.mp some
      rfl

theorem mem_reported {path : Path} {module : Module} : (path, module) ∈ reported job files ↔
    ∃ f ∈ files, f.path = path ∧ path.isScript ∧ job.Lowers f.content module := by
  simp only [reported, List.mem_filterMap, SourceFile.mem_scripts, Option.map_eq_some_iff,
    SourceFile.report?_eq_some, Prod.mk.injEq]
  constructor
  · rintro ⟨f, ⟨file, script⟩, _, ⟨module, lowers, rfl⟩, rfl, rfl⟩
    exact ⟨f, file, rfl, script, lowers⟩
  · rintro ⟨f, file, rfl, script, lowers⟩
    exact ⟨f, ⟨file, script⟩, _, ⟨module, lowers, rfl⟩, rfl, rfl⟩

theorem pairwise_reported (job : Job) (distinct : (files.map SourceFile.path).Nodup) :
    (reported job files).Pairwise fun a b => a.1.Precedes b.1 := by
  rw [reported, List.pairwise_filterMap]
  refine (SourceFile.pairwise_scripts distinct).imp fun before a here b there => ?_
  obtain ⟨_, -, rfl⟩ := Option.map_eq_some_iff.mp here
  obtain ⟨_, -, rfl⟩ := Option.map_eq_some_iff.mp there
  exact before

end Files

/-! ## Folders -/

namespace Entry

/-- A path leads to a file. -/
inductive Holds : List Entry → Path → Prop where
  | file {entries : List Entry} {name : Name} (listed : .file name ∈ entries) :
      Holds entries [name]
  | folder {entries inner : List Entry} {name : Name} {path : Path}
      (listed : .folder name inner ∈ entries) (inside : Holds inner path) :
      Holds entries (name :: path)

/-- Files and folders have names, and those of one folder have different ones. -/
inductive Proper : List Entry → Prop where
  | nil : Proper []
  | file {name : Name} {entries : List Entry} (isName : Path.IsName name)
      (fresh : ∀ e ∈ entries, e.name ≠ name) (others : Proper entries) :
      Proper (.file name :: entries)
  | folder {name : Name} {inner entries : List Entry} (isName : Path.IsName name)
      (fresh : ∀ e ∈ entries, e.name ≠ name) (inside : Proper inner) (others : Proper entries) :
      Proper (.folder name inner :: entries)

/-- The same files and folders, listed in another order. -/
inductive Relisted : List Entry → List Entry → Prop where
  | refl (entries : List Entry) : Relisted entries entries
  | swap (e f : Entry) (entries : List Entry) : Relisted (e :: f :: entries) (f :: e :: entries)
  | cons (e : Entry) {entries others : List Entry} (same : Relisted entries others) :
      Relisted (e :: entries) (e :: others)
  | inside (name : Name) {inner others : List Entry} (entries : List Entry)
      (same : Relisted inner others) :
      Relisted (.folder name inner :: entries) (.folder name others :: entries)
  | trans {entries others more : List Entry} (same : Relisted entries others)
      (again : Relisted others more) : Relisted entries more

variable {entries others inner : List Entry} {path under : Path} {name : Name} {e : Entry}

theorem proper_file : Proper [.file name] ↔ Path.IsName name :=
  ⟨fun | .file isName _ _ => isName, fun isName => .file isName (by simp) .nil⟩

theorem proper_folder : Proper [.folder name inner] ↔ Path.IsName name ∧ Proper inner :=
  ⟨fun | .folder isName _ inside _ => ⟨isName, inside⟩,
    fun ⟨isName, inside⟩ => .folder isName (by simp) inside .nil⟩

theorem proper_cons :
    Proper (e :: entries) ↔ Proper [e] ∧ (∀ f ∈ entries, f.name ≠ e.name) ∧ Proper entries := by
  constructor
  · rintro (_ | ⟨isName, fresh, others⟩ | ⟨isName, fresh, inside, others⟩)
    · exact ⟨proper_file.mpr isName, fresh, others⟩
    · exact ⟨proper_folder.mpr ⟨isName, inside⟩, fresh, others⟩
  · rintro ⟨alone, fresh, others⟩
    cases e with
    | file name => exact .file (proper_file.mp alone) fresh others
    | folder name inner =>
        obtain ⟨isName, inside⟩ := proper_folder.mp alone
        exact .folder isName fresh inside others

mutual

/-- Whether an entry may be listed alone. -/
def decideAlone : (e : Entry) → Decidable (Proper [e])
  | .file _ => decidable_of_iff _ proper_file.symm
  | .folder _ inner =>
      have := decideProper inner
      decidable_of_iff _ proper_folder.symm

/-- Whether entries may be listed together. -/
def decideProper : (entries : List Entry) → Decidable (Proper entries)
  | [] => isTrue .nil
  | e :: entries =>
      have := decideAlone e
      have := decideProper entries
      decidable_of_iff _ proper_cons.symm

end

instance (entries : List Entry) : Decidable (Proper entries) := decideProper entries

theorem holds_cons : Holds (e :: entries) path ↔ Holds [e] path ∨ Holds entries path := by
  constructor
  · rintro (⟨listed⟩ | ⟨listed, inside⟩) <;> rcases List.mem_cons.mp listed with here | there
    · exact .inl (.file (List.mem_singleton.mpr here))
    · exact .inr (.file there)
    · exact .inl (.folder (List.mem_singleton.mpr here) inside)
    · exact .inr (.folder there inside)
  · rintro ((⟨listed⟩ | ⟨listed, inside⟩) | (⟨listed⟩ | ⟨listed, inside⟩))
    · exact .file (List.mem_cons.mpr (.inl (List.mem_singleton.mp listed)))
    · exact .folder (List.mem_cons.mpr (.inl (List.mem_singleton.mp listed))) inside
    · exact .file (List.mem_cons_of_mem e listed)
    · exact .folder (List.mem_cons_of_mem e listed) inside

theorem Holds.head (h : Holds entries path) : ∃ e ∈ entries, path.head? = some e.name := by
  cases h with
  | file listed => exact ⟨_, listed, rfl⟩
  | folder listed _ => exact ⟨_, listed, rfl⟩

theorem Holds.proper (proper : Proper entries) (h : Holds entries path) : path.Proper := by
  refine ⟨by cases h <;> exact List.cons_ne_nil _ _, ?_⟩
  induction proper generalizing path with
  | nil => rcases h with ⟨listed⟩ | ⟨listed, _⟩ <;> simp at listed
  | file isName fresh others ih =>
      rcases holds_cons.mp h with (⟨listed⟩ | ⟨listed, inside⟩) | there
      · obtain ⟨⟩ := List.mem_singleton.mp listed
        simpa using isName
      · simp at listed
      · exact ih there
  | folder isName fresh inside others ihInside ih =>
      rcases holds_cons.mp h with (⟨listed⟩ | ⟨listed, inside⟩) | there
      · simp at listed
      · obtain ⟨⟩ := List.mem_singleton.mp listed
        exact List.forall_mem_cons.mpr ⟨isName, ihInside inside⟩
      · exact ih there

mutual

theorem mem_scripts (under : Path) : ∀ e : Entry, path ∈ scripts under e ↔
    ∃ way, Holds [e] way ∧ path = under ++ way ∧ path.isScript
  | .file name => by
      constructor
      · intro member
        rw [scripts] at member
        split at member
        · rename_i script
          obtain rfl := List.mem_singleton.mp member
          exact ⟨[name], .file (List.mem_singleton.mpr rfl), rfl, script⟩
        · simp at member
      · rintro ⟨way, ⟨listed⟩ | ⟨listed, _⟩, rfl, script⟩
        · obtain ⟨⟩ := List.mem_singleton.mp listed
          rw [scripts, if_pos script]
          exact List.mem_singleton.mpr rfl
        · simp at listed
  | .folder name entries => by
      rw [scripts, mem_allScripts (under ++ [name]) entries]
      constructor
      · rintro ⟨way, inside, rfl, script⟩
        exact ⟨name :: way, .folder (List.mem_singleton.mpr rfl) inside, by simp, script⟩
      · rintro ⟨way, ⟨listed⟩ | ⟨listed, inside⟩, rfl, script⟩
        · simp at listed
        · obtain ⟨⟩ := List.mem_singleton.mp listed
          exact ⟨_, inside, by simp, script⟩

theorem mem_allScripts (under : Path) : ∀ entries : List Entry, path ∈ allScripts under entries ↔
    ∃ way, Holds entries way ∧ path = under ++ way ∧ path.isScript
  | [] => by
      simp only [allScripts, List.not_mem_nil, false_iff]
      rintro ⟨way, ⟨listed⟩ | ⟨listed, _⟩, _⟩ <;> simp at listed
  | e :: es => by
      rw [allScripts, List.mem_append, mem_scripts under e, mem_allScripts under es, ← exists_or]
      refine exists_congr fun way => ?_
      rw [← or_and_right, (holds_cons : Holds (e :: es) way ↔ _)]

end

/-- Scripts below a name are none of those below other names. -/
theorem disjoint_allScripts {name : Name} (fresh : ∀ e ∈ entries, e.name ≠ name)
    (below : under ++ name :: path ∈ allScripts under entries) : False := by
  obtain ⟨way, held, same, -⟩ := (mem_allScripts under entries).mp below
  obtain ⟨e, listed, first⟩ := held.head
  rw [← List.append_cancel_left same] at first
  exact fresh e listed (Option.some.inj first).symm

/-- No script is come across twice. -/
theorem nodup_allScripts (proper : Proper entries) (under : Path) :
    (allScripts under entries).Nodup := by
  induction proper generalizing under with
  | nil => exact List.nodup_nil
  | @file name entries isName fresh others ih =>
      rw [allScripts, scripts]
      split
      · exact List.nodup_cons.mpr ⟨disjoint_allScripts fresh, ih under⟩
      · exact ih under
  | @folder name inner entries isName fresh inside others ihInside ih =>
      rw [allScripts, scripts]
      refine (ihInside _).append (ih under) fun path within without => ?_
      obtain ⟨way, -, rfl, -⟩ := (mem_allScripts (under ++ [name]) inner).mp within
      rw [List.append_assoc] at without
      exact disjoint_allScripts fresh without

theorem allScripts_relisted (same : Relisted entries others) (under : Path) :
    (allScripts under entries).Perm (allScripts under others) := by
  induction same generalizing under with
  | refl entries => exact .refl _
  | swap e f entries =>
      simp only [allScripts, ← List.append_assoc]
      exact List.perm_append_comm.append_right _
  | cons e _ ih => exact (ih under).append_left _
  | inside name entries _ ih => exact (ih (under ++ [name])).append_right _
  | trans _ _ ih ih' => exact (ih under).trans (ih' under)

theorem mem_below {content : Path → ByteArray} {f : SourceFile} :
    f ∈ SourceFile.below content entries ↔
      Holds entries f.path ∧ f.path.isScript ∧ f.content = content f.path := by
  simp only [SourceFile.below, List.mem_map, mem_allScripts, List.nil_append]
  constructor
  · rintro ⟨path, ⟨way, held, rfl, script⟩, rfl⟩
    exact ⟨held, script, rfl⟩
  · rintro ⟨held, script, same⟩
    exact ⟨f.path, ⟨f.path, held, rfl, script⟩, by rw [← same]⟩

theorem paths_below (content : Path → ByteArray) (entries : List Entry) :
    (SourceFile.below content entries).map SourceFile.path = allScripts [] entries := by
  simp [SourceFile.below, Function.comp_def]

end Entry

/-! ## Runs over a folder -/

section Folder

variable {job : Job} {content : Path → ByteArray} {entries : List Entry}

/-- Whether a script is reported, and with which module, is seen from its name and what it
holds. -/
theorem mem_reported_below {path : Path} {module : Module} :
    (path, module) ∈ reported job (SourceFile.below content entries) ↔
      Entry.Holds entries path ∧ path.isScript ∧ job.Lowers (content path) module := by
  simp only [mem_reported, Entry.mem_below]
  constructor
  · rintro ⟨f, ⟨held, -, same⟩, rfl, script, lowers⟩
    exact ⟨held, script, same ▸ lowers⟩
  · rintro ⟨held, script, lowers⟩
    exact ⟨⟨path, content path⟩, ⟨held, script, rfl⟩, rfl, script, lowers⟩

theorem nodup_below (content : Path → ByteArray) (proper : Entry.Proper entries) :
    ((SourceFile.below content entries).map SourceFile.path).Nodup :=
  Entry.paths_below content entries ▸ Entry.nodup_allScripts proper []

theorem pairwise_reported_below (job : Job) (content : Path → ByteArray)
    (proper : Entry.Proper entries) :
    (reported job (SourceFile.below content entries)).Pairwise fun a b => a.1.Precedes b.1 :=
  pairwise_reported job (nodup_below content proper)

theorem filter_below (content : Path → ByteArray) (entries : List Entry) :
    (SourceFile.below content entries).filter (fun f => f.path.isScript) =
      SourceFile.below content entries :=
  List.filter_eq_self.mpr fun _ member => (Entry.mem_below.mp member).2.1

/-- The scripts below a folder, if their paths are known in order. -/
theorem scripts_below (content : Path → ByteArray) (proper : Entry.Proper entries)
    {paths : List Path} (same : paths.Perm (Entry.allScripts [] entries))
    (ordered : paths.Pairwise Path.Precedes) :
    SourceFile.scripts (SourceFile.below content entries) =
      paths.map fun path => ⟨path, content path⟩ := by
  refine SourceFile.scripts_eq (nodup_below content proper) ?_ (List.pairwise_map.mpr ordered)
  rw [filter_below]
  exact same.map _

theorem length_scripts_below (content : Path → ByteArray) (proper : Entry.Proper entries) :
    (SourceFile.scripts (SourceFile.below content entries)).length =
      {path | Entry.Holds entries path ∧ path.isScript}.ncard := by
  have all : {path | Entry.Holds entries path ∧ path.isScript} =
      ((Entry.allScripts [] entries).toFinset : Set Path) := by
    ext path
    simp [Entry.mem_allScripts]
  rw [all, Set.ncard_coe_finset, List.toFinset_card_of_nodup (Entry.nodup_allScripts proper []),
    (SourceFile.scripts_perm _).length_eq, filter_below, SourceFile.below, List.length_map]

/-- Each script has a report or has failed. -/
theorem counted_below (job : Job) (content : Path → ByteArray) (proper : Entry.Proper entries) :
    (run job (SourceFile.below content entries)).succeeded +
        (run job (SourceFile.below content entries)).failed =
      {path | Entry.Holds entries path ∧ path.isScript}.ncard := by
  rw [succeeded_add_failed, length_scripts_below content proper]

/-- The order in which a folder is listed does not matter. -/
theorem run_below_of_relisted (job : Job) (content : Path → ByteArray) {others : List Entry}
    (proper : Entry.Proper entries) (same : Entry.Relisted entries others) :
    run job (SourceFile.below content others) = run job (SourceFile.below content entries) :=
  (run_of_perm job (nodup_below content proper)
    ((Entry.allScripts_relisted same []).map _)).symm

/-- Reports have places of their own, unless their scripts are shown by one path; and paths of
texts are not. -/
theorem apart_below (job : Job) (content : Path → ByteArray) (proper : Entry.Proper entries) :
    (reported job (SourceFile.below content entries)).Pairwise fun a b =>
      (a.1.text ≠ b.1.text →
        Path.ofText (a.1.text ++ ".json") ≠ Path.ofText (b.1.text ++ ".json")) ∧
      (a.1.IsText → b.1.IsText → a.1.text ≠ b.1.text) := by
  refine (pairwise_reported_below job content proper).imp_of_mem
    fun {a b} member member' before => ?_
  have first := (mem_reported_below.mp member).1.proper proper
  have second := (mem_reported_below.mp member').1.proper proper
  refine ⟨mt (Path.text_eq_of_target first second), fun isText isText' same => ?_⟩
  exact Path.Precedes.irrefl _ (Path.eq_of_text first isText second isText' same ▸ before)

end Folder

end Batch

end QuestScript
