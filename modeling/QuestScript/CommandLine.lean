/-
# QuestScript.CommandLine -- what a user asks for

    quest [options] SCRIPT_DIR

    -o, --out DIR          write the reports as files below DIR
        --source           write calls out in the texts of units
        --log-level LEVEL  what is told about the run on the side
        --pad-double-space pad the tokens that may be padded
        --max-depth N      the levels of nesting a script may have
        --strict           fail when a script fails
    -h, --help             tell this
    -V, --version          tell the version

The value of an option may stand in an argument of its own or behind an equals sign, and
behind the letter of a short option without one; behind `--` nothing is an option.

Arguments are read from left to right.  A value in an argument of its own is only looked
at when the next option or the end is reached, so an argument that is no option at all is
found before a fault in the value before it.
-/
import QuestScript.Settings
import QuestScript.Statement.Rendering

namespace QuestScript.CommandLine

set_option autoImplicit false

/-- Why arguments are not carried out. -/
inductive UsageError where
  | missingFolder
  | unknownArgument
  /-- An option without its value, or with an empty path. -/
  | missingValue
  /-- A value that is not a number. -/
  | malformedValue
  | repeatedOption
  | valueForSwitch
  /-- Help was asked for. -/
  | help
  /-- The version was asked for. -/
  | version
deriving DecidableEq, Repr

/-- What arguments give a value to. -/
inductive Slot where
  | folder | out | logLevel | maxDepth
deriving DecidableEq, Repr

/-- Options without a value. -/
inductive Switch where
  | source | padDoubleSpace | strict | help | version
deriving DecidableEq, Repr

/-- What a user asks for. -/
structure Options where
  folder : String
  out : Option String
  source : Bool
  logLevel : String
  padDoubleSpace : Bool
  maxDepth : Nat
  strict : Bool
deriving DecidableEq, Repr

/-- The settings a user asks for. -/
def Options.settings (o : Options) : Except SettingsError Settings :=
  Settings.checked o.padDoubleSpace o.maxDepth

/-- The way texts of units are written. -/
def Options.mode (o : Options) : RenderMode := if o.source then .source else .content

/-- What the arguments read so far say. -/
structure Progress where
  folder : Option String
  out : Option String
  logLevel : Option String
  maxDepth : Option Nat
  switches : List Switch
  /-- A slot whose value is still to be looked at, or still to come. -/
  pending : Option (Slot × Option String)
  /-- A folder was given, looked at or not. -/
  folderGiven : Bool
  /-- Nothing that follows is an option. -/
  optionsOver : Bool
deriving DecidableEq, Repr

/-- Nothing was read yet. -/
def Progress.start : Progress := ⟨none, none, none, none, [], none, false, false⟩

/-- The greatest number an option may give. -/
def greatestNumber : Nat := UInt64.size - 1

/-- A number in decimal digits, perhaps with a plus sign. -/
def number? (text : String) : Option Nat :=
  let digits :=
    match text.toList with
    | '+' :: rest => rest
    | cs => cs
  if digits ≠ [] ∧ digits.all Char.isDigit then
    let n := Nat.ofDigitChars 10 digits 0
    if n ≤ greatestNumber then some n else none
  else none

/-- The option with a long name. -/
def longOption? (name : String) : Option (Slot ⊕ Switch) :=
  match name with
  | "out" => some (.inl .out)
  | "log-level" => some (.inl .logLevel)
  | "max-depth" => some (.inl .maxDepth)
  | "source" => some (.inr .source)
  | "pad-double-space" => some (.inr .padDoubleSpace)
  | "strict" => some (.inr .strict)
  | "help" => some (.inr .help)
  | "version" => some (.inr .version)
  | _ => none

/-- The option with a letter. -/
def shortOption? (letter : Char) : Option (Slot ⊕ Switch) :=
  match letter with
  | 'o' => some (.inl .out)
  | 'h' => some (.inr .help)
  | 'V' => some (.inr .version)
  | _ => none

/-- The part before the first equals sign and, if there is one, the part behind it. -/
def splitValue (text : List Char) : List Char × Option (List Char) :=
  match text.dropWhile (· ≠ '=') with
  | [] => (text, none)
  | _ :: value => (text.takeWhile (· ≠ '='), some value)

/-- The value behind the letter of an option, with or without an equals sign. -/
def attachedValue : List Char → Option (List Char)
  | [] => none
  | '=' :: value => some value
  | value => some value

namespace Progress

/-- Look at the value of a slot.  That a slot has one already counts before what the value
is. -/
def give (p : Progress) (slot : Slot) (value : String) : Except UsageError Progress :=
  match slot with
  | .folder =>
      if p.folder.isSome then .error .repeatedOption
      else if value = "" then .error .missingValue
      else .ok { p with folder := some value }
  | .out =>
      if p.out.isSome then .error .repeatedOption
      else if value = "" then .error .missingValue
      else .ok { p with out := some value }
  | .logLevel =>
      if p.logLevel.isSome then .error .repeatedOption
      else .ok { p with logLevel := some value }
  | .maxDepth =>
      if p.maxDepth.isSome then .error .repeatedOption
      else
        match number? value with
        | some n => .ok { p with maxDepth := some n }
        | none => .error .malformedValue

/-- Look at the value that was not looked at yet. -/
def settle (p : Progress) : Except UsageError Progress :=
  match p.pending with
  | none => .ok p
  | some (_, none) => .error .missingValue
  | some (slot, some value) => { p with pending := none }.give slot value

/-- Turn a switch on. -/
def turnOn (p : Progress) (switch : Switch) : Except UsageError Progress := do
  let p ← p.settle
  match switch with
  | .help => .error .help
  | .version => .error .version
  | _ =>
      if switch ∈ p.switches then .error .repeatedOption
      else .ok { p with switches := switch :: p.switches }

/-- Begin an option that takes a value, which may be attached. -/
def beginOption (p : Progress) (slot : Slot) (value : Option (List Char)) :
    Except UsageError Progress := do
  let p ← p.settle
  match value with
  | some value => p.give slot (String.ofList value)
  | none => .ok { p with pending := some (slot, none) }

/-- An argument that is no option: the value that is waited for, or the folder. -/
def plain (p : Progress) (arg : String) : Except UsageError Progress :=
  match p.optionsOver, p.pending with
  | false, some (slot, none) => .ok { p with pending := some (slot, some arg) }
  | _, _ =>
      if p.folderGiven then .error .unknownArgument
      else do
        let p ← p.settle
        .ok { p with pending := some (.folder, some arg), folderGiven := true }

/-- Read one argument. -/
def step (p : Progress) (arg : String) : Except UsageError Progress :=
  if p.optionsOver then p.plain arg
  else
    match arg.toList with
    | ['-', '-'] => .ok { p with optionsOver := true }
    | '-' :: '-' :: text =>
        let (name, value) := splitValue text
        match longOption? (String.ofList name), value with
        | some (.inl slot), value => p.beginOption slot value
        | some (.inr switch), none => p.turnOn switch
        | some (.inr _), some _ => .error .valueForSwitch
        | none, _ => .error .unknownArgument
    | '-' :: letter :: rest =>
        match shortOption? letter with
        | some (.inl slot) => p.beginOption slot (attachedValue rest)
        | some (.inr switch) => p.turnOn switch
        | none => .error .unknownArgument
    | _ => p.plain arg

/-- What the user asks for, when all arguments are read. -/
def finish (p : Progress) : Except UsageError Options := do
  let p ← p.settle
  match p.folder with
  | none => .error .missingFolder
  | some folder =>
      .ok
        { folder
          out := p.out
          source := decide (.source ∈ p.switches)
          logLevel := p.logLevel.getD "info"
          padDoubleSpace := decide (.padDoubleSpace ∈ p.switches)
          maxDepth := p.maxDepth.getD Settings.standard.maxNesting
          strict := decide (.strict ∈ p.switches) }

end Progress

/-- Read the arguments of a user. -/
def parse (args : List String) : Except UsageError Options := do
  let p ← args.foldlM Progress.step .start
  p.finish

end QuestScript.CommandLine
