/-
# QuestScript.CommandLine.Usage -- what is told about arguments

The help text, and what is said of arguments that are not carried out.  Help and the
version are asked for and count as answers; everything else is a mistake.
-/
import QuestScript.CommandLine

namespace QuestScript.CommandLine

set_option autoImplicit false

/-- How the program is called. -/
def usage : String :=
  "Usage: quest [OPTIONS] <SCRIPT_DIR>\n\n" ++
  "Arguments:\n" ++
  "  <SCRIPT_DIR>  Folder searched for .quest and .ql scripts\n\n" ++
  "Options:\n" ++
  "  -o, --out <DIR>          Write one report per script below DIR\n" ++
  "      --source             Write calls out in the texts of units\n" ++
  "      --log-level <LEVEL>  What is told about the run [default: info]\n" ++
  "      --pad-double-space   Pad : and . with a blank on both sides\n" ++
  "      --max-depth <N>      Levels of nesting a script may have [default: 256]\n" ++
  "      --strict             Fail when any script fails\n" ++
  "  -h, --help               Print help\n" ++
  "  -V, --version            Print version\n"

namespace UsageError

/-- The user asked for what is told, rather than made a mistake. -/
def isAnswer : UsageError → Bool
  | .help | .version => true
  | _ => false

/-- What is told: for a mistake what it is, and how the program is called. -/
def message : UsageError → String
  | .missingFolder => "error: a folder of scripts is required\n\n" ++ usage
  | .unknownArgument => "error: unexpected argument\n\n" ++ usage
  | .missingValue => "error: an option needs a value\n\n" ++ usage
  | .malformedValue => "error: a value is not a number\n\n" ++ usage
  | .repeatedOption => "error: an option is given twice\n\n" ++ usage
  | .valueForSwitch => "error: an option takes no value\n\n" ++ usage
  | .help => usage
  | .version => "quest 0.1.0\n"

end UsageError

end QuestScript.CommandLine
