import QuestScript.Diagnostic.Json
import QuestScript.Json.Reader
import QuestScript.Json.Writer
import QuestScript.Main
import QuestScript.Proofs.BrokenStatement
import QuestScript.Proofs.Calls
import QuestScript.Proofs.Completeness
import QuestScript.Proofs.Diagnosis
import QuestScript.Proofs.Loops
import QuestScript.Proofs.PaddedRoundTrip
import QuestScript.Proofs.Positions
import QuestScript.Proofs.Replies
import QuestScript.Proofs.Running
import QuestScript.Proofs.Salvage
import QuestScript.Proofs.Scanning
import QuestScript.Proofs.Separation
import QuestScript.Proofs.Spellings
import QuestScript.Proofs.StatementText
import QuestScript.Proofs.Tidied
import QuestScript.Proofs.TreeText
import QuestScript.Proofs.Units
import QuestScript.Proofs.Verdict
import QuestScript.Proofs.Woven
import QuestScript.Tree.Json
