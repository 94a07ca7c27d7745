import PatternMachine.Main
import PatternMachine.Proofs.Draft.Chains
import PatternMachine.Proofs.Draft.NormalForm
import PatternMachine.Proofs.Draft.Pruning
import PatternMachine.Proofs.Draft.Simplifications
import PatternMachine.Proofs.Draft.Splice
import PatternMachine.Proofs.Machine.Confined
import PatternMachine.Proofs.Machine.Limit
import PatternMachine.Proofs.Machine.Shared
import PatternMachine.Proofs.Pattern.Counters
import PatternMachine.Proofs.Pattern.Depth
import PatternMachine.Proofs.Program.Render
import PatternMachine.Proofs.Regex.Offsets
import PatternMachine.Proofs.Regex.Priority
import PatternMachine.Proofs.Regex.Repetition
import PatternMachine.Proofs.Regex.Shorten
import PatternMachine.Proofs.Regex.Suffix
import PatternMachine.Regex.Event
