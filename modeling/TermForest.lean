import TermForest.Main
import TermForest.Format.State
import TermForest.Proofs.Chronicle
import TermForest.Proofs.Except
import TermForest.Proofs.Slots
import TermForest.Proofs.Forest.Plant
import TermForest.Proofs.Node
import TermForest.Proofs.Supply
import TermForest.Proofs.Normal
import TermForest.Proofs.Rule.Edits
import TermForest.Proofs.Rule.Reduce
import TermForest.Proofs.Rule.Refusal
import TermForest.Proofs.Forest.Replace
import TermForest.Proofs.Play
import TermForest.Proofs.Forest.Lock
import TermForest.Proofs.Safety
import TermForest.Proofs.State.Exchange
import TermForest.Proofs.Report
import TermForest.Proofs.TwoPhase
import TermForest.Proofs.Commute
import TermForest.Proofs.Evaluation.Run
import TermForest.Proofs.State.Areas
import TermForest.Proofs.Rule.Calls
import TermForest.Proofs.Unfolding
import TermForest.Proofs.Fresh
import TermForest.Proofs.Level.Loaded
import TermForest.Proofs.Level.Rearrange
import TermForest.Proofs.Forest.Encoding
import TermForest.Proofs.State.Material
import TermForest.Proofs.Format.Codec
import TermForest.Proofs.Shift.Play
import TermForest.Proofs.State.Progress
import TermForest.Proofs.Defeat
import TermForest.Proofs.Substitution
import TermForest.Proofs.Innermost
import TermForest.Proofs.Partial
import TermForest.Proofs.Circular
import TermForest.Proofs.NamedFunction
import TermForest.Proofs.Arrays
import TermForest.Proofs.Repeat
import TermForest.Proofs.Comparison
import TermForest.Proofs.State.Refill
import TermForest.Proofs.State.Assign
import TermForest.Proofs.Alter
import TermForest.Proofs.Forest.Compare
import TermForest.Proofs.Forest.Turn
