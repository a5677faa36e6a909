import Linearizability.Checker
import Linearizability.Event.Codec
import Linearizability.History
import Linearizability.Reference.Codec
import Linearizability.Reference.Probe
import Linearizability.Subject.Sample
import Linearizability.Trial.Codec
import Linearizability.Value.Conversion
import Linearizability.Verdict.Codec
import Linearizability.Proofs.Balance
import Linearizability.Proofs.Completion
import Linearizability.Proofs.Adaptation.Conservation
import Linearizability.Proofs.Explanation
import Linearizability.Proofs.FailingUndo
import Linearizability.Proofs.Frontier
import Linearizability.Proofs.Misstep
import Linearizability.Proofs.Overlap
import Linearizability.Proofs.Recorder.Agreement
import Linearizability.Proofs.SharedObject.Unflagged
import Linearizability.Proofs.StepCount
import Linearizability.Proofs.HandBuilt
import Linearizability.Proofs.Rewinding
import Linearizability.Proofs.RoundTrip
import Linearizability.Proofs.Search.Tree
import Linearizability.Proofs.Recorder.Discipline
import Linearizability.Proofs.Trial.Plan
import Linearizability.Proofs.Trial.Progress
import Linearizability.Proofs.Trial.Capture
import Linearizability.Proofs.Trial.Interleaving
import Linearizability.Proofs.Search.Exploration
import Linearizability.Proofs.Attempts
import Linearizability.Proofs.Rejections
import Linearizability.Proofs.Adaptation.Separation
import Linearizability.Proofs.SequentialHistory
import Linearizability.Proofs.Cancellation
import Linearizability.Proofs.Trial.Dealing
import Linearizability.Proofs.Replay
import Linearizability.Proofs.Summary
import Linearizability.Proofs.UniqueReading
import Linearizability.Proofs.PathInvariant
