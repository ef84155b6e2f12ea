import Deferred.Algebra.Call
import Deferred.Computation.Halting
import Deferred.Session
import Deferred.Proofs.MonadLaws
import Deferred.Proofs.Derivations
import Deferred.Proofs.Program.Inertness
import Deferred.Proofs.Guarding
import Deferred.Proofs.Iteration
import Deferred.Proofs.LoopsIterate
import Deferred.Proofs.FallibleLoops
import Deferred.Proofs.Postponement
import Deferred.Proofs.Program.Mentions
import Deferred.Proofs.Program.Reference
import Deferred.Proofs.Program.Parametricity
import Deferred.Proofs.Announcement
import Deferred.Proofs.Program.SessionParametricity
import Deferred.Proofs.Program.Tracing
import Deferred.Proofs.Program.Coincidence
import Deferred.Proofs.Program.Flattening
import Deferred.Proofs.Program.Confinement
import Deferred.Proofs.Repetition
import Deferred.Proofs.Program.Calling
import Deferred.Proofs.Program.Handles
import Deferred.Proofs.Appending
import Deferred.Proofs.Alternation
import Deferred.Proofs.Ranges
import Deferred.Proofs.Splitting
import Deferred.Proofs.Nesting
import Deferred.Proofs.Snapshots
import Deferred.Proofs.FallibleLaws
import Deferred.Proofs.Accumulation
import Deferred.Proofs.Totals
import Deferred.Proofs.Copies
import Deferred.Proofs.OperatorTrees
import Deferred.Proofs.ApplicativeLaws
import Deferred.Proofs.ChainsIterate
import Deferred.Proofs.Endless
