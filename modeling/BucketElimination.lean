import BucketElimination.Cli.Run
import BucketElimination.Dimacs.Writer
import BucketElimination.Logic.Semantics
import BucketElimination.Main
import BucketElimination.Proofs.BucketUnion
import BucketElimination.Proofs.CutInputs
import BucketElimination.Proofs.FiledClauses
import BucketElimination.Proofs.ProgramOutput
import BucketElimination.Proofs.SolverVerdict
import BucketElimination.Proofs.StreamedLoading
import BucketElimination.Proofs.SweepCourse
import BucketElimination.Proofs.TaskRuns
import BucketElimination.Proofs.IndexCalls
import BucketElimination.Proofs.BucketStacks
import BucketElimination.Proofs.LoadedClauses
import BucketElimination.Proofs.ForwardSweeps
import BucketElimination.Proofs.ErrorLines
import BucketElimination.Proofs.ReaderCalls
import BucketElimination.Proofs.DealtHands
import BucketElimination.Proofs.ExhaustiveCheck
import BucketElimination.Proofs.PackedChunks
import BucketElimination.Proofs.PoolRuns
import BucketElimination.Proofs.ChunkWalks
import BucketElimination.Proofs.VisitingOrder
import BucketElimination.Proofs.ResolventRoom
import BucketElimination.Proofs.BuiltFormulas
