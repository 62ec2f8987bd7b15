import EdgeProver.ProofState.ResultHandler
import EdgeProver.Lib.FoldMachine
import EdgeProver.Tree.Refinement
import EdgeProver.Tree.Handlers
import EdgeProver.Tree.Tracking
import EdgeProver.Tree.Steps
import EdgeProver.Tree.Children
import EdgeProver.Tree.WordRun
import EdgeProver.Tree.FinalProof
import EdgeProver.Tree.Completeness
import EdgeProver.Scheduler.Redelivery
import EdgeProver.Worker.Admission
import EdgeProver.Worker.StagedDir
import EdgeProver.Worker.Reporting
import EdgeProver.Manager.Handles
import EdgeProver.Manager.NoNewWork
import EdgeProver.Manager.DrainSound
import EdgeProver.Manager.EveryRequest
import EdgeProver.Manager.DrainTtl
import EdgeProver.Manager.StagedInputs
import EdgeProver.Manager.FinalProofs
import EdgeProver.Manager.WorkerRegistry
import EdgeProver.Manager.Dispatch
import EdgeProver.Scheduler.StableOrder
import EdgeProver.Manager.Exclusive
import EdgeProver.ProofState.Duplicates
import EdgeProver.Scheduler.Isolation
import EdgeProver.ProofState.LoopEnds
import EdgeProver.Tree.DeferralTail
import EdgeProver.Worker.JobRun
import EdgeProver.Tree.Arithmetic
import EdgeProver.Manager.Registration
import EdgeProver.Wire.EvmProof
import EdgeProver.Worker.DeferralMerkle
import EdgeProver.Scheduler.SegmentAccounting
import EdgeProver.Manager.UploadInput
import EdgeProver.Manager.DeferralUpload
import EdgeProver.Tree.PlainProver
import EdgeProver.Tree.AdmissibleRequests
import EdgeProver.Tree.EndToEnd
import EdgeProver.Worker.Boot
import EdgeProver.Manager.Termination
import EdgeProver.Manager.Completion
import EdgeProver.Manager.PlainRun
import EdgeProver.Worker.ShardAgreement
import EdgeProver.Tree.Liveness
import EdgeProver.Tree.WordBound
