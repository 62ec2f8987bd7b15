import EdgeProver.Lib.Outcome
import EdgeProver.Tree.Run
import EdgeProver.Worker.ParallelJob

/-! Where every segment of a parallel app job is, and what its result counts. -/
namespace EdgeProver
open Replace

def ShardedAppProverJob.ownedBelow (job : ShardedAppProverJob) (c : Nat) : List Nat := (List.range c).filter job.owns

private theorem ownedBelow_succ (job : ShardedAppProverJob) (c : Nat) :
    job.ownedBelow (c + 1) = job.ownedBelow c ++ if job.owns c then [c] else [] := by
  unfold ShardedAppProverJob.ownedBelow
  rw [List.range_succ, List.filter_append]
  cases howns : job.owns c <;> simp [howns]

theorem count_ownedBelow (job : ShardedAppProverJob) (c i : Nat) :
    (job.ownedBelow c).count i = if i < c ∧ i % job.numProvers = job.proverId then 1 else 0 := by
  have hnodup : (job.ownedBelow c).Nodup := List.nodup_range.filter _
  rw [hnodup.count]
  simp only [ShardedAppProverJob.ownedBelow, List.mem_filter, List.mem_range, ShardedAppProverJob.owns, beq_iff_eq]

def ProofResult.isUnproved : ProofResult → Bool
  | .app r => r.state.proof.isNone
  | _ => false

section
variable {σ : Type}

/-- How many of these are the data of segment `i`. -/
def dataCount (i : Nat) (data : List (ProveData σ)) : Nat := data.countP (·.segmentIdx == i)

@[simp] theorem dataCount_nil (i : Nat) : dataCount i ([] : List (ProveData σ)) = 0 := rfl

private theorem dataCount_cons (i : Nat) (data : ProveData σ) (rest : List (ProveData σ)) :
    dataCount i (data :: rest) = dataCount i [data] + dataCount i rest :=
  @List.countP_append _ _ [data] rest

@[simp] theorem dataCount_append (i : Nat) (data rest : List (ProveData σ)) :
    dataCount i (data ++ rest) = dataCount i data + dataCount i rest :=
  List.countP_append

namespace Coordinator

def held : Coordinator σ → List (ProveData σ)
  | proving held _ => held.toList
  | _ => []

def results : Coordinator σ → List ProofResult
  | proving _ results | joining _ results | answered (.ok (.success results)) => results
  | _ => []

def failed : Coordinator σ → Bool
  | joining (some _) _ | answered (.error _) | answered (.ok (.error _)) => true
  | _ => false

def isDone : Coordinator σ → Bool
  | joining none _ | answered (.ok (.success _)) => true
  | _ => false

/-- It got past its setup, for all one can tell from where it stands. -/
def isSpawned : Coordinator σ → Bool
  | proving .. | joining .. | answered (.ok (.success _)) => true
  | _ => false

end Coordinator

namespace Consumer

def held : Consumer σ → List (ProveData σ)
  | proving held _ => held.toList
  | _ => []

def results : Consumer σ → List ProofResult
  | proving _ results | answered (some (.success results)) => results
  | _ => []

def failed : Consumer σ → Bool
  | answered none | answered (some (.error _)) => true
  | _ => false

def isDone : Consumer σ → Bool
  | answered (some (.success _)) => true
  | _ => false

theorem mem_results_of_proofs {consumer : Consumer σ} {r : ProofResult} (h : r ∈ consumer.proofs) :
    r ∈ consumer.results := by
  rcases consumer with ⟨held, results⟩ | (_ | (results | e))
  · cases h
  · cases h
  · exact h
  · cases h

end Consumer

theorem merged_success {result : ProverResult} {consumers : List (Consumer σ)}
    (hall : consumers.any (·.isProving) = false) {results : List ProofResult}
    (h : mergeParallelAppResults result (consumers.flatMap Consumer.proofs) (consumers.filterMap Consumer.failure) =
      .success results) :
    ∃ own, result = .success own ∧ (∀ consumer ∈ consumers, consumer.isDone = true) ∧
      results = own ++ consumers.flatMap Consumer.proofs := by
  unfold mergeParallelAppResults at h
  cases herrors : (consumers.filterMap Consumer.failure).isEmpty with
  | false =>
    rw [herrors] at h
    cases result <;> cases h
  | true =>
    rw [herrors] at h
    cases result with
    | error e => cases h
    | success own =>
      cases h
      refine ⟨own, rfl, ?_, rfl⟩
      intro consumer hmem
      have hended := List.any_eq_false.mp hall consumer hmem
      have hnone := List.filterMap_eq_nil_iff.mp (List.isEmpty_iff.mp herrors) consumer hmem
      match consumer, hended, hnone with
      | .answered (some (.success _)), _, _ => rfl
      | .proving _ _, hended, _ => exact absurd rfl hended

namespace Executor

def failed : Executor σ → Bool
  | returned (.error _) | panicked _ => true
  | _ => false

def sent (job : ShardedAppProverJob) : Executor σ → List Nat
  | suspended calls _ | sending calls _ _ _ => job.ownedBelow calls
  | reporting segments => job.ownedBelow segments.length
  | returned (.ok result) => job.ownedBelow result.numSegments
  | returned (.error _) | panicked _ => []

def hasReported : Executor σ → Bool
  | returned (.ok _) => true
  | _ => false

end Executor

theorem proveSegment_ok {P M : Type} {job : ShardedAppProverJob} {tools : SegmentTools σ P M} {data : ProveData σ}
    {state : AppProofState} (h : proveSegment job tools data = .ok state) :
    state.segmentIdx = data.segmentIdx ∧ state.proof.isSome = true := by
  unfold proveSegment at h
  obtain ⟨vmState, -, h⟩ := Outcome.bind_ok_iff.mp h
  obtain ⟨⟨proof, finalMemory⟩, -, h⟩ := Outcome.bind_ok_iff.mp h
  obtain ⟨⟨memory, path, depth0⟩, -, h⟩ := Outcome.bind_ok_iff.mp h
  obtain ⟨bytes, -, h⟩ := Outcome.bind_ok_iff.mp h
  cases h
  exact ⟨rfl, rfl⟩

namespace Executor

section
variable {job : ShardedAppProverJob} {run : MeteredRun σ}

private theorem sent_endRound {c : Nat} (hc : c < run.segments.length) (snapshots : List (VmSnapshot σ))
    (shouldBreak : Bool) :
    (endRound job c snapshots (run.execState c) shouldBreak).sent job = job.ownedBelow (c + 1) := by
  unfold endRound
  cases shouldBreak with
  | true => exact congrArg job.ownedBelow (length_segments hc)
  | false =>
    rw [if_neg Bool.false_ne_true]
    split <;> rfl

/-- A round sends nothing before it is at its send, and passes by the segments of other provers. -/
theorem sent_resume (hid : job.proverId < job.numProvers) {c : Nat} {snapshots : List (VmSnapshot σ)}
    (h : OnSchedule job run (.suspended c snapshots)) (hok : (resume job run.metered c snapshots).failed = false) :
    (resume job run.metered c snapshots).sent job = job.ownedBelow c := by
  obtain ⟨-, rfl⟩ := h
  obtain ⟨e, hfailed⟩ | ⟨shouldBreak, hc, -, ⟨-, segment, -, hsending⟩ | ⟨hother, hround⟩⟩ :=
    @resume_cases σ job hid run c
  · rw [hfailed] at hok
    cases hok
  · rw [hsending]
    rfl
  · rw [hround, sent_endRound hc, ownedBelow_succ, hother]
    exact List.append_nil _

private theorem hasReported_endRound (c : Nat) (snapshots : List (VmSnapshot σ)) (execState : ExecState σ)
    (shouldBreak : Bool) : (endRound job c snapshots execState shouldBreak).hasReported = false := by
  unfold endRound
  cases shouldBreak with
  | true => rfl
  | false =>
    rw [if_neg Bool.false_ne_true]
    split <;> rfl

private theorem hasReported_resume (hid : job.proverId < job.numProvers) {c : Nat} {snapshots : List (VmSnapshot σ)}
    (h : OnSchedule job run (.suspended c snapshots)) : (resume job run.metered c snapshots).hasReported = false := by
  obtain ⟨-, rfl⟩ := h
  obtain ⟨e, hfailed⟩ | ⟨shouldBreak, -, -, ⟨-, segment, -, hsending⟩ | ⟨-, hround⟩⟩ := @resume_cases σ job hid run c
  · rw [hfailed]
    rfl
  · rw [hsending]
    rfl
  · rw [hround, hasReported_endRound]

/-- A thread that returns has streamed the ExecuteE2 result, where that is its own to stream. -/
theorem report_ok {encodeSegments : List Segment → Except String (List Bytes)} {segments : List Segment}
    (hok : (report (σ := σ) job encodeSegments segments).1.failed = false) :
    ∃ e2s, report (σ := σ) job encodeSegments segments = (.returned (.ok ⟨segments, segments.length⟩), e2s) ∧
      (∀ e2 ∈ e2s, e2.isExecuteE2 = true) ∧ e2s.length = if streamsE2 job then 1 else 0 := by
  revert hok
  unfold report
  cases hstreams : streamsE2 job with
  | false => exact fun _ => ⟨[], rfl, nofun, rfl⟩
  | true =>
    cases hresult : executeE2Result job encodeSegments segments with
    | error e => exact fun hok => nomatch hok
    | ok e2 =>
      obtain ⟨encoded, -, he2⟩ := Outcome.bind_ok_iff.mp hresult
      cases he2
      exact fun _ => ⟨_, rfl, fun e2 he2 => List.mem_singleton.mp he2 ▸ rfl, rfl⟩

end
end Executor

namespace ParallelJob
variable {J : ParallelJob σ} {s : ParallelState σ}

/-- A coordinator that gets past its setup has checked the job and spawned the executor. -/
theorem afterSetup_cases (setup : Except String Unit) :
    (∃ e, J.afterSetup s setup = { s with coordinator := .answered (.ok (.error e)) }) ∨
      J.job.proverId < J.job.numProvers ∧ J.afterSetup s setup =
        { s with executor := some (.start J.job J.run.initial), coordinator := .proving none [] } := by
  unfold afterSetup
  cases hchecked : J.job.validate >>= fun _ => setup with
  | error e => exact .inl ⟨_, rfl⟩
  | ok checked =>
    obtain ⟨valid, hvalid, -⟩ := Outcome.bind_ok_iff.mp hchecked
    refine .inr ⟨?_, rfl⟩
    unfold ShardedAppProverJob.validate at hvalid
    split at hvalid
    · cases hvalid
    · split at hvalid
      · cases hvalid
      · omega

variable {P M : Type}

/-- What the coordinator's try at its segment comes to. -/
theorem coordinatorProved_cases (tools : SegmentTools σ P M) (data : ProveData σ) (results : List ProofResult) :
    (∃ e, J.coordinatorProved s tools data results = { s with coordinator := .joining (some e) results } ∨
      J.coordinatorProved s tools data results = { s with coordinator := .answered (.ok (.error e)) }) ∨
    ∃ state : AppProofState, state.segmentIdx = data.segmentIdx ∧ state.proof.isSome = true ∧
      J.coordinatorProved s tools data results = { s with
        coordinator := .proving none (results ++ J.job.keeps [.app ⟨J.job.context, state⟩])
        streamed := s.streamed ++ J.job.streams [.app ⟨J.job.context, state⟩] } := by
  unfold coordinatorProved
  cases hproved : proveSegment J.job tools data with
  | ok state =>
    obtain ⟨hsegment, hproof⟩ := proveSegment_ok hproved
    exact .inr ⟨state, hsegment, hproof, rfl⟩
  | error failure =>
    cases failure with
    | encode e => exact .inl ⟨_, .inr rfl⟩
    | fastForward | starkProve | finalMemory | topTree | deferralPath | depth0 => exact .inl ⟨_, .inl rfl⟩

/-- What a consumer's try at its segment comes to, on an open channel. -/
theorem consumerProved_cases (hopen : J.job.resultTx ≠ .receiverClosed) (tools : SegmentTools σ P M)
    (data : ProveData σ) (results : List ProofResult) :
    (∃ e, J.consumerProved tools data results = (.answered (some (.error e)), [])) ∨
    ∃ state : AppProofState, state.segmentIdx = data.segmentIdx ∧ state.proof.isSome = true ∧
      J.consumerProved tools data results = (.proving none (results ++ J.job.keeps [.app ⟨J.job.context, state⟩]),
        J.job.streams [.app ⟨J.job.context, state⟩]) := by
  unfold consumerProved
  cases hproved : proveSegment J.job tools data with
  | ok state =>
    obtain ⟨hsegment, hproof⟩ := proveSegment_ok hproved
    exact .inr ⟨state, hsegment, hproof, if_neg hopen⟩
  | error failure => exact .inl ⟨_, rfl⟩

/-- A coordinator that succeeds had no failure of its own, and the executor has returned its result. -/
theorem joined_cases (executor : Executor σ) (error : Option String) (results : List ProofResult) :
    (∃ e, coordinatorResult (J.joined executor error results) = .error e) ∨
    ∃ result e2s, error = none ∧ executor = .returned (.ok result) ∧
      coordinatorResult (J.joined executor error results) = .success (e2s ++ results) ∧
      (∀ e2 ∈ e2s, e2.isExecuteE2 = true) ∧
      e2s.length = if J.job.proverId = 0 ∧ J.job.resultTx = .none then 1 else 0 := by
  cases hjoined : J.joined executor error results with
  | error e => exact .inl ⟨_, rfl⟩
  | ok joined =>
    refine .inr ?_
    cases executor with
    | suspended | sending | reporting | panicked => cases hjoined
    | returned executorJoin =>
      cases error with
      | some e => cases hjoined
      | none =>
        obtain ⟨result, rfl, hresults⟩ := Outcome.bind_ok_iff.mp hjoined
        split at hresults
        · cases hresults
        · split at hresults
          · rename_i hkeeps
            obtain ⟨e2, he2, hresults⟩ := Outcome.bind_ok_iff.mp hresults
            obtain ⟨encoded, -, hencoded⟩ := Outcome.bind_ok_iff.mp he2
            cases hencoded
            cases hresults
            exact ⟨result, [_], rfl, rfl, rfl, fun e2 he2 => List.mem_singleton.mp he2 ▸ rfl, (if_pos hkeeps).symm⟩
          · rename_i hkeeps
            cases hresults
            exact ⟨result, [], rfl, rfl, rfl, nofun, (if_neg hkeeps).symm⟩

end ParallelJob

/-- It answered with its results. -/
def Coordinator.succeeded : Coordinator σ → Bool
  | answered (.ok (.success _)) => true
  | _ => false

namespace ParallelState

def failed (s : ParallelState σ) : Bool :=
  s.executor.any (·.failed) || s.coordinator.failed || s.consumers.any (·.failed)

def sent (job : ShardedAppProverJob) (s : ParallelState σ) : List Nat :=
  match s.executor with
  | none => []
  | some executor => executor.sent job

/-- How often segment `i` is on its way to its proof. -/
def inFlight (i : Nat) (s : ParallelState σ) : Nat :=
  dataCount i s.channel + dataCount i s.coordinator.held + (s.consumers.map fun c => dataCount i c.held).sum

/-- How many such results there are, streamed or kept. -/
def emitted (p : ProofResult → Bool) (s : ParallelState σ) : Nat :=
  s.streamed.countP p + s.coordinator.results.countP p + (s.consumers.map fun c => c.results.countP p).sum

end ParallelState

def ParallelJob.e2Out (J : ParallelJob σ) (s : ParallelState σ) : Bool :=
  J.job.proverId == 0 &&
    if J.job.resultTx = .none then s.coordinator.succeeded else s.executor.any (·.hasReported)

/-- Every segment that was sent is on its way or has its one result, and every result is there for a reason. -/
structure Tally (J : ParallelJob σ) (s : ParallelState σ) : Prop where
  balanced : ∀ i, (s.sent J.job).count i = s.inFlight i + s.emitted (·.appSegment == some i)
  proved : s.emitted (·.isUnproved) = 0
  executeE2 : s.emitted (·.isExecuteE2) = if J.e2Out s then 1 else 0

structure JobInv (J : ParallelJob σ) (s : ParallelState σ) : Prop where
  unspawned : s.coordinator.isStarting = true → s.executor = none
  spawned : s.executor = none → s.channel = [] ∧ s.coordinator.isSpawned = false
  sound : ∀ executor, s.executor = some executor → J.job.proverId < J.job.numProvers ∧
    (Executor.OnSchedule J.job J.run executor ∨ ∃ message, executor = .panicked message)
  /-- A loop over the channel ends when nothing is left in it and nothing more will come. -/
  drained : s.coordinator.isDone = true ∨ (∃ consumer ∈ s.consumers, consumer.isDone = true) →
    s.channel = [] ∧ s.senderAlive = false
  joined : s.coordinator.succeeded = true → ∃ result, s.executor = some (.returned (.ok result))
  tally : s.failed = false → Tally J s
  closed : ∀ results, s.outcome = some (.ok (.success results)) →
    ∃ own, s.coordinator = .answered (.ok (.success own)) ∧ (∀ consumer ∈ s.consumers, consumer.isDone = true) ∧
      results = own ++ s.consumers.flatMap Consumer.proofs

section
open ParallelJob
variable {J : ParallelJob σ} {s s' : ParallelState σ}

@[simp] theorem failed_eq_false_iff : s.failed = false ↔
    s.executor.any (·.failed) = false ∧ s.coordinator.failed = false ∧ s.consumers.any (·.failed) = false := by
  simp only [ParallelState.failed, Bool.or_eq_false_iff, and_assoc]

private theorem any_of_replaces {xs ys : List (Consumer σ)} {x y : Consumer σ} (h : Replaces xs ys x y)
    (hx : x.failed = false) (hok : ys.any (·.failed) = false) : xs.any (·.failed) = false := by
  apply List.any_eq_false.mpr
  intro z hz
  rcases h.of_mem_left hz with rfl | hz
  · simp [hx]
  · exact List.any_eq_false.mp hok z hz

/-- Every fault is a failure. -/
theorem failed_of_fault (hstep : ParallelJob.FaultStep s s') : s'.failed = true := by
  rw [← Bool.not_eq_false, failed_eq_false_iff]
  rintro ⟨hexecutor, hcoordinator, hconsumers⟩
  cases hstep with
  | coordinatorFails | coordinatorGone => cases hcoordinator
  | consumerFails message h | consumerGone h => exact List.any_eq_false.mp hconsumers _ h.mem_right rfl
  | executorPanics => cases hexecutor

/-- A failure stays. -/
theorem JobInv.failed_of_work (inv : JobInv J s) (hstep : J.WorkStep s s') (hok : s'.failed = false) :
    s.failed = false := by
  rw [failed_eq_false_iff] at hok ⊢
  obtain ⟨hexecutor, hcoordinator, hconsumers⟩ := hok
  cases hstep with
  | start setup h =>
    obtain ⟨e, hset⟩ | ⟨-, hset⟩ := @afterSetup_cases σ J s setup
    · rw [hset] at hcoordinator
      cases hcoordinator
    · rw [hset] at hconsumers
      exact ⟨by rw [inv.unspawned (by rw [h]; rfl)]; rfl, by rw [h]; rfl, hconsumers⟩
  | resume h | send h | disconnected h | report h => exact ⟨by rw [h]; rfl, hcoordinator, hconsumers⟩
  | receive h | loopEnds h => exact ⟨hexecutor, by rw [h]; rfl, hconsumers⟩
  | @prove data results h P M tools =>
    obtain ⟨e, hset | hset⟩ | ⟨state, -, -, hset⟩ := @coordinatorProved_cases σ J s P M tools data results
    · rw [hset] at hcoordinator
      cases hcoordinator
    · rw [hset] at hcoordinator
      cases hcoordinator
    · rw [hset] at hexecutor hconsumers
      exact ⟨hexecutor, by rw [h]; rfl, hconsumers⟩
  | @join executor error results h hexecutor' hended =>
    obtain ⟨e, hset⟩ | ⟨result, e2s, rfl, -⟩ := @joined_cases σ J executor error results
    · dsimp only at hcoordinator
      rw [hset] at hcoordinator
      cases hcoordinator
    · exact ⟨hexecutor, by rw [h]; rfl, hconsumers⟩
  | consumerReceive h | consumerProve tools h | consumerLoopEnds h =>
    exact ⟨hexecutor, hcoordinator, any_of_replaces h rfl hconsumers⟩
  | poolFails | merge => exact ⟨hexecutor, hcoordinator, hconsumers⟩

namespace Tally

/-- A step that moves segments from hand to hand keeps the books. -/
theorem of_eq (h : Tally J s) (hsent : s'.sent J.job = s.sent J.job) (hflight : ∀ i, s'.inFlight i = s.inFlight i)
    (hemitted : ∀ p, s'.emitted p = s.emitted p) (he2 : J.e2Out s' = J.e2Out s) : Tally J s' where
  balanced i := by rw [hsent, hflight, hemitted, h.balanced]
  proved := by rw [hemitted, h.proved]
  executeE2 := by rw [hemitted, he2, h.executeE2]

private theorem of_send {data : ProveData σ} (h : Tally J s) (hsent : s'.sent J.job = s.sent J.job ++ [data.segmentIdx])
    (hflight : ∀ i, s'.inFlight i = s.inFlight i + dataCount i [data]) (hemitted : ∀ p, s'.emitted p = s.emitted p)
    (he2 : J.e2Out s' = J.e2Out s) : Tally J s' where
  balanced i := by
    have hone : [data.segmentIdx].count i = dataCount i [data] := by
      simp only [dataCount, List.count_singleton, List.countP_singleton]
    rw [hsent, List.count_append, hone, hflight, hemitted, h.balanced]
    omega
  proved := by rw [hemitted, h.proved]
  executeE2 := by rw [hemitted, he2, h.executeE2]

private theorem of_proof {data : ProveData σ} {state : AppProofState} (h : Tally J s) (context : ProofContext)
    (hsegment : state.segmentIdx = data.segmentIdx) (hproof : state.proof.isSome = true)
    (hsent : s'.sent J.job = s.sent J.job) (hflight : ∀ i, s'.inFlight i + dataCount i [data] = s.inFlight i)
    (hemitted : ∀ p, s'.emitted p = s.emitted p + [ProofResult.app ⟨context, state⟩].countP p)
    (he2 : J.e2Out s' = J.e2Out s) : Tally J s' where
  balanced i := by
    have hone : [ProofResult.app ⟨context, state⟩].countP (·.appSegment == some i) = dataCount i [data] := by
      simp only [dataCount, List.countP_singleton, ProofResult.appSegment, hsegment, Option.some_beq_some]
    rw [hsent, hemitted, hone, h.balanced, ← hflight]
    omega
  proved := by
    have hunproved : (ProofResult.app ⟨context, state⟩).isUnproved = false := by
      show state.proof.isNone = false
      rw [← Option.not_isSome, hproof]
      rfl
    rw [hemitted, h.proved, List.countP_singleton, hunproved]
    rfl
  executeE2 := by
    rw [hemitted, he2, h.executeE2]
    rfl

private theorem of_e2s {e2s : List ProofResult} (h : Tally J s) (hall : ∀ e2 ∈ e2s, e2.isExecuteE2 = true)
    (hsent : s'.sent J.job = s.sent J.job) (hflight : ∀ i, s'.inFlight i = s.inFlight i)
    (hemitted : ∀ p, s'.emitted p = s.emitted p + e2s.countP p)
    (hcount : (if J.e2Out s then 1 else 0) + e2s.length = if J.e2Out s' then 1 else 0) : Tally J s' := by
  have hnone : ∀ p : ProofResult → Bool, (∀ r : ProofResult, r.isExecuteE2 = true → p r = false) →
    e2s.countP p = 0 := by
    intro p hp
    apply List.countP_eq_zero.mpr
    intro e2 he2
    simp [hp e2 (hall e2 he2)]
  constructor
  · intro i
    rw [hsent, hflight, hemitted, hnone, h.balanced]
    · omega
    · intro r hr
      match r, hr with
      | .executeE2 _, _ => rfl
  · rw [hemitted, h.proved, hnone]
    intro r hr
    match r, hr with
    | .executeE2 _, _ => rfl
  · rw [hemitted, h.executeE2, List.countP_eq_length.mpr hall, hcount]

end Tally

private theorem emitted_once (hopen : J.job.resultTx ≠ .receiverClosed) (p : ProofResult → Bool)
    (result : ProofResult) :
    (J.job.keeps [result]).countP p + (J.job.streams [result]).countP p = [result].countP p := by
  unfold ShardedAppProverJob.keeps ShardedAppProverJob.streams
  cases htx : J.job.resultTx with
  | none | receiverOpen => simp
  | receiverClosed => exact absurd htx hopen

/-- Only prover 0 has results to stream at the end, and only where results are streamed. -/
theorem streams_report (hopen : J.job.resultTx ≠ .receiverClosed) {e2s : List ProofResult}
    (hlength : e2s.length = if Executor.streamsE2 J.job then 1 else 0) : J.job.streams e2s = e2s := by
  unfold ShardedAppProverJob.streams
  cases htx : J.job.resultTx with
  | none =>
    rw [Executor.streamsE2, htx] at hlength
    exact (List.length_eq_zero_iff.mp hlength).symm
  | receiverOpen => rfl
  | receiverClosed => exact absurd htx hopen

namespace JobInv

private theorem tally_start (inv : JobInv J s) (htally : Tally J s) (h : s.coordinator = .starting)
    (setup : Except String Unit) (hok : (J.afterSetup s setup).coordinator.failed = false) :
    Tally J (J.afterSetup s setup) := by
  obtain ⟨e, hset⟩ | ⟨-, hset⟩ := @afterSetup_cases σ J s setup
  · rw [hset] at hok
    cases hok
  · have hnone := inv.unspawned (by rw [h]; rfl)
    rw [hset]
    apply htally.of_eq
    · simp only [ParallelState.sent, hnone]
      rfl
    · intro i
      simp only [ParallelState.inFlight, h]
      rfl
    · intro p
      simp only [ParallelState.emitted, h]
      rfl
    · simp only [ParallelJob.e2Out, h, hnone]
      rfl

private theorem tally_resume (inv : JobInv J s) (htally : Tally J s) {c : Nat} {snapshots : List (VmSnapshot σ)}
    (h : s.executor = some (.suspended c snapshots))
    (hok : (Executor.resume J.job J.run.metered c snapshots).failed = false) :
    Tally J { s with executor := some (.resume J.job J.run.metered c snapshots) } := by
  obtain ⟨hid, hschedule | ⟨message, hpanicked⟩⟩ := inv.sound _ h
  · apply htally.of_eq
    · simp only [ParallelState.sent, h]
      exact Executor.sent_resume hid hschedule hok
    · intro i
      rfl
    · intro p
      rfl
    · simp only [ParallelJob.e2Out, h, Option.any_some, Executor.hasReported_resume hid hschedule]
      rfl
  · cases hpanicked

private theorem tally_send (inv : JobInv J s) (htally : Tally J s) {c : Nat} {snapshots : List (VmSnapshot σ)}
    {execState : ExecState σ} {data : ProveData σ} (h : s.executor = some (.sending c snapshots execState data)) :
    Tally J { s with
      executor := some (.endRound J.job c snapshots execState data.isFinal), channel := s.channel ++ [data] } := by
  obtain ⟨hid, ⟨hc, howns, -, rfl, hdata⟩ | ⟨message, hpanicked⟩⟩ := inv.sound _ h
  · apply htally.of_send
    · simp only [ParallelState.sent, h]
      rw [Executor.sent_endRound hc, ownedBelow_succ, howns, hdata.segmentIdx]
      rfl
    · intro i
      simp only [ParallelState.inFlight, dataCount_append]
      omega
    · intro p
      rfl
    · simp only [ParallelJob.e2Out, h, Option.any_some, Executor.hasReported_endRound]
      rfl
  · cases hpanicked

private theorem tally_report (inv : JobInv J s) (hopen : J.job.resultTx ≠ .receiverClosed) (htally : Tally J s)
    {segments : List Segment} (h : s.executor = some (.reporting segments))
    (hok : (Executor.report (σ := σ) J.job J.encodeSegments segments).1.failed = false) :
    Tally J { s with
      executor := some (Executor.report J.job J.encodeSegments segments).1
      streamed := s.streamed ++ J.job.streams (Executor.report (σ := σ) J.job J.encodeSegments segments).2 } := by
  obtain ⟨e2s, hreport, hall, hlength⟩ := Executor.report_ok hok
  have hstreams := streams_report hopen hlength
  obtain rfl : segments = J.run.segments := by
    obtain ⟨-, hschedule | ⟨message, hpanicked⟩⟩ := inv.sound _ h
    · exact hschedule
    · cases hpanicked
  rw [hreport]
  apply htally.of_e2s hall
  · simp only [ParallelState.sent, h]
    rfl
  · intro i
    rfl
  · intro p
    simp only [ParallelState.emitted, hstreams, List.countP_append]
    omega
  · have hpending : s.coordinator.succeeded = false := by
      apply Bool.eq_false_iff.mpr
      intro hsucceeded
      obtain ⟨result, hreturned⟩ := inv.joined hsucceeded
      rw [h] at hreturned
      cases hreturned
    rw [hlength]
    cases htx : J.job.resultTx with
    | none => simp [ParallelJob.e2Out, Executor.streamsE2, htx, hpending]
    | receiverOpen => simp [ParallelJob.e2Out, Executor.streamsE2, htx, h, Executor.hasReported]
    | receiverClosed => exact absurd htx hopen

end JobInv

namespace Tally

private theorem receive (htally : Tally J s) {results : List ProofResult} {data : ProveData σ}
    {rest : List (ProveData σ)}
    (h : s.coordinator = .proving none results) (hdata : s.channel = data :: rest) :
    Tally J { s with coordinator := .proving (some data) results, channel := rest } := by
  apply htally.of_eq
  · rfl
  · intro i
    have hcons := dataCount_cons i data rest
    simp only [ParallelState.inFlight, h, hdata, Coordinator.held, Option.toList, dataCount_nil] at hcons ⊢
    omega
  · intro p
    simp only [ParallelState.emitted, h]
    rfl
  · simp only [ParallelJob.e2Out, h]
    rfl

private theorem prove (htally : Tally J s) (hopen : J.job.resultTx ≠ .receiverClosed) {data : ProveData σ}
    {results : List ProofResult} (h : s.coordinator = .proving (some data) results) {P M : Type}
    (tools : SegmentTools σ P M) (hok : (J.coordinatorProved s tools data results).coordinator.failed = false) :
    Tally J (J.coordinatorProved s tools data results) := by
  obtain ⟨e, hset | hset⟩ | ⟨state, hsegment, hproof, hset⟩ := @coordinatorProved_cases σ J s P M tools data results
  · rw [hset] at hok
    cases hok
  · rw [hset] at hok
    cases hok
  · rw [hset]
    apply htally.of_proof J.job.context hsegment hproof
    · rfl
    · intro i
      simp only [ParallelState.inFlight, h, Coordinator.held, Option.toList, dataCount_nil]
      omega
    · intro p
      have honce := @emitted_once σ J hopen p (.app ⟨J.job.context, state⟩)
      simp only [ParallelState.emitted, h, Coordinator.results, List.countP_append]
      omega
    · simp only [ParallelJob.e2Out, h]
      rfl

private theorem loopEnds (htally : Tally J s) {results : List ProofResult} (h : s.coordinator = .proving none results) :
    Tally J { s with coordinator := .joining none results } := by
  apply htally.of_eq
  · rfl
  · intro i
    simp only [ParallelState.inFlight, h]
    rfl
  · intro p
    simp only [ParallelState.emitted, h]
    rfl
  · simp only [ParallelJob.e2Out, h]
    rfl

private theorem join (htally : Tally J s) (hopen : J.job.resultTx ≠ .receiverClosed) {executor : Executor σ}
    {error : Option String} {results : List ProofResult} (h : s.coordinator = .joining error results)
    (hexecutor : s.executor = some executor)
    (hok : (Coordinator.answered (σ := σ) (.ok (coordinatorResult (J.joined executor error results)))).failed = false) :
    Tally J { s with coordinator := .answered (.ok (coordinatorResult (J.joined executor error results))) } := by
  obtain ⟨e, hset⟩ | ⟨result, e2s, rfl, rfl, hset, hall, hlength⟩ := @joined_cases σ J executor error results
  · rw [hset] at hok
    cases hok
  · rw [hset]
    apply htally.of_e2s hall
    · rfl
    · intro i
      simp only [ParallelState.inFlight, h]
      rfl
    · intro p
      simp only [ParallelState.emitted, h, Coordinator.results, List.countP_append]
      omega
    · rw [hlength]
      cases htx : J.job.resultTx with
      | none => simp [ParallelJob.e2Out, htx, h, Coordinator.succeeded]
      | receiverOpen => simp [ParallelJob.e2Out, htx, hexecutor, Executor.hasReported]
      | receiverClosed => exact absurd htx hopen

private theorem consumerReceive (htally : Tally J s) {results : List ProofResult} {data : ProveData σ}
    {rest : List (ProveData σ)} {consumers : List (Consumer σ)}
    (h : Replaces s.consumers consumers (.proving none results) (.proving (some data) results))
    (hdata : s.channel = data :: rest) : Tally J { s with consumers := consumers, channel := rest } := by
  apply htally.of_eq
  · rfl
  · intro i
    have hsum := h.sum_eq fun c => dataCount i c.held
    have hcons := dataCount_cons i data rest
    simp only [ParallelState.inFlight, hdata, Consumer.held, Option.toList, dataCount_nil] at hsum hcons ⊢
    omega
  · intro p
    have hsum := h.sum_eq fun c => c.results.countP p
    simp only [ParallelState.emitted, Consumer.results] at hsum ⊢
    omega
  · rfl

private theorem consumerProve (htally : Tally J s) (hopen : J.job.resultTx ≠ .receiverClosed) {data : ProveData σ}
    {results : List ProofResult} {P M : Type} (tools : SegmentTools σ P M) {consumers : List (Consumer σ)}
    (h : Replaces s.consumers consumers (.proving (some data) results) (J.consumerProved tools data results).1)
    (hok : consumers.any (·.failed) = false) :
    Tally J { s with
      consumers := consumers, streamed := s.streamed ++ (J.consumerProved tools data results).2 } := by
  obtain ⟨e, hset⟩ | ⟨state, hsegment, hproof, hset⟩ := @consumerProved_cases σ J P M hopen tools data results
  · rw [hset] at h
    exact absurd rfl (List.any_eq_false.mp hok _ h.mem_right)
  · rw [hset] at h ⊢
    apply htally.of_proof J.job.context hsegment hproof
    · rfl
    · intro i
      have hsum := h.sum_eq fun c => dataCount i c.held
      simp only [ParallelState.inFlight, Consumer.held, Option.toList, dataCount_nil] at hsum ⊢
      omega
    · intro p
      have honce := @emitted_once σ J hopen p (.app ⟨J.job.context, state⟩)
      have hsum := h.sum_eq fun c => c.results.countP p
      simp only [ParallelState.emitted, Consumer.results, List.countP_append] at hsum ⊢
      omega
    · rfl

private theorem consumerLoopEnds (htally : Tally J s) {results : List ProofResult} {consumers : List (Consumer σ)}
    (h : Replaces s.consumers consumers (.proving none results) (.answered (some (.success results)))) :
    Tally J { s with consumers := consumers } := by
  apply htally.of_eq
  · rfl
  · intro i
    have hsum := h.sum_eq fun c => dataCount i c.held
    simp only [ParallelState.inFlight, Consumer.held, Option.toList, dataCount_nil] at hsum ⊢
    omega
  · intro p
    have hsum := h.sum_eq fun c => c.results.countP p
    simp only [ParallelState.emitted, Consumer.results] at hsum ⊢
    omega
  · rfl

end Tally

/-- The books stay balanced as long as no party fails. -/
theorem JobInv.tally_work (inv : JobInv J s) (hopen : J.job.resultTx ≠ .receiverClosed) (hstep : J.WorkStep s s')
    (hok : s'.failed = false) : Tally J s' := by
  have htally := inv.tally (inv.failed_of_work hstep hok)
  obtain ⟨hexecutor, hcoordinator, hconsumers⟩ := failed_eq_false_iff.mp hok
  cases hstep with
  | start setup h => exact inv.tally_start htally h setup hcoordinator
  | resume h => exact inv.tally_resume htally h hexecutor
  | send h => exact inv.tally_send htally h
  | disconnected h => cases hexecutor
  | report h => exact inv.tally_report hopen htally h hexecutor
  | receive h hdata => exact htally.receive h hdata
  | prove h tools => exact htally.prove hopen h tools hcoordinator
  | loopEnds h => exact htally.loopEnds h
  | join h hexecutor' => exact htally.join hopen h hexecutor' hcoordinator
  | consumerReceive h hdata => exact htally.consumerReceive h hdata
  | consumerProve tools h => exact htally.consumerProve hopen tools h hconsumers
  | consumerLoopEnds h => exact htally.consumerLoopEnds h
  | poolFails | merge => exact htally.of_eq rfl (fun _ => rfl) (fun _ => rfl) rfl

end
end
end EdgeProver
