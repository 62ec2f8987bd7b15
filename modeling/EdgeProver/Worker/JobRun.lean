import EdgeProver.Lib.Progress
import EdgeProver.Worker.JobAccounting

/-! Whole runs of a parallel app job: what a success tells, what a failure leads to, and that every run ends. -/
namespace EdgeProver
open Replace ParallelJob

variable {σ : Type} {J : ParallelJob σ} {s s' : ParallelState σ}

namespace JobInv

private theorem open_of_coordinator (inv : JobInv J s) (h : s.coordinator.succeeded = false)
    (results : List ProofResult) :
    s.outcome ≠ some (.ok (.success results)) := by
  intro houtcome
  obtain ⟨own, hanswered, -⟩ := inv.closed results houtcome
  rw [hanswered] at h
  cases h

private theorem open_of_consumer (inv : JobInv J s) {consumer : Consumer σ} (hmem : consumer ∈ s.consumers)
    (h : consumer.isDone = false) (results : List ProofResult) : s.outcome ≠ some (.ok (.success results)) := by
  intro houtcome
  obtain ⟨own, -, hdone, -⟩ := inv.closed results houtcome
  rw [hdone consumer hmem] at h
  cases h

private theorem not_done (inv : JobInv J s) (h : s.senderAlive = true) :
    s.coordinator.isDone = false ∧ ∀ consumer ∈ s.consumers, consumer.isDone = false := by
  constructor
  · apply Bool.eq_false_iff.mpr
    intro hdone
    rw [(inv.drained (.inl hdone)).2] at h
    cases h
  · intro consumer hmem
    apply Bool.eq_false_iff.mpr
    intro hdone
    rw [(inv.drained (.inr ⟨consumer, hmem, hdone⟩)).2] at h
    cases h

private theorem senderAlive_of_running {executor : Executor σ} (h : s.executor = some executor)
    (hrunning : executor.isRunning = true) : s.senderAlive = true := by
  simp [ParallelState.senderAlive, h, hrunning]

end JobInv

theorem jobInv_start : JobInv J J.start where
  unspawned _ := rfl
  spawned _ := ⟨rfl, rfl⟩
  sound := nofun
  drained h := by
    obtain h | ⟨consumer, hmem, h⟩ := h
    · cases h
    · rw [List.eq_of_mem_replicate hmem] at h
      cases h
  joined := nofun
  tally _ := by
    have hflight : ∀ i, ((J.start).consumers.map fun c : Consumer σ => dataCount i c.held).sum = 0 := by
      intro i
      simp [ParallelJob.start, Consumer.held]
    have hemitted : ∀ p, ((J.start).consumers.map fun c : Consumer σ => c.results.countP p).sum = 0 := by
      intro p
      simp [ParallelJob.start, Consumer.results]
    refine ⟨fun i => ?_, ?_, ?_⟩
    · rw [ParallelState.inFlight, ParallelState.emitted, hflight, hemitted]
      rfl
    · rw [ParallelState.emitted, hemitted]
      rfl
    · rw [ParallelState.emitted, hemitted]
      simp [ParallelJob.e2Out, ParallelJob.start, Coordinator.succeeded, Coordinator.results]
  closed := nofun

private theorem not_drained {coordinator : Coordinator σ} {consumers : List (Consumer σ)}
    (hcoordinator : coordinator.isDone = false) (hconsumers : ∀ consumer ∈ consumers, consumer.isDone = false) :
    ¬(coordinator.isDone = true ∨ ∃ consumer ∈ consumers, consumer.isDone = true) := by
  rintro (hdone | ⟨consumer, hmem, hdone⟩)
  · rw [hcoordinator] at hdone
    cases hdone
  · rw [hconsumers consumer hmem] at hdone
    cases hdone

private theorem done_of_replaces {xs ys : List (Consumer σ)} {x y : Consumer σ} (h : Replaces xs ys x y)
    (hy : y.isDone = false) (hdone : ∃ consumer ∈ ys, consumer.isDone = true) :
    ∃ consumer ∈ xs, consumer.isDone = true := by
  obtain ⟨consumer, hmem, hdone⟩ := hdone
  rcases h.of_mem_right hmem with rfl | hmem
  · rw [hy] at hdone
    cases hdone
  · exact ⟨consumer, hmem, hdone⟩

namespace JobInv

private theorem of_executor (inv : JobInv J s) {executor executor' : Executor σ} {channel : List (ProveData σ)}
    {streamed : List ProofResult} (h : s.executor = some executor) (hrunning : executor.isRunning = true)
    (hsound : Executor.OnSchedule J.job J.run executor' ∨ ∃ message, executor' = .panicked message)
    (htally : ParallelState.failed ⟨some executor', channel, s.coordinator, s.consumers, streamed, s.outcome⟩ = false →
      Tally J ⟨some executor', channel, s.coordinator, s.consumers, streamed, s.outcome⟩) :
    JobInv J ⟨some executor', channel, s.coordinator, s.consumers, streamed, s.outcome⟩ where
  unspawned hstarting := by
    rw [inv.unspawned hstarting] at h
    cases h
  spawned := nofun
  sound := by
    rintro _ ⟨⟩
    exact ⟨(inv.sound executor h).1, hsound⟩
  drained hdone := by
    obtain ⟨hcoordinator, hconsumers⟩ := inv.not_done (senderAlive_of_running h hrunning)
    exact absurd hdone (not_drained hcoordinator hconsumers)
  joined hsucceeded := by
    obtain ⟨result, hreturned⟩ := inv.joined hsucceeded
    rw [h] at hreturned
    cases hreturned
    cases hrunning
  tally := htally
  closed := inv.closed

/-- A step of the coordinator alone, which has not answered and does not answer with a success. -/
private theorem of_coordinator (inv : JobInv J s) {coordinator : Coordinator σ} {channel : List (ProveData σ)}
    {streamed : List ProofResult} (hpending : s.coordinator.succeeded = false)
    (hstarting : coordinator.isStarting = false)
    (hspawned : coordinator.isSpawned = true → s.coordinator.isSpawned = true)
    (hchannel : s.channel = [] → channel = [])
    (hdone : coordinator.isDone = true → s.channel = [] ∧ s.senderAlive = false)
    (hsucceeded : coordinator.succeeded = true → ∃ result, s.executor = some (.returned (.ok result)))
    (htally : ParallelState.failed ⟨s.executor, channel, coordinator, s.consumers, streamed, s.outcome⟩ = false →
      Tally J ⟨s.executor, channel, coordinator, s.consumers, streamed, s.outcome⟩) :
    JobInv J ⟨s.executor, channel, coordinator, s.consumers, streamed, s.outcome⟩ where
  unspawned h := by
    rw [hstarting] at h
    cases h
  spawned h := by
    obtain ⟨hempty, hbefore⟩ := inv.spawned h
    exact ⟨hchannel hempty, Bool.eq_false_iff.mpr fun hafter => Bool.eq_false_iff.mp hbefore (hspawned hafter)⟩
  sound := inv.sound
  drained h := by
    have hbefore : s.channel = [] ∧ s.senderAlive = false := h.elim hdone fun hconsumer => inv.drained (.inr hconsumer)
    refine ⟨hchannel hbefore.1, ?_⟩
    simp only [ParallelState.senderAlive, Bool.or_eq_false_iff] at hbefore ⊢
    exact ⟨hstarting, hbefore.2.2⟩
  joined := hsucceeded
  tally := htally
  closed results houtcome := absurd houtcome (inv.open_of_coordinator hpending results)

private theorem of_consumer (inv : JobInv J s) {x y : Consumer σ} {consumers : List (Consumer σ)}
    {channel : List (ProveData σ)} {streamed : List ProofResult} (h : Replaces s.consumers consumers x y)
    (hx : x.isDone = false) (hchannel : s.channel = [] → channel = [])
    (hdone : y.isDone = true → s.channel = [] ∧ s.senderAlive = false)
    (htally : ParallelState.failed ⟨s.executor, channel, s.coordinator, consumers, streamed, s.outcome⟩ = false →
      Tally J ⟨s.executor, channel, s.coordinator, consumers, streamed, s.outcome⟩) :
    JobInv J ⟨s.executor, channel, s.coordinator, consumers, streamed, s.outcome⟩ where
  unspawned := inv.unspawned
  spawned hnone := ⟨hchannel (inv.spawned hnone).1, (inv.spawned hnone).2⟩
  sound := inv.sound
  drained hd := by
    have hbefore : s.channel = [] ∧ s.senderAlive = false := by
      by_cases hy : y.isDone = true
      · exact hdone hy
      · exact inv.drained (hd.imp_right (done_of_replaces h (Bool.eq_false_iff.mpr hy)))
    exact ⟨hchannel hbefore.1, hbefore.2⟩
  joined := inv.joined
  tally := htally
  closed results houtcome := absurd houtcome (inv.open_of_consumer h.mem_left hx results)

theorem work (inv : JobInv J s) (hopen : J.job.resultTx ≠ .receiverClosed) (hstep : J.WorkStep s s') : JobInv J s' := by
  have htally := inv.tally_work hopen hstep
  cases hstep with
  | start setup h =>
    have hnone := inv.unspawned (by rw [h]; rfl)
    obtain ⟨hcoordinator, hconsumers⟩ := inv.not_done (by simp [ParallelState.senderAlive, h, Coordinator.isStarting])
    obtain ⟨e, hset⟩ | ⟨hid, hset⟩ := @afterSetup_cases σ J s setup
    · rw [hset] at htally ⊢
      exact inv.of_coordinator (by rw [h]; rfl) rfl nofun id nofun nofun htally
    · rw [hset] at htally ⊢
      exact {
        unspawned := nofun
        spawned := nofun
        sound := by
          rintro _ ⟨⟩
          exact ⟨hid, .inl (Executor.onSchedule_start hid)⟩
        drained := fun hdone => absurd hdone (not_drained rfl hconsumers)
        joined := nofun
        tally := htally
        closed := fun results houtcome => absurd houtcome (inv.open_of_coordinator (by rw [h]; rfl) results) }
  | @resume c snapshots h =>
    obtain ⟨hid, ⟨-, rfl⟩ | ⟨message, hpanicked⟩⟩ := inv.sound _ h
    · exact inv.of_executor h rfl (.inl (Executor.onSchedule_resume hid c)) htally
    · cases hpanicked
  | @send c snapshots execState data h hroom halive =>
    obtain ⟨hid, hschedule | ⟨message, hpanicked⟩⟩ := inv.sound _ h
    · have hstep := @ExecutorStep.sent _ .parallel J.job J.run.metered J.encodeSegments c snapshots execState data
      exact inv.of_executor h rfl (.inl (hschedule.step hid hstep)) htally
    · cases hpanicked
  | disconnected h hdead => exact inv.of_executor h rfl (.inl fun r hr => nomatch hr) htally
  | @report segments h =>
    obtain ⟨hid, rfl | ⟨message, hpanicked⟩⟩ := inv.sound _ h
    · exact inv.of_executor h rfl (.inl (Executor.onSchedule_report J.encodeSegments)) htally
    · cases hpanicked
  | receive h hdata =>
    have hchannel : ∀ {rest : List (ProveData σ)}, s.channel = [] → rest = [] := by
      rw [hdata]
      exact nofun
    exact inv.of_coordinator (by rw [h]; rfl) rfl (fun _ => by rw [h]; rfl) hchannel nofun nofun htally
  | @prove data results h P M tools =>
    obtain ⟨e, hset | hset⟩ | ⟨state, -, -, hset⟩ := @coordinatorProved_cases σ J s P M tools data results
    · rw [hset] at htally ⊢
      exact inv.of_coordinator (by rw [h]; rfl) rfl (fun _ => by rw [h]; rfl) id nofun nofun htally
    · rw [hset] at htally ⊢
      exact inv.of_coordinator (by rw [h]; rfl) rfl nofun id nofun nofun htally
    · rw [hset] at htally ⊢
      exact inv.of_coordinator (by rw [h]; rfl) rfl (fun _ => by rw [h]; rfl) id nofun nofun htally
  | loopEnds h hempty hdead =>
    exact inv.of_coordinator (by rw [h]; rfl) rfl (fun _ => by rw [h]; rfl) id (fun _ => ⟨hempty, hdead⟩) nofun htally
  | @join executor error results h hexecutor hended =>
    obtain ⟨e, hset⟩ | ⟨result, e2s, rfl, rfl, hset, -⟩ := @joined_cases σ J executor error results
    · rw [hset] at htally ⊢
      exact inv.of_coordinator (by rw [h]; rfl) rfl nofun id nofun nofun htally
    · rw [hset] at htally ⊢
      have hdone := inv.drained (.inl (by rw [h]; rfl))
      exact inv.of_coordinator (by rw [h]; rfl) rfl (fun _ => by rw [h]; rfl) id (fun _ => hdone)
        (fun _ => ⟨result, hexecutor⟩) htally
  | consumerReceive h hdata => exact inv.of_consumer h rfl (by rw [hdata]; exact nofun) nofun htally
  | @consumerProve data results P M tools consumers h =>
    obtain ⟨e, hset⟩ | ⟨state, -, -, hset⟩ := @consumerProved_cases σ J P M hopen tools data results
    · rw [hset] at h htally ⊢
      exact inv.of_consumer h rfl id nofun htally
    · rw [hset] at h htally ⊢
      exact inv.of_consumer h rfl id nofun htally
  | consumerLoopEnds h hempty hdead => exact inv.of_consumer h rfl id (fun _ => ⟨hempty, hdead⟩) htally
  | poolFails h hopen' => exact { inv with tally := htally, closed := nofun }
  | merge h hall hopen' =>
    refine { inv with tally := htally, closed := ?_ }
    intro results houtcome
    obtain ⟨own, rfl, hdone, hresults⟩ := merged_success hall (Except.ok.inj (Option.some.inj houtcome))
    exact ⟨own, h, hdone, hresults⟩

theorem fault (inv : JobInv J s) (hstep : FaultStep s s') : JobInv J s' := by
  have htally : s'.failed = false → Tally J s' := by
    rw [failed_of_fault hstep]
    exact nofun
  cases hstep with
  | coordinatorFails message h =>
    have hpending : s.coordinator.succeeded = false := by
      cases hcoordinator : s.coordinator with
      | starting | proving => rfl
      | joining | answered =>
        rw [hcoordinator] at h
        cases h
    exact inv.of_coordinator hpending rfl nofun id nofun nofun htally
  | coordinatorGone report h =>
    have hpending : s.coordinator.succeeded = false := by
      cases hcoordinator : s.coordinator with
      | starting | proving | joining => rfl
      | answered answer => exact absurd hcoordinator (h answer)
    exact inv.of_coordinator hpending rfl nofun id nofun nofun htally
  | consumerFails message h | consumerGone h => exact inv.of_consumer h rfl id nofun htally
  | executorPanics message h hrunning => exact inv.of_executor h hrunning (.inr ⟨message, rfl⟩) htally

theorem step (inv : JobInv J s) (hopen : J.job.resultTx ≠ .receiverClosed) (hstep : J.Step s s') : JobInv J s' :=
  hstep.elim (inv.work hopen) inv.fault

theorem run (inv : JobInv J s) (hopen : J.job.resultTx ≠ .receiverClosed) (hrun : Relation.ReflTransGen J.Step s s') :
    JobInv J s' := by
  induction hrun with
  | refl => exact inv
  | tail _ hstep ih => exact ih.step hopen hstep

private theorem failed_run (inv : JobInv J s) (hopen : J.job.resultTx ≠ .receiverClosed)
    (hrun : Relation.ReflTransGen J.Step s s') (h : s.failed = true) : s'.failed = true := by
  induction hrun with
  | refl => exact h
  | tail hbefore hstep ih =>
    cases hstep with
    | inl hwork =>
      rw [← Bool.not_eq_false]
      intro hok
      rw [(inv.run hopen hbefore).failed_of_work hwork hok] at ih
      cases ih
    | inr hfault => exact failed_of_fault hfault

end JobInv

structure ShardEmitted (J : ParallelJob σ) (emitted : List ProofResult) : Prop where
  /-- Every segment of the shard has one result, and no other segment has any. -/
  segments : ∀ i, emitted.countP (·.appSegment == some i) =
    if i < J.run.segments.length ∧ i % J.job.numProvers = J.job.proverId then 1 else 0
  proved : ∀ a, .app a ∈ emitted → a.state.proof.isSome = true
  executeE2 : emitted.countP (·.isExecuteE2) = if J.job.proverId = 0 then 1 else 0

namespace JobInv

private theorem ended_of_success (inv : JobInv J s) {results : List ProofResult}
    (houtcome : s.outcome = some (.ok (.success results))) :
    s.failed = false ∧ (∀ i, s.inFlight i = 0) ∧ s.sent J.job = J.job.ownedBelow J.run.segments.length ∧
      J.e2Out s = (J.job.proverId == 0) := by
  obtain ⟨own, hanswered, hdone, -⟩ := inv.closed results houtcome
  obtain ⟨result, hreturned⟩ := inv.joined (by rw [hanswered]; rfl)
  refine ⟨?_, ?_, ?_, ?_⟩
  · refine failed_eq_false_iff.mpr ⟨by rw [hreturned]; rfl, by rw [hanswered]; rfl, ?_⟩
    apply List.any_eq_false.mpr
    intro consumer hmem
    match consumer, hdone consumer hmem with
    | .answered (some (.success _)), _ => exact nofun
  · intro i
    have hchannel := (inv.drained (.inl (by rw [hanswered]; rfl))).1
    have hheld : (s.consumers.map fun c => dataCount i c.held).sum = 0 := by
      apply List.sum_eq_zero_iff_forall_eq_nat.mpr
      intro n hn
      obtain ⟨consumer, hmem, rfl⟩ := List.mem_map.mp hn
      match consumer, hdone consumer hmem with
      | .answered (some (.success _)), _ => rfl
    rw [ParallelState.inFlight, hchannel, hheld, hanswered]
    rfl
  · obtain ⟨-, hschedule | ⟨message, hpanicked⟩⟩ := inv.sound _ hreturned
    · rw [ParallelState.sent, hreturned, ← (hschedule result rfl).2]
      rfl
    · cases hpanicked
  · simp [ParallelJob.e2Out, hanswered, hreturned, Coordinator.succeeded, Executor.hasReported]

private theorem emitted_of_success (inv : JobInv J s) {results : List ProofResult}
    (houtcome : s.outcome = some (.ok (.success results))) (p : ProofResult → Bool) :
    s.emitted p = (s.streamed ++ results).countP p := by
  obtain ⟨own, hanswered, hdone, rfl⟩ := inv.closed results houtcome
  have hproofs : (s.consumers.map fun c => c.results.countP p) = s.consumers.map (List.countP p ∘ Consumer.proofs) := by
    apply List.map_congr_left
    intro consumer hmem
    match consumer, hdone consumer hmem with
    | .answered (some (.success _)), _ => rfl
  rw [ParallelState.emitted, hproofs, hanswered, List.countP_append, List.countP_append, List.countP_flatMap]
  simp only [Coordinator.results]
  omega

theorem accounted (inv : JobInv J s) {results : List ProofResult}
    (houtcome : s.outcome = some (.ok (.success results))) : ShardEmitted J (s.streamed ++ results) := by
  obtain ⟨hok, hflight, hsent, he2⟩ := inv.ended_of_success houtcome
  have hemitted := inv.emitted_of_success houtcome
  obtain ⟨hbalanced, hproved, hexecuteE2⟩ := inv.tally hok
  refine ⟨?_, ?_, ?_⟩
  · intro i
    rw [← hemitted, ← count_ownedBelow, ← hsent, hbalanced, hflight]
    exact (Nat.zero_add _).symm
  · intro a ha
    rw [hemitted] at hproved
    have hproof := List.countP_eq_zero.mp hproved _ ha
    exact Option.isSome_iff_ne_none.mpr (by simpa [ProofResult.isUnproved] using hproof)
  · rw [← hemitted, hexecuteE2, he2]
    simp

end JobInv

/-- How much of the program is left to the executor; a round outweighs what becomes of the segment that it sends. -/
def Executor.rank (numSegments : Nat) : Executor σ → Nat
  | suspended calls _ => 4 * (numSegments + 1 - calls) + 2
  | sending calls _ _ _ => 4 * (numSegments + 1 - calls) + 1
  | reporting _ => 1
  | returned _ | panicked _ => 0

def Coordinator.rank : Coordinator σ → Nat
  | starting => 4
  | proving held _ => 3 + held.toList.length
  | joining .. => 2
  | answered _ => 0

def Consumer.rank : Consumer σ → Nat
  | proving held _ => 1 + held.toList.length
  | answered _ => 0

def ParallelJob.rank (J : ParallelJob σ) (s : ParallelState σ) : Nat :=
  (match s.executor with
    | none => 4 * (J.run.segments.length + 1) + 3
    | some executor => executor.rank J.run.segments.length) +
  2 * s.channel.length + s.coordinator.rank + (s.consumers.map Consumer.rank).sum + if s.outcome.isNone then 1 else 0

@[simp] theorem Coordinator.rank_answered (answer : ProverAnswer) : (answered answer : Coordinator σ).rank = 0 := rfl

namespace Executor
variable {job : ShardedAppProverJob} {run : MeteredRun σ}

@[simp] theorem rank_suspended (n calls : Nat) (snapshots : List (VmSnapshot σ)) :
    (suspended calls snapshots).rank n = 4 * (n + 1 - calls) + 2 := rfl

@[simp] theorem rank_sending (n calls : Nat) (snapshots : List (VmSnapshot σ)) (execState : ExecState σ)
    (data : ProveData σ) : (sending calls snapshots execState data).rank n = 4 * (n + 1 - calls) + 1 := rfl

@[simp] theorem rank_reporting (n : Nat) (segments : List Segment) : (reporting segments : Executor σ).rank n = 1 := rfl

@[simp] theorem rank_returned (n : Nat) (result : Except String ExecutorResult) :
    (returned result : Executor σ).rank n = 0 := rfl

@[simp] theorem rank_panicked (n : Nat) (message : String) : (panicked message : Executor σ).rank n = 0 := rfl

private theorem rank_endRound {c : Nat} (hc : c < run.segments.length) (snapshots : List (VmSnapshot σ))
    (execState : ExecState σ) (shouldBreak : Bool) :
    (endRound job c snapshots execState shouldBreak).rank run.segments.length + 2 <
      4 * (run.segments.length + 1 - c) + 1 := by
  unfold endRound
  cases shouldBreak with
  | true =>
    show 1 + 2 < _
    omega
  | false =>
    rw [if_neg Bool.false_ne_true]
    split
    · show 4 * (run.segments.length + 1 - (c + 1)) + 2 + 2 < _
      omega
    · show 4 * (run.segments.length + 1 - (c + 1)) + 2 + 2 < _
      omega

private theorem rank_resume (hid : job.proverId < job.numProvers) {c : Nat} {snapshots : List (VmSnapshot σ)}
    (h : OnSchedule job run (.suspended c snapshots)) :
    (resume job run.metered c snapshots).rank run.segments.length < 4 * (run.segments.length + 1 - c) + 2 := by
  obtain ⟨-, rfl⟩ := h
  obtain ⟨e, hfailed⟩ | ⟨shouldBreak, hc, -, ⟨-, segment, -, hsending⟩ | ⟨-, hround⟩⟩ := @resume_cases σ job hid run c
  · rw [hfailed]
    exact Nat.succ_pos _
  · rw [hsending]
    exact Nat.lt_succ_self _
  · rw [hround]
    have hrank := @rank_endRound σ job run c hc ((kept job c).map run.startingIn) (run.execState c) shouldBreak
    omega

private theorem rank_of_running {executor : Executor σ} (h : executor.isRunning = true) (n : Nat) :
    0 < executor.rank n := by
  cases executor with
  | suspended | sending | reporting => exact Nat.succ_pos _
  | returned | panicked => cases h

private theorem rank_report (encodeSegments : List Segment → Except String (List Bytes))
    (segments : List Segment) (n : Nat) :
    (report (σ := σ) job encodeSegments segments).1.rank n = 0 := by
  unfold report
  split
  · split <;> rfl
  · rfl

end Executor

namespace JobInv

private theorem rank_work (inv : JobInv J s) (hopen : J.job.resultTx ≠ .receiverClosed) (hstep : J.WorkStep s s') :
    J.rank s' < J.rank s := by
  cases hstep with
  | start setup h =>
    have hnone := inv.unspawned (by rw [h]; rfl)
    obtain ⟨e, hset⟩ | ⟨hid, hset⟩ := @afterSetup_cases σ J s setup
    · rw [hset]
      simp only [ParallelJob.rank, h, Coordinator.rank]
      omega
    · rw [hset]
      simp only [ParallelJob.rank, h, hnone, Coordinator.rank, Executor.start, Executor.rank_suspended, Option.toList,
        List.length_nil]
      omega
  | @resume c snapshots h =>
    obtain ⟨hid, hschedule | ⟨message, hpanicked⟩⟩ := inv.sound _ h
    · have hrank := Executor.rank_resume hid hschedule
      simp only [ParallelJob.rank, h, Executor.rank_suspended]
      omega
    · cases hpanicked
  | @send c snapshots execState data h hroom halive =>
    obtain ⟨-, ⟨hc, -⟩ | ⟨message, hpanicked⟩⟩ := inv.sound _ h
    · have hrank := @Executor.rank_endRound σ J.job J.run c hc snapshots execState data.isFinal
      simp only [ParallelJob.rank, h, Executor.rank_sending, List.length_append, List.length_singleton]
      omega
    · cases hpanicked
  | disconnected h hdead =>
    simp only [ParallelJob.rank, h, Executor.rank_sending, Executor.rank_returned]
    omega
  | report h =>
    simp only [ParallelJob.rank, h, Executor.rank_report, Executor.rank_reporting]
    omega
  | receive h hdata =>
    simp only [ParallelJob.rank, h, hdata, Coordinator.rank, Option.toList, List.length_cons, List.length_nil]
    omega
  | @prove data results h P M tools =>
    obtain ⟨e, hset | hset⟩ | ⟨state, -, -, hset⟩ := @coordinatorProved_cases σ J s P M tools data results
    all_goals
      rw [hset]
      simp only [ParallelJob.rank, h, Coordinator.rank, Option.toList, List.length_cons, List.length_nil]
      omega
  | loopEnds h hempty hdead =>
    simp only [ParallelJob.rank, h, Coordinator.rank, Option.toList, List.length_nil]
    omega
  | join h hexecutor hended =>
    simp only [ParallelJob.rank, h, Coordinator.rank]
    omega
  | consumerReceive h hdata =>
    have hsum := h.sum_eq Consumer.rank
    simp only [ParallelJob.rank, hdata, Consumer.rank, Option.toList, List.length_cons, List.length_nil] at hsum ⊢
    omega
  | @consumerProve data results P M tools consumers h =>
    have hsum := h.sum_eq Consumer.rank
    obtain ⟨e, hset⟩ | ⟨state, -, -, hset⟩ := @consumerProved_cases σ J P M hopen tools data results
    all_goals
      rw [hset] at hsum
      simp only [ParallelJob.rank, Consumer.rank, Option.toList, List.length_cons, List.length_nil] at hsum ⊢
      omega
  | consumerLoopEnds h hempty hdead =>
    have hsum := h.sum_eq Consumer.rank
    simp only [ParallelJob.rank, Consumer.rank, Option.toList, List.length_nil] at hsum ⊢
    omega
  | poolFails h hnone | merge h hall hnone =>
    simp only [ParallelJob.rank, hnone, Option.isNone_none, Option.isNone_some, if_true]
    simp

end JobInv

private theorem rank_fault (hstep : FaultStep s s') : J.rank s' < J.rank s := by
  cases hstep with
  | coordinatorFails message h =>
    have hrank : 0 < s.coordinator.rank := by
      cases hcoordinator : s.coordinator with
      | starting | proving => simp [Coordinator.rank]
      | joining | answered =>
        rw [hcoordinator] at h
        cases h
    simp only [ParallelJob.rank, Coordinator.rank_answered]
    omega
  | coordinatorGone report h =>
    have hrank : 0 < s.coordinator.rank := by
      cases hcoordinator : s.coordinator with
      | starting | proving | joining => simp [Coordinator.rank]
      | answered answer => exact absurd hcoordinator (h answer)
    simp only [ParallelJob.rank, Coordinator.rank_answered]
    omega
  | consumerFails message h | consumerGone h =>
    have hsum := h.sum_eq Consumer.rank
    simp only [ParallelJob.rank, Consumer.rank] at hsum ⊢
    omega
  | executorPanics message h hrunning =>
    have hrank := Executor.rank_of_running hrunning J.run.segments.length
    simp only [ParallelJob.rank, h, Executor.rank_panicked]
    omega

private theorem JobInv.ends (inv : JobInv J s) (hopen : J.job.resultTx ≠ .receiverClosed) : Progress.Ends J.Step s := by
  apply Progress.ends_of_rank J.rank
  · intro t next hinv hstep
    exact JobInv.step hinv hopen hstep
  · intro t next hinv hstep
    exact hstep.elim (JobInv.rank_work hinv hopen) rank_fault
  · exact inv

private def failingTools : SegmentTools σ Unit Unit where
  executeFromState _ _ := .error "unavailable"
  prove _ _ := .error "unavailable"
  memoryTopTree := false
  terminalDeferralPathBytes _ := .error "unavailable"
  terminalDepth0DeferralProofsBytes _ _ := .error "unavailable"
  encodeProof _ _ := .error "unavailable"

private theorem consumer_moves {consumer : Consumer σ} (hmem : consumer ∈ s.consumers) (h : consumer.isProving = true)
    (hchannel : s.channel = [] → s.senderAlive = false) : ∃ next, J.WorkStep s next := by
  cases consumer with
  | answered => cases h
  | proving held results =>
    cases held with
    | some data =>
      obtain ⟨consumers, hconsumers⟩ := Replaces.exists_replaces hmem (J.consumerProved failingTools data results).1
      exact ⟨_, .consumerProve failingTools hconsumers⟩
    | none =>
      cases hdata : s.channel with
      | cons data rest =>
        obtain ⟨consumers, hconsumers⟩ := Replaces.exists_replaces hmem (.proving (some data) results)
        exact ⟨_, .consumerReceive hconsumers hdata⟩
      | nil =>
        obtain ⟨consumers, hconsumers⟩ := Replaces.exists_replaces hmem (.answered (some (.success results)))
        exact ⟨_, .consumerLoopEnds hconsumers hdata (hchannel hdata)⟩

private theorem coordinator_moves {held : Option (ProveData σ)} {results : List ProofResult}
    (h : s.coordinator = .proving held results) (hchannel : s.channel = [] → s.senderAlive = false) :
    ∃ next, J.WorkStep s next := by
  cases held with
  | some data => exact ⟨_, .prove h failingTools⟩
  | none =>
    cases hdata : s.channel with
    | cons data rest => exact ⟨_, .receive h hdata⟩
    | nil => exact ⟨_, .loopEnds h hdata (hchannel hdata)⟩

namespace JobInv

/-- A full channel has a receiver that goes on, and a channel that has lost its receivers fails the send. -/
theorem executor_moves (inv : JobInv J s) {executor : Executor σ} (h : s.executor = some executor)
    (hrunning : executor.isRunning = true) : ∃ next, J.WorkStep s next := by
  cases executor with
  | returned | panicked => cases hrunning
  | suspended calls snapshots => exact ⟨_, .resume h⟩
  | reporting segments => exact ⟨_, .report h⟩
  | sending calls snapshots execState data =>
    cases halive : s.receiverAlive with
    | false => exact ⟨_, .disconnected h halive⟩
    | true =>
      by_cases hroom : s.channel.length < J.capacity
      · exact ⟨_, .send h hroom halive⟩
      · have hparallel := J.parallel
        have hchannel : s.channel = [] → s.senderAlive = false := by
          intro hempty
          rw [hempty, List.length_nil, capacity] at hroom
          omega
        rw [ParallelState.receiverAlive, Bool.or_eq_true, List.any_eq_true] at halive
        obtain hreceives | ⟨consumer, hmem, hproving⟩ := halive
        · cases hcoordinator : s.coordinator with
          | starting =>
            rw [inv.unspawned (by rw [hcoordinator]; rfl)] at h
            cases h
          | proving held results => exact coordinator_moves hcoordinator hchannel
          | joining | answered =>
            rw [hcoordinator] at hreceives
            cases hreceives
        · exact consumer_moves hmem hproving hchannel

private theorem parties_move (inv : JobInv J s) (hended : s.executor.any (·.isRunning) = false)
    (hopen : s.outcome = none) :
    ∃ next, J.WorkStep s next := by
  have hdead : s.coordinator.isStarting = false → s.senderAlive = false := by
    intro hstarting
    simp [ParallelState.senderAlive, hstarting, hended]
  cases hcoordinator : s.coordinator with
  | starting => exact ⟨_, .start (.ok ()) hcoordinator⟩
  | proving held results => exact coordinator_moves hcoordinator fun _ => hdead (by rw [hcoordinator]; rfl)
  | joining error results =>
    cases hexecutor : s.executor with
    | none =>
      have hspawned := (inv.spawned hexecutor).2
      rw [hcoordinator] at hspawned
      cases hspawned
    | some executor =>
      rw [hexecutor] at hended
      exact ⟨_, .join hcoordinator hexecutor hended⟩
  | answered answer =>
    cases answer with
    | error e => exact ⟨_, .poolFails hcoordinator hopen⟩
    | ok result =>
      cases hall : s.consumers.any (·.isProving) with
      | false => exact ⟨_, .merge hcoordinator hall hopen⟩
      | true =>
        obtain ⟨consumer, hmem, hproving⟩ := List.any_eq_true.mp hall
        exact consumer_moves hmem hproving fun _ => hdead (by rw [hcoordinator]; rfl)

/-- Where nobody can go on, the job is over, with the executor's thread ended. -/
theorem over_of_stuck (inv : JobInv J s) (hstuck : ∀ next, ¬J.WorkStep s next) :
    s.outcome.isSome = true ∧ s.executor.any (·.isRunning) = false := by
  have hended : s.executor.any (·.isRunning) = false := by
    apply Bool.eq_false_iff.mpr
    intro hrunning
    cases hexecutor : s.executor with
    | none =>
      rw [hexecutor] at hrunning
      cases hrunning
    | some executor =>
      rw [hexecutor] at hrunning
      obtain ⟨next, hwork⟩ := inv.executor_moves hexecutor hrunning
      exact hstuck next hwork
  refine ⟨?_, hended⟩
  cases houtcome : s.outcome with
  | some answer => rfl
  | none =>
    obtain ⟨next, hwork⟩ := inv.parties_move hended houtcome
    exact absurd hwork (hstuck next)

end JobInv

/-- At any point of any run: a success accounts for every segment of the shard, a failure of any party leads to an
error, every run is finite, and where nobody can go on the job has its outcome and its executor has ended. -/
theorem parallel_job_accounting (J : ParallelJob σ) (hopen : J.job.resultTx ≠ .receiverClosed) {s : ParallelState σ}
    (hrun : Relation.ReflTransGen J.Step J.start s) :
    (∀ results, s.outcome = some (.ok (.success results)) → ShardEmitted J (s.streamed ++ results)) ∧
      (s.failed = true → ∀ later answer, Relation.ReflTransGen J.Step s later → later.outcome = some answer →
        ∃ e, answer = .error e ∨ answer = .ok (.error e)) ∧
      Progress.Ends J.Step s ∧
      ((∀ next, ¬J.WorkStep s next) → s.outcome.isSome = true ∧ s.executor.any (·.isRunning) = false) := by
  have inv : JobInv J s := jobInv_start.run hopen hrun
  refine ⟨fun results => inv.accounted, ?_, inv.ends hopen, inv.over_of_stuck⟩
  intro hfailed later answer hlater houtcome
  have hlaterFailed := inv.failed_run hopen hlater hfailed
  match answer, houtcome with
  | .error e, _ => exact ⟨e, .inl rfl⟩
  | .ok (.error e), _ => exact ⟨e, .inr rfl⟩
  | .ok (.success results), houtcome =>
    rw [((inv.run hopen hlater).ended_of_success houtcome).1] at hlaterFailed
    cases hlaterFailed

/-- The only prover of three segments, with one consumer beside its coordinator. -/
def shortJob : ParallelJob Nat where
  job := ⟨⟨"proof", ⟨"program", 1⟩, [], .stark⟩, 1, 0, 2, .none, []⟩
  parallel := by decide
  run := sampleMetered
  encodeSegments _ := .ok []

def provingTools : SegmentTools Nat Unit Unit where
  executeFromState vmState _ := .ok vmState
  prove _ _ := .ok ((), some ())
  memoryTopTree := true
  terminalDeferralPathBytes _ := .ok []
  terminalDepth0DeferralProofsBytes _ _ := .ok none
  encodeProof _ _ := .ok []

/-- The consumer proves the last two segments before the coordinator is done with the first, and all results are
returned. -/
theorem parallel_job_accounting_short : ∃ s results, Relation.ReflTransGen shortJob.Step shortJob.start s ∧
    s.outcome = some (.ok (.success results)) ∧
    results.map ProofResult.appSegment = [none, some 0, some 1, some 2] ∧
    ShardEmitted shortJob (s.streamed ++ results) := by
  have hgo : ∀ {t next : ParallelState Nat}, Relation.ReflTransGen shortJob.Step shortJob.start t →
      shortJob.WorkStep t next → Relation.ReflTransGen shortJob.Step shortJob.start next :=
    fun hrun hwork => hrun.tail (.inl hwork)
  have hsetup := hgo .refl (.start (.ok ()) rfl)
  have hsent0 := hgo (hgo hsetup (.resume rfl)) (.send rfl (by decide) rfl)
  have hreceived := hgo hsent0 (.receive rfl rfl)
  have hsent1 := hgo (hgo hreceived (.resume rfl)) (.send rfl (by decide) rfl)
  have hconsumed1 := hgo hsent1 (.consumerReceive ⟨[], [], rfl, rfl⟩ rfl)
  have hsent2 := hgo (hgo hconsumed1 (.resume rfl)) (.send rfl (by decide) rfl)
  have hproved1 := hgo hsent2 (.consumerProve provingTools ⟨[], [], rfl, rfl⟩)
  have hconsumed2 := hgo hproved1 (.consumerReceive ⟨[], [], rfl, rfl⟩ rfl)
  have hproved2 := hgo hconsumed2 (.consumerProve provingTools ⟨[], [], rfl, rfl⟩)
  have hreported := hgo hproved2 (.report rfl)
  have hproved0 := hgo hreported (.prove rfl provingTools)
  have hended := hgo hproved0 (.loopEnds rfl rfl rfl)
  have hconsumerEnded := hgo hended (.consumerLoopEnds ⟨[], [], rfl, rfl⟩ rfl rfl)
  have hmerged := hgo (hgo hconsumerEnded (.join rfl rfl rfl)) (.merge rfl rfl rfl)
  exact ⟨_, _, hmerged, rfl, rfl, (parallel_job_accounting shortJob (by decide) hmerged).1 _ rfl⟩

end EdgeProver
