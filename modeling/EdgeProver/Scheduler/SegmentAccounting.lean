import Mathlib.Algebra.BigOperators.Group.Finset.Basic
import EdgeProver.Scheduler.Accounting
import EdgeProver.Scheduler.Handing
import EdgeProver.Scheduler.Redelivery

/-! When the slot that a worker's shard occupies is given back: the results of its segments and the segment count
arrive in any order, among the calls for other workers. -/
namespace EdgeProver
open Replace

/-- Among segments of the proof, counting those of the worker is looking for each of its shard. -/
theorem workerCompletedAllSegments_iff {workerId numWorkers total : Nat} {completed : Finset Nat}
    (hid : workerId < numWorkers) (hsub : completed ⊆ Finset.range total) :
    workerCompletedAllSegments workerId completed numWorkers (some total) = true ↔
      shard workerId numWorkers total ⊆ completed := by
  constructor
  · intro hall
    have hown : completed.filter (· % numWorkers = workerId) ⊆ shard workerId numWorkers total :=
      Finset.filter_subset_filter _ hsub
    have hcount : (shard workerId numWorkers total).card ≤ (completed.filter (· % numWorkers = workerId)).card := by
      rw [card_shard hid]
      exact (completedAll_iff (Nat.zero_lt_of_lt hid) workerId total completed).mp hall
    rw [← Finset.eq_of_subset_of_card_le hown hcount]
    exact Finset.filter_subset _ _
  · exact completed_of_shard_subset hid

/-- `set_num_segments` asks the same question, of the workers that are busy. -/
theorem shardDone_iff {worker : EdgeWorkerState} {numWorkers total : Nat} (hid : worker.id < numWorkers)
    (hsub : worker.completedSegments ⊆ Finset.range total) :
    worker.shardDone numWorkers total = true ↔
      0 < worker.activeProofCount ∧ shard worker.id numWorkers total ⊆ worker.completedSegments := by
  rw [EdgeWorkerState.shardDone, Bool.and_eq_true, Bool.or_eq_true, decide_eq_true_eq, beq_iff_eq,
    workerCompletedAllSegments_iff hid hsub]
  refine and_congr_right fun _ => or_iff_right_of_imp ?_
  intro hnone
  rw [shard_eq_empty_of_expectedCount (Nat.zero_lt_of_lt hid) hnone]
  exact Finset.empty_subset _

private theorem sum_expectedCount {numWorkers : Nat} (hworkers : 1 ≤ numWorkers) (total : Nat) :
    ∑ workerId ∈ Finset.range numWorkers, expectedCount workerId numWorkers total = total := by
  have hmaps : ∀ segment ∈ Finset.range total, segment % numWorkers ∈ Finset.range numWorkers := by
    intro segment _
    exact Finset.mem_range.mpr (Nat.mod_lt _ hworkers)
  calc ∑ workerId ∈ Finset.range numWorkers, expectedCount workerId numWorkers total
      = ∑ workerId ∈ Finset.range numWorkers, (shard workerId numWorkers total).card := by
        refine Finset.sum_congr rfl fun workerId hid => ?_
        exact (card_shard (Finset.mem_range.mp hid) total).symm
    _ = (Finset.range total).card := (Finset.card_eq_sum_card_fiberwise hmaps).symm
    _ = total := Finset.card_range total

inductive ShardEvent where
  | counted (numSegments : Nat)
  | proved (segmentIdx : Nat)
  deriving DecidableEq, Repr

/-- What has to arrive for the shard of one worker: the count, and each of its segments. -/
def shardEvents (workerId numWorkers total : Nat) : List ShardEvent :=
  .counted total :: ((List.range total).filter (· % numWorkers = workerId)).map .proved

namespace SchedulerCall

def shardEvent (workerId : Nat) : SchedulerCall → Option ShardEvent
  | .setNumSegments numSegments => some (.counted numSegments)
  | .workerCompleted id (.app appProof) | .workerDrained id (.app appProof) =>
    if id = workerId then some (.proved appProof.state.segmentIdx) else none
  | _ => none

/-- The call takes the worker off its work by something else than a segment: a result of another step, an error, or
its release. -/
def interrupts (workerId : Nat) : SchedulerCall → Bool
  | .workerCompleted _ (.app _) | .workerDrained _ (.app _) => false
  | .workerCompleted _ (.executeE2 _) | .workerDrained _ (.executeE2 _) => false
  | .workerCompleted id _ | .workerDrained id _ | .releaseWorker id => id == workerId
  | .enqueueOrAssign _ _ | .setNumSegments _ => false

/-- The call gives the shard slot of the worker back. -/
def releasesShard (st : EdgeProofState) (workerId : Nat) : SchedulerCall → Bool
  | .setNumSegments numSegments =>
    (st.reached numSegments).any fun w => w.id == workerId && w.shardDone st.numWorkers numSegments
  | .workerCompleted id (.app appProof) | .workerDrained id (.app appProof) =>
    id == workerId && st.workers.any fun w => w.id == workerId &&
      workerCompletedAllSegments w.id (insert appProof.state.segmentIdx w.completedSegments) st.numWorkers
        st.numSegments
  | _ => false

end SchedulerCall

def shardReleases (proofUuid : String) (workerId : Nat) : EdgeProofState → List SchedulerCall → Nat
  | _, [] => 0
  | st, call :: calls =>
    (if call.releasesShard st workerId then 1 else 0) + shardReleases proofUuid workerId (call.exec proofUuid st) calls

/-- The worker holds the slot of its shard, and these events of the shard have arrived. -/
structure OnShard (st : EdgeProofState) (workerId numWorkers total : Nat) (events : List ShardEvent) : Prop where
  ids : (st.workers.map (·.id)).Nodup
  numWorkers_eq : st.numWorkers = numWorkers
  numSegments_eq : st.numSegments = if .counted total ∈ events then some total else none
  holds : ∃ worker ∈ st.workers, worker.id = workerId ∧ worker.Marked ∧
    ∀ segment, segment ∈ worker.completedSegments ↔ .proved segment ∈ events

private theorem mem_shardEvents_proved {workerId numWorkers total segment : Nat} :
    .proved segment ∈ shardEvents workerId numWorkers total ↔ segment ∈ shard workerId numWorkers total := by
  simp [shardEvents, mem_shard]

private theorem shardEvents_nodup (workerId numWorkers total : Nat) :
    (shardEvents workerId numWorkers total).Nodup := by
  refine List.nodup_cons.mpr ⟨?_, ?_⟩
  · simp
  · exact (List.nodup_range.filter _).map fun _ _ h => ShardEvent.proved.inj h

section
variable {st st' : EdgeProofState} {workerId numWorkers total : Nat} {events : List ShardEvent} {proofUuid : String}
  {call : SchedulerCall}

namespace OnShard

/-- Whoever takes an item has finished its shard. -/
theorem handsOut {works : List AssignedWork} (h : OnShard st workerId numWorkers total events)
    (hout : HandsOut st works st') : OnShard st' workerId numWorkers total events := by
  refine ⟨hout.ids ▸ h.ids, hout.numWorkers.trans h.numWorkers_eq, hout.numSegments.trans h.numSegments_eq, ?_⟩
  obtain ⟨worker, hmem, hid, hmarked, hsegments⟩ := h.holds
  refine ⟨worker, ?_, hid, hmarked, hsegments⟩
  clear h
  induction hout with
  | queue => exact hmem
  | give hwork hassigns hrest ih =>
    apply ih
    apply hassigns.replaces.other_of_mem_left hmem
    rintro rfl
    rcases hassigns.accepts.shard with hidle | hfree
    · rw [hmarked.2.1] at hidle
      cases hidle
    · rw [hmarked.runs] at hfree
      cases hfree

private theorem replaced {workers : List EdgeWorkerState} {other other' : EdgeWorkerState}
    (h : OnShard st workerId numWorkers total events) (hreplaces : Replaces st.workers workers other other')
    (hid : other'.id = other.id) (hne : other.id ≠ workerId) :
    OnShard { st with workers := workers } workerId numWorkers total events := by
  refine ⟨?_, h.numWorkers_eq, h.numSegments_eq, ?_⟩
  · rw [hreplaces.map_eq (·.id) hid]
    exact h.ids
  · obtain ⟨worker, hmem, rfl, hrest⟩ := h.holds
    refine ⟨worker, hreplaces.other_of_mem_left hmem ?_, rfl, hrest⟩
    rintro rfl
    exact hne rfl

/-- The worker itself is exchanged, for one that notes a segment more. -/
theorem noted {workers : List EdgeWorkerState} {worker : EdgeWorkerState} {segment : Nat}
    (h : OnShard st workerId numWorkers total events)
    (hreplaces : Replaces st.workers workers worker (worker.insertSegment segment)) (hid : worker.id = workerId) :
    OnShard { st with workers := workers } workerId numWorkers total (events ++ [ShardEvent.proved segment]) := by
  refine ⟨?_, h.numWorkers_eq, ?_, ?_⟩
  · rw [hreplaces.map_eq (·.id) rfl]
    exact h.ids
  · rw [h.numSegments_eq]
    simp
  · obtain ⟨holder, hmem, hholder, hmarked, hsegments⟩ := h.holds
    obtain rfl := eq_of_key (·.id) h.ids hmem hreplaces.mem_left (hid.trans hholder.symm)
    refine ⟨_, hreplaces.mem_right, hid, hmarked, fun other => ?_⟩
    rw [EdgeWorkerState.insertSegment, Finset.mem_insert, hsegments]
    simp [or_comm]

/-- A report of the worker that is about its shard, or of another worker. -/
theorem applyCompletion {id : Nat} {result : ProofResult} {freed : Bool}
    (h : OnShard st workerId numWorkers total events)
    (hquiet : id = workerId → ∃ state, result = .executeE2 state)
    (hcall : st.applyCompletion proofUuid id result = .ok (freed, st')) :
    OnShard st' workerId numWorkers total events := by
  obtain ⟨worker, workers, hreplaces, rfl, -, rfl⟩ := EdgeProofState.applyCompletion_ok hcall
  by_cases hid : worker.id = workerId
  · obtain ⟨state, rfl⟩ := hquiet hid
    obtain ⟨before, after, hbefore, hafter⟩ := hreplaces
    have hsame : workers = st.workers := hafter.trans hbefore.symm
    rwa [hsame]
  · exact h.replaced hreplaces (EdgeProofState.complete_static worker _ _ result).1 hid

private theorem executeE2_of_quiet {result : ProofResult}
    (hcall : call = .workerCompleted workerId result ∨ call = .workerDrained workerId result)
    (hevent : call.shardEvent workerId = none) (hcalm : call.interrupts workerId = false) :
    ∃ state, result = .executeE2 state := by
  cases result with
  | executeE2 state => exact ⟨state, rfl⟩
  | app appProof =>
    have hsome : call.shardEvent workerId = some (.proved appProof.state.segmentIdx) := by
      rcases hcall with rfl | rfl <;> exact if_pos rfl
    rw [hsome] at hevent
    cases hevent
  | _ =>
    have hinterrupts : call.interrupts workerId = true := by
      rcases hcall with rfl | rfl <;> exact beq_self_eq_true workerId
    rw [hinterrupts] at hcalm
    cases hcalm

/-- A call that says nothing of the shard, and does not interrupt it. -/
theorem quiet (h : OnShard st workerId numWorkers total events) (hevent : call.shardEvent workerId = none)
    (hcalm : call.interrupts workerId = false) : OnShard (call.exec proofUuid st) workerId numWorkers total events := by
  have hreport : ∀ id result, (call = .workerCompleted id result ∨ call = .workerDrained id result) →
      id = workerId → ∃ state, result = .executeE2 state := by
    rintro id result hcall rfl
    exact executeE2_of_quiet hcall hevent hcalm
  cases call with
  | enqueueOrAssign envelope step => exact h.handsOut (st.handsOut_assignOrQueue proofUuid ⟨envelope, step⟩)
  | setNumSegments numSegments => cases hevent
  | workerCompleted id result =>
    rw [SchedulerCall.exec, EdgeProofState.workerCompleted, EdgeProofState.completeWork]
    cases hcall : st.applyCompletion proofUuid id result with
    | error err => exact h
    | ok reported =>
      obtain ⟨freed, st'⟩ := reported
      have hkept := h.applyCompletion (hreport id result (.inl rfl)) hcall
      cases freed with
      | false => exact hkept
      | true => exact hkept.handsOut (st'.handsOut_tryDequeueWork proofUuid)
  | workerDrained id result =>
    rw [SchedulerCall.exec, EdgeProofState.workerDrained]
    cases hcall : st.applyCompletion proofUuid id result with
    | error err => exact h
    | ok reported =>
      obtain ⟨freed, st'⟩ := reported
      exact h.applyCompletion (hreport id result (.inr rfl)) hcall
  | releaseWorker id =>
    rw [SchedulerCall.exec, EdgeProofState.releaseWorker]
    split
    · next worker idx hfind =>
      obtain ⟨hget, hworker⟩ := find_zipIdx_some (fun w : EdgeWorkerState => w.id == id) hfind
      rw [beq_iff_eq] at hworker
      refine h.replaced (replaces_set hget _) rfl ?_
      rw [hworker]
      simpa [SchedulerCall.interrupts] using hcalm
    · exact h

end OnShard

def Arrived (workerId numWorkers total : Nat) (events : List ShardEvent) : Prop :=
  ∀ event ∈ shardEvents workerId numWorkers total, event ∈ events

/-- The worker runs nothing. -/
def Freed (st : EdgeProofState) (workerId : Nat) : Prop :=
  ∃ worker ∈ st.workers, worker.id = workerId ∧ worker.activeProofCount = 0 ∧ worker.activeProofs = []

private theorem arrived_iff : Arrived workerId numWorkers total events ↔
    .counted total ∈ events ∧ ∀ segment ∈ shard workerId numWorkers total, .proved segment ∈ events := by
  rw [Arrived, shardEvents, List.forall_mem_cons, List.forall_mem_map]
  simp only [List.mem_filter, List.mem_range, decide_eq_true_eq, mem_shard]

namespace OnShard
variable {worker : EdgeWorkerState}

private theorem segments_iff (h : OnShard st workerId numWorkers total events) (hmem : worker ∈ st.workers)
    (hid : worker.id = workerId) {segment : Nat} :
    segment ∈ worker.completedSegments ↔ .proved segment ∈ events := by
  obtain ⟨holder, hholder, hholderId, -, hsegments⟩ := h.holds
  obtain rfl := eq_of_key (·.id) h.ids hholder hmem (hid.trans hholderId.symm)
  exact hsegments segment

theorem marked (h : OnShard st workerId numWorkers total events) (hmem : worker ∈ st.workers)
    (hid : worker.id = workerId) : worker.Marked := by
  obtain ⟨holder, hholder, hholderId, hmarked, -⟩ := h.holds
  obtain rfl := eq_of_key (·.id) h.ids hholder hmem (hid.trans hholderId.symm)
  exact hmarked

/-- A result completes the shard exactly when it is the last of the events. -/
theorem all_iff (h : OnShard st workerId numWorkers total events) (hlt : workerId < numWorkers)
    (hmem : worker ∈ st.workers) (hid : worker.id = workerId) {segment : Nat}
    (hsub : ∀ event ∈ events ++ [ShardEvent.proved segment], event ∈ shardEvents workerId numWorkers total) :
    workerCompletedAllSegments worker.id (insert segment worker.completedSegments) st.numWorkers st.numSegments = true ↔
      Arrived workerId numWorkers total (events ++ [ShardEvent.proved segment]) := by
  have hinsert : ∀ other, other ∈ insert segment worker.completedSegments ↔
      .proved other ∈ events ++ [ShardEvent.proved segment] := by
    intro other
    rw [Finset.mem_insert, h.segments_iff hmem hid]
    simp [or_comm]
  have hrange : insert segment worker.completedSegments ⊆ Finset.range total := by
    intro other hother
    have hshard := mem_shardEvents_proved.mp (hsub _ ((hinsert other).mp hother))
    exact Finset.mem_range.mpr (mem_shard.mp hshard).1
  rw [arrived_iff, h.numSegments_eq, h.numWorkers_eq, hid]
  by_cases hcounted : .counted total ∈ events
  · rw [if_pos hcounted, workerCompletedAllSegments_iff hlt hrange]
    rw [and_iff_right (List.mem_append_left _ hcounted)]
    exact forall₂_congr fun other _ => hinsert other
  · rw [if_neg hcounted]
    simp [workerCompletedAllSegments, hcounted]

/-- The segment count completes the shard exactly when it is the last of the events. -/
theorem shardDone_iff_arrived (h : OnShard st workerId numWorkers total events) (hlt : workerId < numWorkers)
    (hmem : worker ∈ st.workers) (hid : worker.id = workerId)
    (hsub : ∀ event ∈ events, event ∈ shardEvents workerId numWorkers total) :
    worker.shardDone st.numWorkers total = true ↔
      Arrived workerId numWorkers total (events ++ [ShardEvent.counted total]) := by
  have hrange : worker.completedSegments ⊆ Finset.range total := by
    intro other hother
    have hshard := mem_shardEvents_proved.mp (hsub _ ((h.segments_iff hmem hid).mp hother))
    exact Finset.mem_range.mpr (mem_shard.mp hshard).1
  have hbusy : 0 < worker.activeProofCount := by
    rw [(h.marked hmem hid).2.1]
    exact Nat.one_pos
  rw [arrived_iff, h.numWorkers_eq, shardDone_iff (hid ▸ hlt) hrange, hid, and_iff_right hbusy,
    and_iff_right (List.mem_append_right _ (List.mem_singleton_self _))]
  refine forall₂_congr fun other _ => ?_
  rw [h.segments_iff hmem hid]
  simp

/-- What the accounting does with the result of a segment. -/
theorem reportSegment (h : OnShard st workerId numWorkers total events) (hlt : workerId < numWorkers)
    (proofUuid : String) {appProof : AppProof}
    (hsub : ∀ event ∈ events ++ [ShardEvent.proved appProof.state.segmentIdx],
      event ∈ shardEvents workerId numWorkers total) :
    ∃ freed st', st.applyCompletion proofUuid workerId (.app appProof) = .ok (freed, st') ∧
      (freed = true ↔ Arrived workerId numWorkers total (events ++ [ShardEvent.proved appProof.state.segmentIdx])) ∧
      (freed = true → Freed st' workerId) ∧
      (freed = false →
        OnShard st' workerId numWorkers total (events ++ [ShardEvent.proved appProof.state.segmentIdx])) := by
  obtain ⟨holder, hholder, hholderId, -⟩ := h.holds
  obtain ⟨freed, st', hcall⟩ := EdgeProofState.applyCompletion_of_mem hholder proofUuid (.app appProof)
  rw [hholderId] at hcall
  obtain ⟨worker, workers, hreplaces, hid, hfreed, rfl⟩ := EdgeProofState.applyCompletion_ok hcall
  have hall := h.all_iff hlt hreplaces.mem_left hid hsub
  refine ⟨freed, _, hcall, ?_⟩
  cases hdone : workerCompletedAllSegments worker.id (insert appProof.state.segmentIdx worker.completedSegments)
      st.numWorkers st.numSegments with
  | true =>
    have hcomplete : worker.complete st.numWorkers st.numSegments (.app appProof) =
        (true, (worker.insertSegment appProof.state.segmentIdx).finishShard) := if_pos hdone
    rw [hcomplete] at hreplaces hfreed
    obtain rfl : freed = true := hfreed
    refine ⟨iff_of_true rfl (hall.mp hdone), fun _ => ?_, fun hfalse => by cases hfalse⟩
    obtain ⟨-, hcount, hactive⟩ := h.marked hreplaces.mem_left hid
    refine ⟨_, hreplaces.mem_right, hid, ?_, ?_⟩
    · exact congrArg (· - 1) hcount
    · exact congrArg (List.filter _) hactive
  | false =>
    rw [hdone] at hall
    have hcomplete : worker.complete st.numWorkers st.numSegments (.app appProof) =
        (false, worker.insertSegment appProof.state.segmentIdx) := if_neg (hdone ▸ Bool.false_ne_true)
    rw [hcomplete] at hreplaces hfreed
    obtain rfl : freed = false := hfreed
    exact ⟨hall, fun htrue => absurd htrue Bool.false_ne_true, fun _ => h.noted hreplaces hid⟩

variable (proofUuid) in
private theorem countSegments (h : OnShard st workerId numWorkers total events) (hlt : workerId < numWorkers)
    (hsub : ∀ event ∈ events, event ∈ shardEvents workerId numWorkers total) :
    (Arrived workerId numWorkers total (events ++ [ShardEvent.counted total]) →
        Freed ((SchedulerCall.setNumSegments total).account proofUuid st) workerId) ∧
      (¬ Arrived workerId numWorkers total (events ++ [ShardEvent.counted total]) →
        OnShard ((SchedulerCall.setNumSegments total).account proofUuid st) workerId numWorkers total
          (events ++ [ShardEvent.counted total])) := by
  obtain ⟨worker, hmem, hid, ⟨hrole, hcount, hactive⟩, hsegments⟩ := h.holds
  have hdone := h.shardDone_iff_arrived hlt hmem hid hsub
  have hreleased : worker.releaseShard st.numWorkers total ∈
      ((SchedulerCall.setNumSegments total).account proofUuid st).workers := by
    rw [SchedulerCall.account, EdgeWorkerState.releaseShards_eq (h.numWorkers_eq ▸ Nat.zero_lt_of_lt hlt)]
    exact List.mem_map_of_mem hmem
  constructor
  · intro harrived
    rw [EdgeWorkerState.releaseShard, if_pos (hdone.mpr harrived)] at hreleased
    refine ⟨_, hreleased, hid, ?_, ?_⟩
    · exact congrArg (· - 1) hcount
    · exact congrArg (List.filter _) hactive
  · intro hopen
    rw [EdgeWorkerState.releaseShard, if_neg (mt hdone.mp hopen)] at hreleased
    refine ⟨?_, h.numWorkers_eq, ?_, worker, hreleased, hid, ⟨hrole, hcount, hactive⟩, fun segment => ?_⟩
    · have hids : ((SchedulerCall.setNumSegments total).account proofUuid st).workers.map (·.id) =
          st.workers.map (·.id) :=
        EdgeWorkerState.map_releaseShards _ (EdgeWorkerState.releaseShard_id _ _) _
      rw [hids]
      exact h.ids
    · rw [if_pos (List.mem_append_right _ (List.mem_singleton_self _))]
      rfl
    · rw [hsegments]
      simp

end OnShard

private theorem any_iff (hids : (st.workers.map (·.id)).Nodup) {worker : EdgeWorkerState} (hmem : worker ∈ st.workers)
    (hid : worker.id = workerId) (p : EdgeWorkerState → Bool) :
    (st.workers.any fun w => w.id == workerId && p w) = true ↔ p worker = true := by
  rw [List.any_eq_true]
  constructor
  · rintro ⟨other, hother, hp⟩
    rw [Bool.and_eq_true, beq_iff_eq] at hp
    obtain rfl := eq_of_key (·.id) hids hmem hother (hp.1.trans hid.symm)
    exact hp.2
  · intro hp
    refine ⟨worker, hmem, ?_⟩
    rw [hp, hid, beq_self_eq_true]
    rfl

private theorem proved_step (h : OnShard st workerId numWorkers total events) (hlt : workerId < numWorkers)
    (proofUuid : String) {appProof : AppProof}
    (hcall : call = .workerCompleted workerId (.app appProof) ∨ call = .workerDrained workerId (.app appProof))
    (hsub : ∀ other ∈ events ++ [ShardEvent.proved appProof.state.segmentIdx],
      other ∈ shardEvents workerId numWorkers total) :
    (call.releasesShard st workerId = true ↔
        Arrived workerId numWorkers total (events ++ [ShardEvent.proved appProof.state.segmentIdx])) ∧
      (Arrived workerId numWorkers total (events ++ [ShardEvent.proved appProof.state.segmentIdx]) →
        Freed (call.account proofUuid st) workerId) ∧
      (¬ Arrived workerId numWorkers total (events ++ [ShardEvent.proved appProof.state.segmentIdx]) →
        OnShard (call.exec proofUuid st) workerId numWorkers total
          (events ++ [ShardEvent.proved appProof.state.segmentIdx])) := by
  obtain ⟨worker, hmem, hid, -⟩ := h.holds
  obtain ⟨freed, st', happly, hfreed, hdone, hopen⟩ := h.reportSegment hlt proofUuid hsub
  have hreleases : call.releasesShard st workerId = (workerId == workerId && st.workers.any fun w => w.id == workerId &&
      workerCompletedAllSegments w.id (insert appProof.state.segmentIdx w.completedSegments) st.numWorkers
        st.numSegments) := by
    rcases hcall with rfl | rfl <;> rfl
  have haccount : call.account proofUuid st = st' := by
    rcases hcall with rfl | rfl <;> rw [SchedulerCall.account, EdgeProofState.workerDrained, happly]
  -- nothing is dequeued for a worker that keeps its slot
  have hexec : freed = false → call.exec proofUuid st = st' := by
    rintro rfl
    rcases hcall with rfl | rfl
    · rw [SchedulerCall.exec, EdgeProofState.workerCompleted, EdgeProofState.completeWork, happly]
    · rw [SchedulerCall.exec, EdgeProofState.workerDrained, happly]
  refine ⟨?_, fun harrived => ?_, fun hmore => ?_⟩
  · rw [hreleases, beq_self_eq_true, Bool.true_and, any_iff h.ids hmem hid fun w => workerCompletedAllSegments w.id
      (insert appProof.state.segmentIdx w.completedSegments) st.numWorkers st.numSegments]
    exact h.all_iff hlt hmem hid hsub
  · rw [haccount]
    exact hdone (hfreed.mpr harrived)
  · have hkeeps : freed = false := by simpa using mt hfreed.mp hmore
    rw [hexec hkeeps]
    exact hopen hkeeps

/-- One event of the shard: the slot is given back if it is the last of them, and held on to otherwise. -/
theorem shardEvent_step (h : OnShard st workerId numWorkers total events) (hlt : workerId < numWorkers)
    (proofUuid : String) {event : ShardEvent} (hevent : call.shardEvent workerId = some event)
    (hsub : ∀ other ∈ events ++ [event], other ∈ shardEvents workerId numWorkers total) :
    (call.releasesShard st workerId = true ↔ Arrived workerId numWorkers total (events ++ [event])) ∧
      (Arrived workerId numWorkers total (events ++ [event]) → Freed (call.account proofUuid st) workerId) ∧
      (¬ Arrived workerId numWorkers total (events ++ [event]) →
        OnShard (call.exec proofUuid st) workerId numWorkers total (events ++ [event])) := by
  obtain ⟨worker, hmem, hid, -⟩ := h.holds
  have hreport : ∀ id (appProof : AppProof),
      (if id = workerId then some (ShardEvent.proved appProof.state.segmentIdx) else none) = some event →
      id = workerId ∧ event = .proved appProof.state.segmentIdx := by
    intro id appProof hsome
    split at hsome
    · next hworker => exact ⟨hworker, (Option.some.inj hsome).symm⟩
    · cases hsome
  cases call with
  | enqueueOrAssign envelope step => cases hevent
  | releaseWorker id => cases hevent
  | setNumSegments numSegments =>
    obtain rfl := Option.some.inj hevent
    obtain rfl : numSegments = total := by
      have hlast := hsub _ (List.mem_append_right _ (List.mem_singleton_self _))
      simpa [shardEvents] using hlast
    have hbefore : ∀ other ∈ events, other ∈ shardEvents workerId numWorkers numSegments :=
      fun other hother => hsub other (List.mem_append_left _ hother)
    obtain ⟨hfreed, hkept⟩ := h.countSegments proofUuid hlt hbefore
    refine ⟨?_, hfreed, fun hopen => (hkept hopen).handsOut (st.handsOut_setNumSegments proofUuid numSegments)⟩
    rw [SchedulerCall.releasesShard, EdgeProofState.reached_eq (h.numWorkers_eq ▸ Nat.zero_lt_of_lt hlt),
      any_iff h.ids hmem hid fun w => w.shardDone st.numWorkers numSegments]
    exact h.shardDone_iff_arrived hlt hmem hid hbefore
  | workerCompleted id result =>
    cases result with
    | app appProof =>
      obtain ⟨rfl, rfl⟩ := hreport id appProof hevent
      exact proved_step h hlt proofUuid (.inl rfl) hsub
    | _ => cases hevent
  | workerDrained id result =>
    cases result with
    | app appProof =>
      obtain ⟨rfl, rfl⟩ := hreport id appProof hevent
      exact proved_step h hlt proofUuid (.inr rfl) hsub
    | _ => cases hevent

end

/-- Among the calls are the results of the worker's segments and the segment count, each once, and until the last of
them has come nothing else takes the worker off its shard. -/
structure DeliversShard (workerId numWorkers total : Nat) (calls : List SchedulerCall) : Prop where
  once : (calls.filterMap (SchedulerCall.shardEvent workerId)).Perm (shardEvents workerId numWorkers total)
  calm : ∀ before call after, calls = before ++ call :: after →
    (∃ later ∈ after, later.shardEvent workerId ≠ none) → call.interrupts workerId = false

section
variable {proofUuid : String} {workerId numWorkers total : Nat} {st : EdgeProofState} {calls : List SchedulerCall}

private theorem onShard_start {fleet : List (Nat × RegisteredWorker)} {worker : RegisteredWorker}
    (leafPackThreshold maxLeafProvers total : Nat) (hids : (fleet.map Prod.fst).Nodup)
    (hmem : (workerId, worker) ∈ fleet)
    (hstark : worker.workerRole.runsStarkProving = true) :
    OnShard (.initProof fleet leafPackThreshold maxLeafProvers) workerId
      (EdgeProofState.initProof fleet leafPackThreshold maxLeafProvers).numWorkers total [] := by
  refine ⟨?_, rfl, rfl, ?_⟩
  · rw [EdgeProofState.initProof, List.map_map]
    exact hids
  · refine ⟨_, List.mem_map_of_mem hmem, rfl, ⟨hstark, ?_, ?_⟩, ?_⟩
    · exact if_pos hstark
    · exact if_pos hstark
    · simp

private theorem shardReleases_append (proofUuid : String) (workerId : Nat) (st : EdgeProofState)
    (before after : List SchedulerCall) :
    shardReleases proofUuid workerId st (before ++ after) =
      shardReleases proofUuid workerId st before +
        shardReleases proofUuid workerId (afterCalls proofUuid st before) after := by
  induction before generalizing st with
  | nil => exact (Nat.zero_add _).symm
  | cons call before ih =>
    rw [List.cons_append, shardReleases, shardReleases, ih, Nat.add_assoc]
    rfl

private theorem releasesShard_of_silent {call : SchedulerCall} (st : EdgeProofState)
    (h : call.shardEvent workerId = none) :
    call.releasesShard st workerId = false := by
  have happ : ∀ id (appProof : AppProof),
      (if id = workerId then some (ShardEvent.proved appProof.state.segmentIdx) else none) = none →
      (id == workerId) = false := by
    intro id appProof hnone
    rw [beq_eq_false_iff_ne]
    rintro rfl
    rw [if_pos rfl] at hnone
    cases hnone
  cases call with
  | setNumSegments numSegments => cases h
  | workerCompleted id result =>
    cases result with
    | app appProof => rw [SchedulerCall.releasesShard, happ id appProof h, Bool.false_and]
    | _ => rfl
  | workerDrained id result =>
    cases result with
    | app appProof => rw [SchedulerCall.releasesShard, happ id appProof h, Bool.false_and]
    | _ => rfl
  | _ => rfl

private theorem shardReleases_of_silent (st : EdgeProofState) (h : ∀ call ∈ calls, call.shardEvent workerId = none) :
    shardReleases proofUuid workerId st calls = 0 := by
  induction calls generalizing st with
  | nil => rfl
  | cons call calls ih =>
    obtain ⟨hcall, hcalls⟩ := List.forall_mem_cons.mp h
    rw [shardReleases, releasesShard_of_silent st hcall, ih _ hcalls]
    rfl

variable (proofUuid) in
private theorem onShard_before (hstart : OnShard st workerId numWorkers total []) (hlt : workerId < numWorkers)
    (hdelivers : DeliversShard workerId numWorkers total calls) {before rest : List SchedulerCall}
    (hsplit : calls = before ++ rest) (hmore : ∃ later ∈ rest, later.shardEvent workerId ≠ none) :
    OnShard (afterCalls proofUuid st before) workerId numWorkers total
        (before.filterMap (SchedulerCall.shardEvent workerId)) ∧
      shardReleases proofUuid workerId st before = 0 := by
  induction before using List.reverseRecOn generalizing rest with
  | nil => exact ⟨hstart, rfl⟩
  | append_singleton before call ih =>
    obtain ⟨later, hlater, houtstanding⟩ := hmore
    have hsplit' : calls = before ++ call :: rest := by rw [hsplit, List.append_assoc]; rfl
    obtain ⟨honShard, hreleases⟩ := ih hsplit' ⟨later, List.mem_cons_of_mem _ hlater, houtstanding⟩
    rw [afterCalls_append, List.filterMap_append, shardReleases_append, hreleases]
    cases hevent : call.shardEvent workerId with
    | none =>
      have hcalm := hdelivers.calm before call rest hsplit' ⟨later, hlater, houtstanding⟩
      refine ⟨?_, ?_⟩
      · rw [List.filterMap_cons_none hevent, List.filterMap_nil, List.append_nil]
        exact honShard.quiet hevent hcalm
      · rw [shardReleases, releasesShard_of_silent _ hevent]
        rfl
    | some event =>
      rw [List.filterMap_cons_some hevent, List.filterMap_nil]
      have honce := hdelivers.once
      rw [hsplit', List.filterMap_append, List.filterMap_cons_some hevent, List.append_cons] at honce
      obtain ⟨other, hother⟩ := Option.ne_none_iff_exists'.mp houtstanding
      have hlast : other ∈ rest.filterMap (SchedulerCall.shardEvent workerId) :=
        List.mem_filterMap.mpr ⟨later, hlater, hother⟩
      -- the events that have come are distinct from the one that is still to come
      have hopen : ¬ Arrived workerId numWorkers total
          (before.filterMap (SchedulerCall.shardEvent workerId) ++ [event]) := by
        intro harrived
        have hnodup := honce.nodup_iff.mpr (shardEvents_nodup workerId numWorkers total)
        have hmem := harrived other (honce.subset (List.mem_append_right _ hlast))
        exact (List.disjoint_of_nodup_append hnodup) hmem hlast
      have hsub : ∀ known ∈ before.filterMap (SchedulerCall.shardEvent workerId) ++ [event],
          known ∈ shardEvents workerId numWorkers total :=
        fun known hknown => honce.subset (List.mem_append_left _ hknown)
      obtain ⟨hiff, -, hkept⟩ := shardEvent_step honShard hlt proofUuid hevent hsub
      refine ⟨hkept hopen, ?_⟩
      rw [shardReleases, if_neg (mt hiff.mp hopen)]
      rfl

private theorem exists_last {α : Type*} {p : α → Prop} {xs : List α} (h : ∃ x ∈ xs, p x) :
    ∃ before x after, xs = before ++ x :: after ∧ p x ∧ ∀ y ∈ after, ¬ p y := by
  induction xs with
  | nil =>
    obtain ⟨x, hx, -⟩ := h
    cases hx
  | cons first rest ih =>
    by_cases hrest : ∃ x ∈ rest, p x
    · obtain ⟨before, x, after, rfl, hx, hafter⟩ := ih hrest
      exact ⟨first :: before, x, after, rfl, hx, hafter⟩
    · obtain ⟨x, hx, hp⟩ := h
      rcases List.mem_cons.mp hx with rfl | hmem
      · exact ⟨[], x, rest, rfl, hp, fun y hy hpy => hrest ⟨y, hy, hpy⟩⟩
      · exact absurd ⟨x, hmem, hp⟩ hrest

/-- The worker keeps its slot until the last event of its shard, which alone gives it back. -/
theorem released_once (hstart : OnShard st workerId numWorkers total []) (hlt : workerId < numWorkers)
    (hdelivers : DeliversShard workerId numWorkers total calls) :
    shardReleases proofUuid workerId st calls = 1 ∧
      ∃ before last after, calls = before ++ last :: after ∧ last.shardEvent workerId ≠ none ∧
        (∀ later ∈ after, later.shardEvent workerId = none) ∧
        (∀ earlier, earlier <+: before → ∃ worker ∈ (afterCalls proofUuid st earlier).workers,
          worker.id = workerId ∧ worker.Marked) ∧
        last.releasesShard (afterCalls proofUuid st before) workerId = true ∧
        Freed (last.account proofUuid (afterCalls proofUuid st before)) workerId := by
  have hexists : ∃ call ∈ calls, call.shardEvent workerId ≠ none := by
    have hcounted : ShardEvent.counted total ∈ calls.filterMap (SchedulerCall.shardEvent workerId) :=
      hdelivers.once.symm.subset List.mem_cons_self
    obtain ⟨call, hcall, hevent⟩ := List.mem_filterMap.mp hcounted
    exact ⟨call, hcall, hevent ▸ Option.some_ne_none _⟩
  obtain ⟨before, last, after, hsplit, hlast, hafter⟩ := exists_last hexists
  have hsilent : ∀ later ∈ after, later.shardEvent workerId = none :=
    fun later hlater => not_not.mp (hafter later hlater)
  obtain ⟨honShard, hreleases⟩ := onShard_before proofUuid hstart hlt hdelivers hsplit
    ⟨last, List.mem_cons_self, hlast⟩
  obtain ⟨event, hevent⟩ := Option.ne_none_iff_exists'.mp hlast
  have honce := hdelivers.once
  rw [hsplit, List.filterMap_append, List.filterMap_cons_some hevent, List.filterMap_eq_nil_iff.mpr hsilent] at honce
  obtain ⟨hiff, hfreed, -⟩ := shardEvent_step honShard hlt proofUuid hevent fun _ hknown => honce.subset hknown
  have harrived : Arrived workerId numWorkers total (before.filterMap (SchedulerCall.shardEvent workerId) ++ [event]) :=
    fun _ hknown => honce.symm.subset hknown
  refine ⟨?_, before, last, after, hsplit, hlast, hsilent, ?_, hiff.mpr harrived, hfreed harrived⟩
  · rw [hsplit, shardReleases_append, hreleases, shardReleases, if_pos (hiff.mpr harrived),
      shardReleases_of_silent _ hsilent]
  · rintro earlier ⟨rest, rfl⟩
    rw [List.append_assoc] at hsplit
    obtain ⟨hearlier, -⟩ := onShard_before proofUuid hstart hlt hdelivers hsplit
      ⟨last, List.mem_append_right _ List.mem_cons_self, hlast⟩
    obtain ⟨worker, hmem, hid, hmarked, -⟩ := hearlier.holds
    exact ⟨worker, hmem, hid, hmarked⟩

end

/-- The count of a shard is its size, counting tells when it is complete, and the shards add up to the proof. So in
whatever order the results of a worker and the segment count arrive, the last of them, and no other call, gives the
slot of its shard back. -/
theorem segment_accounting :
    (∀ numWorkers workerId total (completed : Finset Nat), 1 ≤ numWorkers → workerId < numWorkers →
        completed ⊆ Finset.range total →
        expectedCount workerId numWorkers total = ((Finset.range total).filter (· % numWorkers = workerId)).card ∧
          (workerCompletedAllSegments workerId completed numWorkers (some total) = true ↔
            ∀ segment, segment < total → segment % numWorkers = workerId → segment ∈ completed)) ∧
      (∀ numWorkers total, 1 ≤ numWorkers →
        ∑ workerId ∈ Finset.range numWorkers, expectedCount workerId numWorkers total = total) ∧
      ∀ (fleet : List (Nat × RegisteredWorker)) (leafPackThreshold maxLeafProvers : Nat) (proofUuid : String)
        (workerId total : Nat) (worker : RegisteredWorker) (calls : List SchedulerCall),
        let start := EdgeProofState.initProof fleet leafPackThreshold maxLeafProvers
        (fleet.map Prod.fst).Nodup → (workerId, worker) ∈ fleet → worker.workerRole.runsStarkProving = true →
        workerId < start.numWorkers → DeliversShard workerId start.numWorkers total calls →
        shardReleases proofUuid workerId start calls = 1 ∧
          ∃ before last after, calls = before ++ last :: after ∧ last.shardEvent workerId ≠ none ∧
            (∀ later ∈ after, later.shardEvent workerId = none) ∧
            (∀ earlier, earlier <+: before → ∃ worker ∈ (afterCalls proofUuid start earlier).workers,
              worker.id = workerId ∧ worker.Marked) ∧
            last.releasesShard (afterCalls proofUuid start before) workerId = true ∧
            Freed (last.account proofUuid (afterCalls proofUuid start before)) workerId := by
  refine ⟨?_, ?_, ?_⟩
  · intro numWorkers workerId total completed _ hlt hsub
    refine ⟨(card_shard hlt total).symm, (workerCompletedAllSegments_iff hlt hsub).trans ?_⟩
    constructor
    · intro hshard segment hsegment hmod
      exact hshard (mem_shard.mpr ⟨hsegment, hmod⟩)
    · intro hall segment hmem
      obtain ⟨hsegment, hmod⟩ := mem_shard.mp hmem
      exact hall segment hsegment hmod
  · intro numWorkers total hworkers
    exact sum_expectedCount hworkers total
  · intro fleet leafPackThreshold maxLeafProvers proofUuid workerId total worker calls start hids hmem hstark
      hlt hdelivers
    exact released_once (onShard_start leafPackThreshold maxLeafProvers total hids hmem hstark) hlt hdelivers

/-- Two workers and three segments: the first worker's last segment comes after the count. -/
def twoWorkers : List (Nat × RegisteredWorker) :=
  [(0, ⟨"http://worker-0", 0, .full⟩), (1, ⟨"http://worker-1", 0, .full⟩)]

def segmentsAroundCount : List SchedulerCall :=
  [.workerCompleted 0 (.app (sampleSegment 2)), .workerCompleted 1 (.app (sampleSegment 1)), .setNumSegments 3,
    .workerCompleted 0 (.app (sampleSegment 0))]

private theorem segmentsAroundCount_delivers : DeliversShard 0 2 3 segmentsAroundCount := by
  refine ⟨by decide, ?_⟩
  intro before call after hsplit _
  have hall : ∀ call ∈ segmentsAroundCount, call.interrupts 0 = false := by decide
  exact hall call (hsplit ▸ List.mem_append_right _ List.mem_cons_self)

theorem segment_accounting_sample :
    shardReleases "proof" 0 (.initProof twoWorkers 4 1) segmentsAroundCount = 1 ∧
      expectedCount 0 2 3 = ((Finset.range 3).filter (· % 2 = 0)).card :=
  ⟨(segment_accounting.2.2 twoWorkers 4 1 "proof" 0 3 _ segmentsAroundCount (by decide) List.mem_cons_self rfl
      (by decide) segmentsAroundCount_delivers).1,
    (segment_accounting.1 2 0 3 ∅ (by decide) (by decide) (Finset.empty_subset _)).1⟩

end EdgeProver
