import EdgeProver.Scheduler.Completion

/-! No work is lost in the scheduler: whatever waits, waits for busy workers. -/
namespace EdgeProver
open Replace

/-- Every worker that could take a waiting item is busy. -/
def NoIdle (st : EdgeProofState) : Prop :=
  ∀ item ∈ st.pending.items, ∀ w ∈ st.workers,
    w.workerRole.takes item.step = true → 0 < w.activeProofCount

/-- What holds of the ledger between two scheduler calls. -/
structure Settled (L : Ledger) (n : Nat) : Prop where
  kept : Kept L n []
  noIdle : NoIdle L.st

private theorem rank_evm {item : EdgeWorkItem} (h : item.WellFormed) :
    PriorityWorkQueue.rank item = 1 + maxLayers ↔ item.step = .evmProve := by
  unfold PriorityWorkQueue.rank maxLayers
  rw [h]
  cases item.envelope.message with
  | leafProve req => simp [GeneralProveRequest.step]
  | internalProve req =>
    simp only [GeneralProveRequest.step, reduceCtorEq, iff_false]
    omega
  | evmProve req => simp [GeneralProveRequest.step]

theorem takes_of_stark {role : WorkerRole} {step : Step} (hdispatched : step.Dispatched) (hevm : step ≠ .evmProve)
    (h : role.runsStarkProving = true) : role.takes step = true := by
  obtain rfl | rfl | rfl := hdispatched
  · exact h
  · exact h
  · exact absurd rfl hevm

variable {L : Ledger} {n : Nat} {item waiting : EdgeWorkItem} {worker other : EdgeWorkerState}

namespace Kept

private theorem evm_held_not_waiting (h : Kept L n []) (hwaiting : waiting ∈ L.st.pending.items)
    {id : Nat} (hheld : (id, item) ∈ L.held) (hitem : item.step = .evmProve) : waiting.step ≠ .evmProve := by
  intro hevm
  have honce := h.evm_once
  rw [h.partition.countP_eq, List.nil_append, List.countP_append, List.countP_append] at honce
  have hfirst : 0 < L.st.pending.items.countP (·.step = .evmProve) :=
    List.countP_pos_iff.mpr ⟨waiting, hwaiting, by simpa using hevm⟩
  have hsecond : 0 < (L.held.map (·.2)).countP (·.step = .evmProve) :=
    List.countP_pos_iff.mpr ⟨item, List.mem_map.mpr ⟨_, hheld, rfl⟩, by simpa using hitem⟩
  omega

/-- A worker that could take a waiting item but not the first of the queue proves no shard, and the
item it could take is the EVM step. -/
private theorem takes_first (h : Kept L n []) {pending : PriorityWorkQueue}
    (hpop : L.st.pending.pop = some (item, pending)) (hwaiting : waiting ∈ L.st.pending.items)
    (htakes : worker.workerRole.takes waiting.step = true)
    (hevm : worker.workerRole.runsStarkProving = false → waiting.step ≠ .evmProve) :
    worker.workerRole.takes item.step = true := by
  have hitem : item ∈ L.st.pending.items := by
    rw [PriorityWorkQueue.items_pop hpop]
    exact List.mem_cons_self
  have hwell := h.wellFormed item (h.mem_enqueued hitem)
  have hwell' := h.wellFormed waiting (h.mem_enqueued hwaiting)
  by_cases hfirst : item.step = .evmProve
  · have hlast := h.filed.last_class hpop ((rank_evm hwell).mpr hfirst) hwaiting
    rw [hfirst, ← (rank_evm hwell').mp hlast]
    exact htakes
  · refine takes_of_stark hwell.dispatched hfirst ?_
    by_contra hstark
    have hstark : worker.workerRole.runsStarkProving = false := by simpa using hstark
    have hproves := stark_of_takes htakes (hevm hstark)
    exact Bool.false_ne_true (hstark.symm.trans hproves)

/-- One dequeue settles the ledger when at most one worker went idle. -/
theorem dequeue (h : Kept L n []) (proofUuid : String)
    (hbusy : ∀ y ∈ L.st.pending.items, ∀ w ∈ L.st.workers, w.workerRole.takes y.step = true →
      w ≠ other → 0 < w.activeProofCount)
    (hevm : other.workerRole.runsStarkProving = false → ∀ y ∈ L.st.pending.items, y.step ≠ .evmProve)
    (hother : other ∈ L.st.workers) :
    Settled (L.after (L.st.tryDequeueWork proofUuid).2 (L.st.tryDequeueWork proofUuid).1.toList) n := by
  obtain ⟨hpop, hcall⟩ | ⟨item, pending, hpop, hplaced⟩ := L.st.tryDequeueWork_cases proofUuid
  · rw [hcall]
    refine ⟨h, fun y hy => ?_⟩
    change y ∈ L.st.pending.items at hy
    rw [PriorityWorkQueue.items_of_pop_none hpop] at hy
    simp at hy
  · have hitems := PriorityWorkQueue.items_pop hpop
    have hpopped := h.pop hpop
    have hfirst {y : EdgeWorkItem} (hy : y ∈ L.st.pending.items)
        (htakes : other.workerRole.takes y.step = true) : other.workerRole.takes item.step = true :=
      h.takes_first hpop hy htakes fun hstark => hevm hstark y hy
    obtain ⟨work, worker, idx, hcall, hitem, hid, hpick⟩ | ⟨hpick, hcall⟩ := hplaced
    · rw [hcall]
      have hassigns := EdgeProofState.assigns_of_pickWorker hpick proofUuid
      refine ⟨hpopped.give hassigns hitem hid, fun y hy w hw htakes => ?_⟩
      have hy : y ∈ L.st.pending.items := hitems ▸ List.mem_cons_of_mem _ hy
      obtain rfl | ⟨hmem, hne⟩ := hassigns.replaces.other_of_mem_right (·.id) h.ids rfl hw
      · exact Nat.succ_pos _
      · by_cases heq : w = other
        · subst heq
          by_contra hzero
          have hzero : w.activeProofCount = 0 := by omega
          -- The idle worker would have been picked for the first item.
          refine hne (congrArg (·.id) (EdgeProofState.pickWorker_eq_idle hpick (fun v hv htakesv hvne => ?_)
            hother (hfirst hy htakes) hzero ((h.accounted w hother).idle hzero)).symm)
          exact hbusy item (hitems ▸ List.mem_cons_self) v hv htakesv hvne
        · exact hbusy y hy w hmem htakes heq
    · rw [hcall]
      refine ⟨hpopped.push, fun y hy w hw htakes => ?_⟩
      have hy : y ∈ L.st.pending.items := by
        rw [hitems]
        exact (PriorityWorkQueue.items_requeue pending item).mem_iff.mp hy
      by_cases heq : w = other
      · subst heq
        exact EdgeProofState.busy_of_pickWorker_none hpick hother (hfirst hy htakes) (h.accounted w hother).idle
      · exact hbusy y hy w hw htakes heq

/-- The drain loop stops only when every worker is busy or the queue is empty. -/
theorem drain (h : Kept L n []) (proofUuid : String) (hevm : ∀ y ∈ L.st.pending.items, y.step ≠ .evmProve) :
    Settled (L.after (L.st.drainPending proofUuid).2 (L.st.drainPending proofUuid).1) n := by
  unfold EdgeProofState.drainPending
  generalize hfuel : L.st.pending.items.length = fuel
  induction fuel generalizing L with
  | zero =>
    refine ⟨h, fun y hy => ?_⟩
    change y ∈ L.st.pending.items at hy
    rw [List.length_eq_zero_iff.mp hfuel] at hy
    simp at hy
  | succ fuel ih =>
    unfold EdgeProofState.drainLoop
    obtain ⟨hpop, hcall⟩ | ⟨item, pending, hpop, hplaced⟩ := L.st.tryDequeueWork_cases proofUuid
    · rw [PriorityWorkQueue.items_of_pop_none hpop] at hfuel
      simp at hfuel
    · have hitems := PriorityWorkQueue.items_pop hpop
      have hpopped := h.pop hpop
      obtain ⟨work, worker, idx, hcall, hitem, hid, hpick⟩ | ⟨hpick, hcall⟩ := hplaced
      · rw [hcall, Ledger.after_cons]
        have hassigns := EdgeProofState.assigns_of_pickWorker hpick proofUuid
        refine ih (hpopped.give hassigns hitem hid) (fun y hy => hevm y (hitems ▸ List.mem_cons_of_mem _ hy)) ?_
        rw [hitems] at hfuel
        exact Nat.succ.inj hfuel
      · rw [hcall]
        refine ⟨hpopped.push, fun y hy w hw htakes => ?_⟩
        have hy : y ∈ L.st.pending.items := by
          rw [hitems]
          exact (PriorityWorkQueue.items_requeue pending item).mem_iff.mp hy
        have hfirst := hitems ▸ (List.mem_cons_self : item ∈ item :: pending.items)
        have hdispatched := (h.wellFormed item (h.mem_enqueued hfirst)).dispatched
        refine EdgeProofState.busy_of_pickWorker_none hpick hw ?_ (h.accounted w hw).idle
        exact takes_of_stark hdispatched (hevm item hfirst) (stark_of_takes htakes (hevm y hy))

end Kept

namespace Settled

/-- A request that is queued finds every worker that could take it busy. -/
theorem enqueue (h : Settled L n) (proofUuid : String) (hitem : item.WellFormed)
    (hevm : item.step = .evmProve → L.st.numSegments ≠ none ∧ ∀ y ∈ L.enqueued, y.step ≠ .evmProve) :
    Settled (L.enqueue proofUuid item) n := by
  have hrequest := h.kept.request hitem hevm
  unfold Ledger.enqueue
  obtain ⟨work, worker, idx, hcall, hwork, hid, hpick⟩ | ⟨hpick, hcall⟩ := L.st.assignOrQueue_cases proofUuid item
  · rw [hcall]
    have hassigns := EdgeProofState.assigns_of_pickWorker hpick proofUuid
    refine ⟨hrequest.give hassigns hwork hid, fun y hy w hw htakes => ?_⟩
    obtain rfl | hmem := hassigns.replaces.of_mem_right hw
    · exact Nat.succ_pos _
    · exact h.noIdle y hy w hmem htakes
  · rw [hcall]
    refine ⟨hrequest.push, fun y hy w hw htakes => ?_⟩
    rcases List.mem_cons.mp ((PriorityWorkQueue.items_push _ _).mem_iff.mp hy) with rfl | hy
    · exact EdgeProofState.busy_of_pickWorker_none hpick hw htakes (h.kept.accounted w hw).idle
    · exact h.noIdle y hy w hw htakes

/-- Learning the segment count strands nothing: a freed slot starts the drain. -/
theorem setNumSegments (h : Settled L n) (proofUuid : String) (hunknown : L.st.numSegments = none) :
    Settled (L.setNumSegments proofUuid n) n := by
  have hreleased := h.kept.setNumSegments hunknown
  unfold Ledger.setNumSegments
  rw [EdgeProofState.setNumSegments_eq h.kept.numWorkers_pos]
  dsimp only
  split
  · exact hreleased.drain proofUuid fun y hy => h.kept.evm_late hunknown y (h.kept.mem_enqueued hy)
  · rename_i hnone
    refine ⟨hreleased, fun y hy w hw htakes => ?_⟩
    obtain ⟨old, hold, rfl⟩ := List.mem_map.mp hw
    have hsame : old.releaseShard L.st.numWorkers n = old := by
      refine if_neg fun hdone => hnone ?_
      exact List.any_eq_true.mpr ⟨old, hold, hdone⟩
    rw [hsame] at htakes ⊢
    exact h.noIdle y hy old hold htakes

private theorem complete_freed {st : EdgeProofState} {proofUuid : String} {workerId : Nat} {result : ProofResult}
    (hcall : L.st.applyCompletion proofUuid workerId result = .ok (true, st)) :
    L.complete proofUuid workerId result =
      ({ L with st := st } : Ledger).after (st.tryDequeueWork proofUuid).2 (st.tryDequeueWork proofUuid).1.toList := by
  unfold Ledger.complete EdgeProofState.completeWork
  rw [hcall]
  rfl

private theorem complete_kept {st : EdgeProofState} {proofUuid : String} {workerId : Nat} {result : ProofResult}
    (hcall : L.st.applyCompletion proofUuid workerId result = .ok (false, st)) :
    L.complete proofUuid workerId result = { L with st := st } := by
  unfold Ledger.complete EdgeProofState.completeWork
  rw [hcall]
  rfl

private theorem complete_item {result : ProofResult} (hresult : result.completedStep = some item.step)
    (w : EdgeWorkerState) (numWorkers : Nat) (numSegments : Option Nat) :
    w.complete numWorkers numSegments result = (true, w.finish item.step) := by
  cases result <;> simp_all [ProofResult.completedStep, EdgeWorkerState.complete]

/-- The report of an item frees one slot, and one item takes it. -/
theorem reportItem (h : Settled L n) (proofUuid : String) {workerId : Nat} {result : ProofResult}
    (hheld : (workerId, item) ∈ L.held) (hresult : result.completedStep = some item.step) :
    Settled ((L.reportItem workerId item).complete proofUuid workerId result) n := by
  obtain ⟨worker, hworker, hid⟩ := h.kept.heldWorker _ hheld
  obtain rfl : worker.id = workerId := hid
  obtain ⟨freed, st, hcall⟩ := EdgeProofState.applyCompletion_of_mem hworker proofUuid result
  obtain ⟨same, workers, hreplaces, hsame, rfl, rfl⟩ := EdgeProofState.applyCompletion_ok hcall
  obtain rfl : same = worker := eq_of_key (·.id) h.kept.ids hworker hreplaces.mem_left hsame
  simp only [complete_item hresult] at hreplaces hcall
  rw [complete_freed (L := L.reportItem same.id item) hcall]
  have hkept := h.kept.reportItem hheld hreplaces
  refine hkept.dequeue proofUuid (fun y hy w hw htakes hne => ?_)
    (fun hstark y hy => ?_) hreplaces.mem_right
  · obtain rfl | hmem := hreplaces.of_mem_right hw
    · exact absurd rfl hne
    · exact h.noIdle y hy w hmem htakes
  · have htakes := (h.kept.accounted same hworker).role item (mem_ofWorker.mpr hheld)
    refine h.kept.evm_held_not_waiting hy hheld ?_
    by_contra hevm
    exact Bool.false_ne_true (hstark.symm.trans (stark_of_takes htakes hevm))

/-- The last segment of a shard frees its slot, and one item takes it. -/
theorem reportApp (h : Settled L n) (proofUuid : String) {appProof : AppProof} (hworker : worker ∈ L.st.workers)
    (hstark : worker.workerRole.runsStarkProving = true)
    (hshard : appProof.state.segmentIdx ∈ shard worker.id L.st.numWorkers n)
    (hfresh : (worker.id, appProof.state.segmentIdx) ∉ L.reported) :
    Settled ((L.reportSegment worker.id appProof.state.segmentIdx).complete proofUuid worker.id (.app appProof)) n := by
  obtain ⟨freed, st, hcall⟩ := EdgeProofState.applyCompletion_of_mem hworker proofUuid (.app appProof)
  obtain ⟨same, workers, hreplaces, hsame, hfreed, rfl⟩ := EdgeProofState.applyCompletion_ok hcall
  obtain rfl : same = worker := eq_of_key (·.id) h.kept.ids hworker hreplaces.mem_left hsame
  have hkept := h.kept.reportApp hstark hshard hfresh hreplaces
  have hrole : (same.complete L.st.numWorkers L.st.numSegments (.app appProof)).2.workerRole = same.workerRole := by
    simp only [EdgeWorkerState.complete]
    split <;> rfl
  have hold {y : EdgeWorkItem} {w : EdgeWorkerState} (hy : y ∈ L.st.pending.items) (hw : w ∈ workers)
      (htakes : w.workerRole.takes y.step = true)
      (hne : w ≠ (same.complete L.st.numWorkers L.st.numSegments (.app appProof)).2) : 0 < w.activeProofCount :=
    h.noIdle y hy w ((hreplaces.of_mem_right hw).resolve_left hne) htakes
  cases hfreed' : freed with
  | true =>
    rw [complete_freed (L := L.reportSegment same.id appProof.state.segmentIdx) (hfreed' ▸ hcall)]
    refine hkept.dequeue proofUuid (fun y hy w hw htakes hne => hold hy hw htakes hne) (fun hno => ?_)
      hreplaces.mem_right
    rw [hrole] at hno
    exact absurd (hno.symm.trans hstark) Bool.false_ne_true
  | false =>
    rw [complete_kept (L := L.reportSegment same.id appProof.state.segmentIdx) (hfreed' ▸ hcall)]
    refine ⟨hkept, fun y hy w hw htakes => ?_⟩
    by_cases hne : w = (same.complete L.st.numWorkers L.st.numSegments (.app appProof)).2
    · -- The slot was not freed, so the count of this worker is the old one.
      subst hne
      have hcount : (same.complete L.st.numWorkers L.st.numSegments (.app appProof)).2.activeProofCount =
          same.activeProofCount := by
        rw [hfreed] at hfreed'
        simp only [EdgeWorkerState.complete] at hfreed' ⊢
        split at hfreed'
        · simp at hfreed'
        · rename_i hnot
          rw [if_neg hnot]
          rfl
      rw [hcount]
      exact h.noIdle y hy same hworker (hrole ▸ htakes)
    · exact hold hy hw htakes hne

/-- The ExecuteE2 report changes nothing. -/
theorem reportE2 (h : Settled L n) (proofUuid : String) (workerId : Nat) (result : ExecuteE2Result) :
    Settled (L.complete proofUuid workerId (.executeE2 result)) n := by
  cases hcall : L.st.applyCompletion proofUuid workerId (.executeE2 result) with
  | error e =>
    unfold Ledger.complete EdgeProofState.completeWork
    rw [hcall]
    exact h
  | ok called =>
    obtain ⟨freed, st⟩ := called
    obtain ⟨worker, workers, hreplaces, -, hfreed, rfl⟩ := EdgeProofState.applyCompletion_ok hcall
    obtain rfl : freed = false := hfreed
    rw [complete_kept hcall]
    obtain ⟨before, rest, hold, hnew⟩ := hreplaces
    have hsame : workers = L.st.workers := hnew.trans hold.symm
    rw [hsame]
    exact h

theorem start {fleet : List (Nat × RegisteredWorker)} (hids : (fleet.map Prod.fst).Nodup)
    (hstark : ∃ entry ∈ fleet, entry.2.workerRole.runsStarkProving = true) (leafPackThreshold maxLeafProvers : Nat) :
    Settled (.start fleet leafPackThreshold maxLeafProvers) n := by
  refine ⟨?_, fun y hy => ?_⟩
  · refine
      { ids := by simpa [Ledger.start, EdgeProofState.initProof, Function.comp_def] using hids
        numWorkers_pos := ?_
        wellFormed := by simp [Ledger.start]
        numSegments := Or.inl rfl
        filed := PriorityWorkQueue.filed_new
        partition := by simp [Ledger.start, EdgeProofState.initProof]
        heldWorker := by simp [Ledger.start]
        accounted := fun w hw => ?_
        reported := by simp [Ledger.start]
        evm_late := by simp [Ledger.start]
        evm_once := by simp [Ledger.start]
        internal_alone := by simp [Ledger.start]
        shard_first := by simp [Ledger.start]
        assigned := by simp [Ledger.start] }
    · obtain ⟨entry, hentry, hrole⟩ := hstark
      exact List.countP_pos_iff.mpr ⟨entry, hentry, hrole⟩
    · obtain ⟨entry, -, rfl⟩ := List.mem_map.mp hw
      refine ⟨by simp [Ledger.start], ?_, by simp [Ledger.start, Ledger.heldBy, ofWorker],
        by simp [Ledger.start, Ledger.heldBy, ofWorker], by simp [Ledger.start, Ledger.heldBy, ofWorker]⟩
      cases hrole : entry.2.workerRole.runsStarkProving with
      | true => exact Or.inl (by simp [EdgeWorkerState.Marked, Ledger.start, Ledger.heldBy, ofWorker, hrole])
      | false => exact Or.inr (by simp [EdgeWorkerState.Runs, Ledger.start, Ledger.heldBy, ofWorker, hrole])
  · simp [Ledger.start, EdgeProofState.initProof] at hy

theorem step {proofUuid : String} {L' : Ledger} (h : Settled L n) (hstep : LedgerStep proofUuid n L L') :
    Settled L' n := by
  cases hstep with
  | enqueue item hitem hevm => exact h.enqueue proofUuid hitem hevm
  | setNumSegments hunknown => exact h.setNumSegments proofUuid hunknown
  | reportApp worker appProof hworker hstark hshard hfresh => exact h.reportApp proofUuid hworker hstark hshard hfresh
  | reportE2 workerId result => exact h.reportE2 proofUuid workerId result
  | reportItem workerId item result hheld hresult => exact h.reportItem proofUuid hheld hresult

end Settled

variable {fleet : List (Nat × RegisteredWorker)} {leafPackThreshold maxLeafProvers : Nat} {proofUuid : String}

theorem settled_of_run (hids : (fleet.map Prod.fst).Nodup)
    (hstark : ∃ entry ∈ fleet, entry.2.workerRole.runsStarkProving = true)
    (hrun : LedgerRun fleet leafPackThreshold maxLeafProvers proofUuid n L) : Settled L n := by
  induction hrun with
  | start => exact Settled.start hids hstark leafPackThreshold maxLeafProvers
  | step _ hstep ih => exact ih.step hstep

private theorem config_of_step {L' : Ledger} (hstep : LedgerStep proofUuid n L L') : L'.st.config = L.st.config := by
  have hcomplete (L : Ledger) (workerId : Nat) (result : ProofResult) :
      (L.complete proofUuid workerId result).st.config = L.st.config := by
    unfold Ledger.complete
    split
    · rfl
    · rename_i work st hcall
      rw [Ledger.st_after]
      exact EdgeProofState.config_completeWork hcall
  cases hstep with
  | enqueue item => exact (congrArg _ (Ledger.st_after ..)).trans (L.st.config_assignOrQueue proofUuid item)
  | setNumSegments => exact (congrArg _ (Ledger.st_after ..)).trans (L.st.config_setNumSegments proofUuid n)
  | reportApp worker appProof => exact hcomplete (L.reportSegment worker.id appProof.state.segmentIdx) _ _
  | reportE2 workerId result => exact hcomplete L _ _
  | reportItem workerId item result => exact hcomplete (L.reportItem workerId item) _ _

theorem config_of_run (hrun : LedgerRun fleet leafPackThreshold maxLeafProvers proofUuid n L) :
    L.st.config = (EdgeProofState.initProof fleet leafPackThreshold maxLeafProvers).config := by
  induction hrun with
  | start => rfl
  | step _ hstep ih => exact (config_of_step hstep).trans ih

/-- Work conservation. Whenever something waits every STARK-proving worker is busy; every request is
waiting, held or completed, once; a worker holds no more than it may; an internal proof only ever goes
to a worker that holds nothing, and nothing goes to a worker whose shard still runs. -/
theorem conservation_of_run (hids : (fleet.map Prod.fst).Nodup)
    (hstark : ∃ entry ∈ fleet, entry.2.workerRole.runsStarkProving = true)
    (hrun : LedgerRun fleet leafPackThreshold maxLeafProvers proofUuid n L)
    (hkinds : ∀ item ∈ L.enqueued, item.step = .leafProve ∨ item.step = .internalProve) :
    (L.st.pending.isEmpty = false → ∀ w ∈ L.st.workers, w.workerRole.runsStarkProving = true → 1 ≤ w.activeProofCount) ∧
      L.enqueued.Perm (L.st.pending.items ++ (L.held.map (·.2) ++ L.completed)) ∧
      (∀ w ∈ L.st.workers, (L.heldBy w.id).length ≤ max 1 maxLeafProvers) ∧
      (∀ a ∈ L.assignments, a.item.step = .internalProve → a.before = []) ∧
      ∀ a ∈ L.assignments, L.ShardReported n a.worker := by
  have h := settled_of_run hids hstark hrun
  have hevm : ∀ item ∈ L.enqueued, item.step ≠ .evmProve := fun item hitem => by
    obtain hs | hs := hkinds item hitem <;> simp [hs]
  have hmax : L.st.maxLeafProvers = maxLeafProvers := congrArg (·.maxLeafProvers) (config_of_run hrun)
  refine ⟨fun hne w hw hrole => ?_, h.kept.partition, fun w hw => ?_, h.kept.internal_alone, fun a ha => ?_⟩
  · obtain ⟨item, hitem⟩ := List.exists_mem_of_ne_nil _ fun hnil =>
      Bool.false_ne_true (hne.symm.trans (PriorityWorkQueue.isEmpty_iff.mpr hnil))
    have henqueued := h.kept.mem_enqueued hitem
    exact h.noIdle item hitem w hw
      (takes_of_stark (h.kept.wellFormed item henqueued).dispatched (hevm item henqueued) hrole)
  · exact hmax ▸ (h.kept.accounted w hw).room
  · have hmem := h.kept.assigned.mem_iff.mp (List.mem_map_of_mem ha)
    have henqueued := h.kept.partition.mem_iff.mpr (List.mem_append_right _ (List.mem_append_right _ hmem))
    exact h.kept.shard_first a ha (hevm a.item henqueued)

private theorem ledgerRun_sample : LedgerRun sampleFleet 4 1 "proof" 1 sampleLedger := by
  have h1 : LedgerRun sampleFleet 4 1 "proof" 1 _ := .start
  have h2 := h1.step (.enqueue (sampleLeafItem 0) rfl (by simp [sampleLeafItem]))
  have h3 := h2.step (.enqueue (sampleLeafItem 1) rfl (by simp [sampleLeafItem]))
  have h4 := h3.step (.reportApp ⟨0, "http://worker-0", .full, 1, [⟨.shardedAppProve, none⟩], ∅⟩ (sampleSegment 0)
    (by decide) rfl (by decide) (by decide))
  exact h4.step (.setNumSegments (by decide))

theorem conservation_sample : LedgerRun sampleFleet 4 1 "proof" 1 sampleLedger ∧
    sampleLedger.st.pending.isEmpty = false ∧ sampleLedger.assignments.length = 1 ∧
    (∀ w ∈ sampleLedger.st.workers, w.workerRole.runsStarkProving = true → 1 ≤ w.activeProofCount) ∧
    ∀ a ∈ sampleLedger.assignments, sampleLedger.ShardReported 1 a.worker := by
  have hwaits : sampleLedger.st.pending.isEmpty = false := by decide
  have hids : (sampleFleet.map Prod.fst).Nodup := by decide
  have h := conservation_of_run hids ⟨_, List.mem_cons_self, rfl⟩ ledgerRun_sample (by decide)
  exact ⟨ledgerRun_sample, hwaits, by decide, h.1 hwaits, h.2.2.2.2⟩

end EdgeProver
