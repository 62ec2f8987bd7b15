import EdgeProver.Scheduler.Ledger

/-! What a result delivered twice does to the slots of the workers. -/
namespace EdgeProver
open Replace

inductive SchedulerCall where
  | enqueueOrAssign (envelope : MessageEnvelope GeneralProveRequest) (step : Step)
  | setNumSegments (numSegments : Nat)
  | workerCompleted (workerId : Nat) (result : ProofResult)
  | workerDrained (workerId : Nat) (result : ProofResult)
  | releaseWorker (workerId : Nat)

/-- The place in the proof a success result fills. -/
inductive ResultSlot where
  | executeE2
  | app (segmentIdx : Nat)
  | leaf (segmentStart segmentEnd : Nat)
  | internal (layerIdx segmentStart segmentEnd : Nat)
  | evm
  deriving DecidableEq, Repr

def ProofResult.slot : ProofResult → Option ResultSlot
  | .executeE2 _ => some .executeE2
  | .app appProof => some (.app appProof.state.segmentIdx)
  | .leaf leafProof => some (.leaf leafProof.state.segmentStart leafProof.state.segmentEnd)
  | .internal internalProof =>
    some (.internal internalProof.state.layerIdx internalProof.state.segmentStart internalProof.state.segmentEnd)
  | .evm _ => some .evm
  | .error _ => none

def EdgeProofState.workerDrained (st : EdgeProofState) (proofUuid : String) (workerId : Nat) (result : ProofResult) :
    EdgeProofState :=
  match st.applyCompletion proofUuid workerId result with
  | .ok (_, st) => st
  | .error _ => st

def EdgeProofState.workerCompleted (st : EdgeProofState) (proofUuid : String) (workerId : Nat)
    (result : ProofResult) : EdgeProofState :=
  match st.completeWork proofUuid workerId result with
  | .ok (_, st) => st
  | .error _ => st

namespace SchedulerCall

/-- The success result the call delivers, by the worker and the place it fills. -/
def delivers : SchedulerCall → Option (Nat × ResultSlot)
  | .workerCompleted workerId result | .workerDrained workerId result => result.slot.map (workerId, ·)
  | .enqueueOrAssign _ _ | .setNumSegments _ | .releaseWorker _ => none

/-- The call delivers again what one of the earlier calls delivered. -/
def Redelivers (history : List SchedulerCall) (call : SchedulerCall) : Prop :=
  (∃ numSegments, call = .setNumSegments numSegments ∧ call ∈ history) ∨
    ∃ key, call.delivers = some key ∧ ∃ earlier ∈ history, earlier.delivers = some key

/-- The accounting of a call, before waiting work is given the slots it freed. -/
def account (proofUuid : String) (st : EdgeProofState) : SchedulerCall → EdgeProofState
  | .enqueueOrAssign _ _ => st
  | .setNumSegments numSegments =>
    { st with
      numSegments := some numSegments
      workers := EdgeWorkerState.releaseShards st.numWorkers numSegments st.workers }
  | .workerCompleted workerId result | .workerDrained workerId result => st.workerDrained proofUuid workerId result
  | .releaseWorker workerId => st.releaseWorker workerId

def exec (proofUuid : String) (st : EdgeProofState) : SchedulerCall → EdgeProofState
  | .enqueueOrAssign envelope step => (st.assignOrQueue proofUuid envelope step).2
  | .setNumSegments numSegments => (st.setNumSegments proofUuid numSegments).2
  | .workerCompleted workerId result => st.workerCompleted proofUuid workerId result
  | .workerDrained workerId result => st.workerDrained proofUuid workerId result
  | .releaseWorker workerId => st.releaseWorker workerId

end SchedulerCall

/-- Every worker's count is the number of proofs it runs. -/
def Balanced (st : EdgeProofState) : Prop := ∀ w ∈ st.workers, w.activeProofCount = w.activeProofs.length

/-- The call frees no slot and leaves the accounting of every worker as it was. -/
structure Unmoved (proofUuid : String) (st : EdgeProofState) (call : SchedulerCall) : Prop where
  freesNothing : (call.account proofUuid st).workers = st.workers
  unchanged : (call.exec proofUuid st).workers = st.workers

namespace EdgeProofState

/-- The worker of this id that the accounting finds. -/
def workerWith (st : EdgeProofState) (workerId : Nat) : Option EdgeWorkerState :=
  st.workers.find? (·.id == workerId)

/-- The workers that the loop of `set_num_segments` gets to: all of them, if there is a number to divide by. -/
def reached (st : EdgeProofState) (numSegments : Nat) : List EdgeWorkerState :=
  st.workers.takeWhile (!·.dividesByZero st.numWorkers numSegments)

/-- Nothing waits, or nobody takes the first item that does. -/
def Stuck (st : EdgeProofState) : Prop :=
  ∀ item pending, st.pending.pop = some (item, pending) → st.pickWorker item.step = none

theorem reached_eq {st : EdgeProofState} (h : 0 < st.numWorkers) (numSegments : Nat) :
    st.reached numSegments = st.workers :=
  List.takeWhile_eq_self_iff.mpr fun w _ => by rw [EdgeWorkerState.not_dividesByZero h]; rfl

end EdgeProofState

def EdgeWorkerState.stepOver (worker : EdgeWorkerState) (numWorkers : Nat) (numSegments : Option Nat) :
    ProofResult → Option Step
  | .app appProof =>
    if workerCompletedAllSegments worker.id (insert appProof.state.segmentIdx worker.completedSegments)
        numWorkers numSegments then some .shardedAppProve
    else none
  | .leaf _ => some .leafProve
  | .internal _ => some .internalProve
  | .evm _ => some .evmProve
  | .executeE2 _ | .error _ => none

namespace SchedulerCall

def reports : SchedulerCall → Option (Nat × ProofResult)
  | .workerCompleted workerId result | .workerDrained workerId result => some (workerId, result)
  | .enqueueOrAssign _ _ | .setNumSegments _ | .releaseWorker _ => none

/-- Whoever the call takes for done with a step runs that step, or runs nothing. -/
structure TakesWhatRuns (st : EdgeProofState) (call : SchedulerCall) : Prop where
  report : ∀ workerId result, call.reports = some (workerId, result) → ∀ w, st.workerWith workerId = some w →
    ∀ step, w.stepOver st.numWorkers st.numSegments result = some step → w.runs step = true ∨ w.activeProofCount = 0
  count : ∀ numSegments, call = .setNumSegments numSegments →
    ∀ w ∈ st.reached numSegments, w.shardDone st.numWorkers numSegments = true → w.runs .shardedAppProve = true

/-- Whoever the call takes for done runs nothing, and nothing that waits can be placed. -/
structure TakesNothing (st : EdgeProofState) (call : SchedulerCall) : Prop where
  report : ∀ workerId result, call.reports = some (workerId, result) → ∀ w, st.workerWith workerId = some w →
    w.stepOver st.numWorkers st.numSegments result ≠ none →
      w.activeProofCount = 0 ∧ (call = .workerCompleted workerId result → st.Stuck)
  count : ∀ numSegments, call = .setNumSegments numSegments →
    ∀ w ∈ st.reached numSegments, w.shardDone st.numWorkers numSegments = false

structure Tolerated (history : List SchedulerCall) (st : EdgeProofState) (call : SchedulerCall) : Prop where
  runs : call.TakesWhatRuns st
  again : call.Redelivers history → call.TakesNothing st

end SchedulerCall

namespace EdgeWorkerState
variable {w : EdgeWorkerState} {step : Step}

/-- What the accounting of a worker keeps whatever it is given. -/
private def digest (w : EdgeWorkerState) : Nat × Finset Nat × Nat × Prop :=
  (w.id, w.completedSegments, w.activeProofs.countP (·.step == .shardedAppProve),
    w.activeProofCount = w.activeProofs.length)

private theorem digest_ignores : EdgeProofState.Ignores digest := by
  intro w item htakes
  have hstep : ¬ ((activeProofFromRequest item.envelope.message item.step).step == Step.shardedAppProve) = true := by
    intro hsharded
    have hsharded : item.step = .shardedAppProve := by simpa [activeProofFromRequest] using hsharded
    simp [hsharded, WorkerRole.takes] at htakes
  simp only [digest, assign, List.countP_append, List.countP_singleton, if_neg hstep, Nat.add_zero,
    List.length_append, List.length_singleton, Nat.add_right_cancel_iff]

private theorem finishShard_eq (h : w.activeProofs.countP (·.step == .shardedAppProve) ≤ 1) :
    w.finishShard = w.finish .shardedAppProve := by
  have herase : ∀ proofs : List ActiveProof, proofs.countP (·.step == .shardedAppProve) ≤ 1 →
      proofs.filter (·.step ≠ .shardedAppProve) = proofs.eraseP (·.step == .shardedAppProve) := by
    intro proofs
    induction proofs with
    | nil => exact fun _ => rfl
    | cons active rest ih =>
      intro hcount
      rw [List.countP_cons] at hcount
      by_cases hactive : active.step = .shardedAppProve
      · simp only [hactive, beq_self_eq_true, if_true] at hcount
        have hzero : rest.countP (·.step == .shardedAppProve) = 0 := by omega
        have hrest := List.countP_eq_zero.mp hzero
        simp only [hactive, List.eraseP_cons, beq_self_eq_true, cond_true]
        refine (List.filter_cons_of_neg (by simp [hactive])).trans (List.filter_eq_self.mpr fun other hother => ?_)
        simpa using hrest other hother
      · rw [List.eraseP_cons_of_neg (by simpa using hactive), List.filter_cons_of_pos (by simpa using hactive)]
        rw [ih (by omega)]
  simp only [finishShard, finish, herase _ h]

/-- Giving a slot back keeps the balance exactly when the worker runs the step, or nothing. -/
private theorem balanced_finish_iff (h : w.activeProofCount = w.activeProofs.length) (step : Step) :
    (w.finish step).activeProofCount = (w.finish step).activeProofs.length ↔
      w.runs step = true ∨ w.activeProofCount = 0 := by
  simp only [finish, runs, h]
  cases hruns : w.activeProofs.any (·.step == step) with
  | true =>
    have hlength := List.length_eraseP (p := (·.step == step)) (l := w.activeProofs)
    rw [hruns] at hlength
    simp [hlength]
  | false =>
    have hlength := List.length_eraseP (p := (·.step == step)) (l := w.activeProofs)
    rw [hruns] at hlength
    simp only [hlength, Bool.false_eq_true, if_false, false_or]
    omega

private theorem finish_eq_self_iff (h : w.activeProofCount = w.activeProofs.length) (step : Step) :
    w.finish step = w ↔ w.activeProofCount = 0 := by
  constructor
  · intro hsame
    have hcount := congrArg (·.activeProofCount) hsame
    simp only [finish] at hcount
    omega
  · intro hzero
    have hnil := List.length_eq_zero_iff.mp (h.symm.trans hzero)
    cases w
    simp_all only [finish, List.eraseP_nil, List.length_nil, Nat.zero_sub]

private def noted (w : EdgeWorkerState) : ProofResult → EdgeWorkerState
  | .app appProof => w.insertSegment appProof.state.segmentIdx
  | .executeE2 _ | .leaf _ | .internal _ | .evm _ | .error _ => w

variable {numWorkers : Nat} {numSegments : Option Nat} {result : ProofResult}

private theorem complete_of_stepOver (hmarker : w.activeProofs.countP (·.step == .shardedAppProve) ≤ 1)
    (h : w.stepOver numWorkers numSegments result = some step) :
    w.complete numWorkers numSegments result = (true, (w.noted result).finish step) := by
  cases result with
  | app appProof =>
    simp only [stepOver] at h
    split at h
    · rename_i hdone
      obtain rfl := Option.some.inj h
      have hcomplete : w.complete numWorkers numSegments (.app appProof) =
          (true, (w.insertSegment appProof.state.segmentIdx).finishShard) := if_pos hdone
      rw [hcomplete]
      refine Prod.ext rfl ?_
      exact finishShard_eq (show (w.insertSegment appProof.state.segmentIdx).activeProofs.countP
        (·.step == .shardedAppProve) ≤ 1 from hmarker)
    · simp at h
  | leaf leafProof | internal internalProof | evm evmProof =>
    obtain rfl := Option.some.inj h
    rfl
  | executeE2 e2 | error e => simp [stepOver] at h

private theorem complete_of_none (hsuccess : result.slot ≠ none)
    (h : w.stepOver numWorkers numSegments result = none) :
    w.complete numWorkers numSegments result = (false, w.noted result) := by
  cases result with
  | app appProof =>
    simp only [stepOver] at h
    split at h
    · simp at h
    · rename_i hopen
      exact if_neg hopen
  | executeE2 e2 => rfl
  | error e => exact absurd rfl hsuccess
  | leaf leafProof | internal internalProof | evm evmProof => simp [stepOver] at h

private theorem balanced_finishFirst (h : w.activeProofCount = w.activeProofs.length) :
    w.finishFirst.activeProofCount = w.finishFirst.activeProofs.length := by
  unfold finishFirst
  split
  · exact h
  · rename_i hsome
    cases hproofs : w.activeProofs with
    | nil => simp [hproofs] at hsome
    | cons active rest => simp [h, hproofs]

private theorem balanced_complete_iff (hmarker : w.activeProofs.countP (·.step == .shardedAppProve) ≤ 1)
    (h : w.activeProofCount = w.activeProofs.length) :
    (w.complete numWorkers numSegments result).2.activeProofCount =
        (w.complete numWorkers numSegments result).2.activeProofs.length ↔
      ∀ step, w.stepOver numWorkers numSegments result = some step → w.runs step = true ∨ w.activeProofCount = 0 := by
  have hnoted : (w.noted result).activeProofCount = (w.noted result).activeProofs.length ∧
      (w.noted result).activeProofCount = w.activeProofCount ∧
      (w.noted result).activeProofs = w.activeProofs := by
    cases result <;> exact ⟨h, rfl, rfl⟩
  cases hover : w.stepOver numWorkers numSegments result with
  | some step =>
    rw [complete_of_stepOver hmarker hover, balanced_finish_iff hnoted.1 step]
    simp only [runs, hnoted.2.1, hnoted.2.2, Option.some.injEq, forall_eq']
  | none =>
    simp only [reduceCtorEq, false_implies, implies_true, iff_true]
    by_cases hsuccess : result.slot = none
    · cases result with
      | error e => exact balanced_finishFirst h
      | _ => simp [ProofResult.slot] at hsuccess
    · rw [complete_of_none hsuccess hover]
      exact hnoted.1

private theorem marker_complete (numWorkers : Nat) (numSegments : Option Nat) (result : ProofResult)
    (hmarker : w.activeProofs.countP (·.step == .shardedAppProve) ≤ 1) :
    (w.complete numWorkers numSegments result).2.activeProofs.countP (·.step == .shardedAppProve) ≤ 1 :=
  (EdgeProofState.complete_sublist w numWorkers numSegments result).countP_le.trans hmarker

private theorem completedSegments_complete (w : EdgeWorkerState) (numWorkers : Nat) (numSegments : Option Nat)
    (result : ProofResult) : (w.complete numWorkers numSegments result).2.completedSegments =
    (w.noted result).completedSegments := by
  cases result with
  | app appProof =>
    simp only [complete]
    split <;> rfl
  | error e =>
    simp only [complete, finishFirst]
    split <;> rfl
  | _ => rfl

end EdgeWorkerState

section Calls
variable {st : EdgeProofState} {history : List SchedulerCall} {call : SchedulerCall}

private theorem applyCompletion_cases (st : EdgeProofState) (proofUuid : String) (workerId : Nat)
    (result : ProofResult) :
    (st.workerWith workerId = none ∧ ∃ e, st.applyCompletion proofUuid workerId result = .error e) ∨
      ∃ w before after, st.workerWith workerId = some w ∧ w.id = workerId ∧ st.workers = before ++ w :: after ∧
        (∀ v ∈ before, (v.id == workerId) = false) ∧ st.applyCompletion proofUuid workerId result =
          .ok ((w.complete st.numWorkers st.numSegments result).1,
            { st with workers := before ++ (w.complete st.numWorkers st.numSegments result).2 :: after }) := by
  unfold EdgeProofState.applyCompletion EdgeProofState.workerWith
  cases hfind : st.workers.zipIdx.find? (·.1.id == workerId) with
  | none =>
    refine Or.inl ⟨List.find?_eq_none.mpr fun w hw => ?_, _, rfl⟩
    simpa using find_zipIdx_none (fun v : EdgeWorkerState => v.id == workerId) hfind hw
  | some entry =>
    obtain ⟨w, idx⟩ := entry
    obtain ⟨before, after, hsplit, rfl, hid, hbefore⟩ :=
      find_zipIdx_split (fun v : EdgeWorkerState => v.id == workerId) hfind
    refine Or.inr ⟨w, before, after, ?_, by simpa using hid, hsplit, hbefore, ?_⟩
    · exact List.find?_eq_some_iff_append.mpr ⟨hid, before, after, hsplit, fun v hv => by simp [hbefore v hv]⟩
    · simp only [hsplit, List.set_append_right _ _ (Nat.le_refl _), Nat.sub_self, List.set_cons_zero]

private theorem digest_exec (proofUuid : String) (st : EdgeProofState) (call : SchedulerCall) :
    (call.exec proofUuid st).workers.map EdgeWorkerState.digest =
      (call.account proofUuid st).workers.map EdgeWorkerState.digest := by
  cases call with
  | enqueueOrAssign envelope step =>
    exact EdgeProofState.map_assignOrQueue EdgeWorkerState.digest_ignores st proofUuid ⟨envelope, step⟩
  | setNumSegments numSegments =>
    simp only [SchedulerCall.exec, SchedulerCall.account, EdgeProofState.setNumSegments]
    split
    · exact EdgeProofState.map_drainLoop EdgeWorkerState.digest_ignores proofUuid _ _
    · rfl
  | workerCompleted workerId result =>
    simp only [SchedulerCall.exec, SchedulerCall.account, EdgeProofState.workerCompleted,
      EdgeProofState.workerDrained, EdgeProofState.completeWork]
    cases hcall : st.applyCompletion proofUuid workerId result with
    | error e => rfl
    | ok called =>
      obtain ⟨freed, st'⟩ := called
      cases freed with
      | true => exact EdgeProofState.map_tryDequeueWork EdgeWorkerState.digest_ignores st' proofUuid
      | false => rfl
  | workerDrained workerId result => rfl
  | releaseWorker workerId => rfl

/-- What no sequence of calls breaks: a worker has one marker at most, and the segments a worker
reported are with the worker that is found under its id. -/
private structure Noted (history : List SchedulerCall) (st : EdgeProofState) : Prop where
  marker : ∀ w ∈ st.workers, w.activeProofs.countP (·.step == .shardedAppProve) ≤ 1
  segments : ∀ earlier ∈ history, ∀ workerId segment, earlier.delivers = some (workerId, .app segment) →
    ∀ w, st.workerWith workerId = some w → segment ∈ w.completedSegments

private theorem workerWith_map {κ : Type*} (st : EdgeProofState) (f : EdgeWorkerState → κ) (id : κ → Nat)
    (hid : ∀ w, id (f w) = w.id) (workerId : Nat) :
    (st.workers.map f).find? (id · == workerId) = (st.workerWith workerId).map f := by
  rw [List.find?_map]
  refine congrArg (Option.map f) (congrArg (List.find? · st.workers) ?_)
  funext w
  simp only [Function.comp_apply, hid]

private theorem segments_congr {st' : EdgeProofState} {κ : Type*} {f : EdgeWorkerState → κ} (id : κ → Nat)
    (segments : κ → Finset Nat) (hid : ∀ w, id (f w) = w.id) (hsegments : ∀ w, segments (f w) = w.completedSegments)
    (hsame : st'.workers.map f = st.workers.map f) {workerId segment : Nat}
    (h : ∀ w, st.workerWith workerId = some w → segment ∈ w.completedSegments) :
    ∀ w, st'.workerWith workerId = some w → segment ∈ w.completedSegments := by
  intro w hw
  have hfound := workerWith_map st' f id hid workerId
  rw [hsame, workerWith_map st f id hid, hw] at hfound
  obtain ⟨v, hv, hvw⟩ := Option.map_eq_some_iff.mp hfound
  rw [← hsegments w, ← hvw, hsegments v]
  exact h v hv

private theorem noted_congr {st' : EdgeProofState}
    (hdigest : st'.workers.map EdgeWorkerState.digest = st.workers.map EdgeWorkerState.digest)
    (h : Noted history st) : Noted history st' := by
  refine ⟨?_, fun earlier hearlier workerId segment hdelivers => ?_⟩
  · have hall := List.forall_mem_map (f := EdgeWorkerState.digest) (P := fun d => d.2.2.1 ≤ 1) |>.mpr h.marker
    rw [← hdigest] at hall
    exact List.forall_mem_map.mp hall
  · refine segments_congr (·.1) (·.2.1) (fun _ => rfl) (fun _ => rfl) hdigest ?_
    exact h.segments earlier hearlier workerId segment hdelivers

private theorem balanced_congr {st' : EdgeProofState}
    (hdigest : st'.workers.map EdgeWorkerState.digest = st.workers.map EdgeWorkerState.digest) :
    Balanced st' ↔ Balanced st := by
  have hall (xs : List EdgeWorkerState) : (∀ w ∈ xs, w.activeProofCount = w.activeProofs.length) ↔
      ∀ d ∈ xs.map EdgeWorkerState.digest, d.2.2.2 := by
    rw [List.forall_mem_map]
    rfl
  unfold Balanced
  rw [hall, hall, hdigest]

private theorem find_replaced {before after : List EdgeWorkerState} {w w' : EdgeWorkerState} (hid : w'.id = w.id)
    (hbefore : ∀ v ∈ before, (v.id == w.id) = false) (workerId : Nat) :
    (before ++ w' :: after).find? (·.id == workerId) =
      if w.id = workerId then some w' else (before ++ w :: after).find? (·.id == workerId) := by
  split
  · rename_i hw
    refine List.find?_eq_some_iff_append.mpr ⟨by simp [hid, hw], before, after, rfl, fun v hv => ?_⟩
    rw [← hw, hbefore v hv]
    rfl
  · rename_i hw
    simp only [List.find?_append, List.find?_cons, hid, beq_false_of_ne hw]

private theorem noted_replaced (h : Noted history st) {before after : List EdgeWorkerState}
    {w w' : EdgeWorkerState} (hsplit : st.workers = before ++ w :: after) (hid : w'.id = w.id)
    (hbefore : ∀ v ∈ before, (v.id == w.id) = false)
    (hmarker : w'.activeProofs.countP (·.step == .shardedAppProve) ≤ 1)
    (hsub : w.completedSegments ⊆ w'.completedSegments) :
    Noted history { st with workers := before ++ w' :: after } := by
  refine ⟨fun v hv => ?_, fun earlier hearlier workerId segment hdelivers v hv => ?_⟩
  · have hreplaces : Replaces st.workers (before ++ w' :: after) w w' := ⟨before, after, hsplit, rfl⟩
    obtain rfl | hold := hreplaces.of_mem_right hv
    · exact hmarker
    · exact h.marker v hold
  · have hold := h.segments earlier hearlier workerId segment hdelivers
    unfold EdgeProofState.workerWith at hv hold
    rw [find_replaced hid hbefore] at hv
    rw [hsplit] at hold
    split at hv
    · rename_i hw
      obtain rfl := Option.some.inj hv
      refine hsub (hold w ?_)
      rw [find_replaced rfl hbefore, if_pos hw]
    · exact hold v hv

private theorem noted_account (proofUuid : String) (h : Noted history st) (call : SchedulerCall) :
    Noted (call :: history) (call.account proofUuid st) := by
  -- A call that delivers nothing new only has to keep what the earlier ones left.
  have hsilent {st' : EdgeProofState} (hnone : call.delivers = none) (h : Noted history st') :
      Noted (call :: history) st' := by
    refine ⟨h.marker, List.forall_mem_cons.mpr ⟨fun workerId segment hdelivers => ?_, h.segments⟩⟩
    simp [hnone] at hdelivers
  have hreport (workerId : Nat) (result : ProofResult) (hdelivers : call.delivers = result.slot.map (workerId, ·))
      (hcall : call.account proofUuid st = st.workerDrained proofUuid workerId result) :
      Noted (call :: history) (call.account proofUuid st) := by
    rw [hcall, EdgeProofState.workerDrained]
    obtain ⟨hnone, e, herror⟩ | ⟨w, before, after, hw, hid, hsplit, hbefore, hok⟩ :=
      applyCompletion_cases st proofUuid workerId result
    · rw [herror]
      refine ⟨h.marker, List.forall_mem_cons.mpr ⟨fun other segment hother v hv => ?_, h.segments⟩⟩
      rw [hdelivers] at hother
      obtain ⟨slot, -, hsame⟩ := Option.map_eq_some_iff.mp hother
      obtain ⟨rfl, -⟩ := Prod.mk.inj hsame
      simp only [hnone] at hv
      simp at hv
    · rw [hok]
      subst hid
      have hstatic := (EdgeProofState.complete_static w st.numWorkers st.numSegments result).1
      have hsegments := w.completedSegments_complete st.numWorkers st.numSegments result
      have hmarker := EdgeWorkerState.marker_complete st.numWorkers st.numSegments result
        (h.marker w (by simp [hsplit]))
      have hkept := noted_replaced h hsplit hstatic hbefore hmarker (by
        rw [hsegments]
        cases result <;> simp [EdgeWorkerState.noted, EdgeWorkerState.insertSegment])
      refine ⟨hkept.marker, List.forall_mem_cons.mpr ⟨fun other segment hother v hv => ?_, hkept.segments⟩⟩
      rw [hdelivers] at hother
      obtain ⟨slot, hslot, hsame⟩ := Option.map_eq_some_iff.mp hother
      obtain ⟨rfl, rfl⟩ := Prod.mk.inj hsame
      unfold EdgeProofState.workerWith at hv
      rw [find_replaced hstatic hbefore, if_pos rfl] at hv
      obtain rfl := Option.some.inj hv
      rw [hsegments]
      cases result with
      | app appProof =>
        obtain rfl := ResultSlot.app.inj (Option.some.inj hslot)
        exact Finset.mem_insert_self _ _
      | _ => simp [ProofResult.slot] at hslot
  cases call with
  | enqueueOrAssign envelope step => exact hsilent rfl h
  | setNumSegments numSegments =>
    refine hsilent rfl ⟨fun w hw => ?_, fun earlier hearlier workerId segment hdelivers => ?_⟩
    · obtain ⟨old, hold, rfl | ⟨rfl, -⟩⟩ := EdgeWorkerState.mem_releaseShards hw
      · unfold EdgeWorkerState.releaseShard
        split
        · exact (List.filter_sublist.countP_le).trans (h.marker old hold)
        · exact h.marker old hold
      · exact h.marker w hold
    · have hkept (w : EdgeWorkerState) : ((w.releaseShard st.numWorkers numSegments).id,
          (w.releaseShard st.numWorkers numSegments).completedSegments) = (w.id, w.completedSegments) := by
        unfold EdgeWorkerState.releaseShard
        split <;> rfl
      have hsame := EdgeWorkerState.map_releaseShards (fun w => (w.id, w.completedSegments)) hkept st.workers
      refine segments_congr (·.1) (·.2) (fun _ => rfl) (fun _ => rfl) hsame ?_
      exact h.segments earlier hearlier workerId segment hdelivers
  | workerCompleted workerId result => exact hreport workerId result rfl rfl
  | workerDrained workerId result => exact hreport workerId result rfl rfl
  | releaseWorker workerId =>
    refine hsilent rfl ?_
    simp only [SchedulerCall.account, EdgeProofState.releaseWorker]
    split
    · rename_i w idx hfind
      obtain ⟨before, after, hsplit, rfl, hid, hbefore⟩ :=
        find_zipIdx_split (fun v : EdgeWorkerState => v.id == workerId) hfind
      obtain rfl : w.id = workerId := by simpa using hid
      simp only [hsplit, List.set_append_right _ _ (Nat.le_refl _), Nat.sub_self, List.set_cons_zero]
      exact noted_replaced h hsplit rfl hbefore (by simp [EdgeWorkerState.release]) (Finset.Subset.refl _)
    · exact h

private theorem balanced_replaced (h : Balanced st) {before after : List EdgeWorkerState} {w w' : EdgeWorkerState}
    (hsplit : st.workers = before ++ w :: after) : Balanced { st with workers := before ++ w' :: after } ↔
      w'.activeProofCount = w'.activeProofs.length := by
  have hreplaces : Replaces st.workers (before ++ w' :: after) w w' := ⟨before, after, hsplit, rfl⟩
  refine ⟨fun hall => hall w' hreplaces.mem_right, fun hself v hv => ?_⟩
  obtain rfl | hold := hreplaces.of_mem_right hv
  · exact hself
  · exact h v hold

private theorem balanced_workerDrained_iff (h : Noted history st) (hbalanced : Balanced st) (proofUuid : String)
    (workerId : Nat) (result : ProofResult) : Balanced (st.workerDrained proofUuid workerId result) ↔
      ∀ w, st.workerWith workerId = some w → ∀ step, w.stepOver st.numWorkers st.numSegments result = some step →
        w.runs step = true ∨ w.activeProofCount = 0 := by
  unfold EdgeProofState.workerDrained
  obtain ⟨hnone, e, herror⟩ | ⟨w, before, after, hw, hid, hsplit, hbefore, hok⟩ :=
    applyCompletion_cases st proofUuid workerId result
  · simp [herror, hnone, hbalanced]
  · have hmem : w ∈ st.workers := by simp [hsplit]
    simp only [hok, hw, Option.some.injEq, forall_eq']
    exact (balanced_replaced hbalanced hsplit).trans
      (EdgeWorkerState.balanced_complete_iff (h.marker w hmem) (hbalanced w hmem))

private theorem balanced_releaseShard_iff {w : EdgeWorkerState} {numWorkers numSegments : Nat}
    (hmarker : w.activeProofs.countP (·.step == .shardedAppProve) ≤ 1)
    (h : w.activeProofCount = w.activeProofs.length) :
    (w.releaseShard numWorkers numSegments).activeProofCount =
        (w.releaseShard numWorkers numSegments).activeProofs.length ↔
      (w.shardDone numWorkers numSegments = true → w.runs .shardedAppProve = true) := by
  unfold EdgeWorkerState.releaseShard
  split
  · rename_i hdone
    rw [EdgeWorkerState.finishShard_eq hmarker, EdgeWorkerState.balanced_finish_iff h]
    have hbusy : w.activeProofCount ≠ 0 := by
      simp only [EdgeWorkerState.shardDone, Bool.and_eq_true, decide_eq_true_eq] at hdone
      omega
    simp [hbusy, hdone]
  · rename_i hopen
    simp [h, hopen]

private theorem balanced_account_iff (h : Noted history st) (hbalanced : Balanced st) (proofUuid : String)
    (call : SchedulerCall) : Balanced (call.account proofUuid st) ↔ call.TakesWhatRuns st := by
  cases call with
  | enqueueOrAssign envelope step =>
    exact iff_of_true hbalanced ⟨by simp [SchedulerCall.reports], by simp⟩
  | setNumSegments numSegments =>
    have hall : Balanced ((SchedulerCall.setNumSegments numSegments).account proofUuid st) ↔
        ∀ w ∈ st.reached numSegments, w.shardDone st.numWorkers numSegments = true →
          w.runs .shardedAppProve = true := by
      unfold Balanced SchedulerCall.account EdgeWorkerState.releaseShards
      rw [List.forall_mem_append, List.forall_mem_map]
      refine (and_iff_left fun w hw => hbalanced w ((List.dropWhile_sublist _).subset hw)).trans
        (forall₂_congr fun w hw => ?_)
      have hmem := (List.takeWhile_sublist _).subset hw
      exact balanced_releaseShard_iff (h.marker w hmem) (hbalanced w hmem)
    rw [hall]
    constructor
    · intro hruns
      refine ⟨by simp [SchedulerCall.reports], fun other hother => ?_⟩
      obtain rfl := SchedulerCall.setNumSegments.inj hother
      exact hruns
    · exact fun htakes => htakes.count numSegments rfl
  | workerCompleted workerId result | workerDrained workerId result =>
    refine (balanced_workerDrained_iff h hbalanced proofUuid workerId result).trans ⟨fun hruns => ?_, fun htakes => ?_⟩
    · refine ⟨fun otherId other hother => ?_, by simp⟩
      obtain ⟨rfl, rfl⟩ := Prod.mk.inj (Option.some.inj hother)
      exact hruns
    · exact htakes.report workerId result rfl
  | releaseWorker workerId =>
    refine iff_of_true (fun w hw => ?_) ⟨by simp [SchedulerCall.reports], by simp⟩
    simp only [SchedulerCall.account, EdgeProofState.releaseWorker] at hw
    split at hw
    · rename_i v idx hfind
      have hget := (find_zipIdx_some (fun v : EdgeWorkerState => v.id == workerId) hfind).1
      obtain rfl | hold := (replaces_set hget v.release).of_mem_right hw
      · rfl
      · exact hbalanced w hold
    · exact hbalanced w hw

private theorem tryDequeueWork_workers_iff (st : EdgeProofState) (proofUuid : String) :
    (st.tryDequeueWork proofUuid).2.workers = st.workers ↔ st.Stuck := by
  obtain ⟨hpop, hcall⟩ | ⟨item, pending, hpop, ⟨work, w, idx, hcall, -, -, hpick⟩ | ⟨hpick, hcall⟩⟩ :=
    st.tryDequeueWork_cases proofUuid
  · refine iff_of_true (by rw [hcall]) fun item pending hsome => ?_
    simp [hpop] at hsome
  · refine iff_of_false (fun hsame => ?_) fun hstuck => ?_
    · have hget : st.workers[idx]? = some w := (EdgeProofState.pickWorker_some hpick).1
      obtain ⟨hlt, -⟩ := List.getElem?_eq_some_iff.mp hget
      rw [hcall] at hsame
      have hset := congrArg (·[idx]?) (show st.workers.set idx (w.assign item) = st.workers from hsame)
      simp only [List.getElem?_set_self hlt, hget, Option.some.injEq] at hset
      have hcount := congrArg (·.activeProofCount) hset
      simp [EdgeWorkerState.assign] at hcount
    · have hnone : st.pickWorker item.step = none := hstuck item pending hpop
      rw [show st.pickWorker item.step = some (w, idx) from hpick] at hnone
      simp at hnone
  · refine iff_of_true (by rw [hcall]) fun other rest hsome => ?_
    rw [hpop] at hsome
    obtain ⟨rfl, rfl⟩ := Prod.mk.inj (Option.some.inj hsome)
    exact hpick

private theorem noted_again (h : Noted history st) {workerId : Nat} {result : ProofResult} {slot : ResultSlot}
    (hslot : result.slot = some slot) (hagain : ∃ earlier ∈ history, earlier.delivers = some (workerId, slot))
    {w : EdgeWorkerState} (hw : st.workerWith workerId = some w) : w.noted result = w := by
  cases result with
  | app appProof =>
    obtain rfl := Option.some.inj hslot
    obtain ⟨earlier, hearlier, hdelivers⟩ := hagain
    have hmem := h.segments earlier hearlier workerId _ hdelivers w hw
    simp only [EdgeWorkerState.noted, EdgeWorkerState.insertSegment, Finset.insert_eq_of_mem hmem]
  | _ => rfl

private theorem same_replaced {before after : List EdgeWorkerState} {w w' : EdgeWorkerState}
    (hsplit : st.workers = before ++ w :: after) : before ++ w' :: after = st.workers ↔ w' = w := by
  rw [hsplit]
  simp only [List.append_cancel_left_eq, List.cons.injEq, and_true]

/-- A success result delivered again moves nothing exactly when nobody it takes for done runs
anything and, where a freed slot is offered to waiting work, none can be placed. -/
private theorem reported_again_iff (h : Noted history st) (hbalanced : Balanced st) (proofUuid : String)
    {workerId : Nat} {result : ProofResult} {slot : ResultSlot} (hslot : result.slot = some slot)
    (hagain : ∃ earlier ∈ history, earlier.delivers = some (workerId, slot)) :
    ((st.workerDrained proofUuid workerId result).workers = st.workers ↔
        ∀ w, st.workerWith workerId = some w → w.stepOver st.numWorkers st.numSegments result ≠ none →
          w.activeProofCount = 0) ∧
      ((st.workerDrained proofUuid workerId result).workers = st.workers →
        ((st.workerCompleted proofUuid workerId result).workers = st.workers ↔
          ∀ w, st.workerWith workerId = some w → w.stepOver st.numWorkers st.numSegments result ≠ none →
          st.Stuck)) := by
  have hsuccess : result.slot ≠ none := by simp [hslot]
  unfold EdgeProofState.workerDrained EdgeProofState.workerCompleted EdgeProofState.completeWork
  obtain ⟨hnone, e, herror⟩ | ⟨w, before, after, hw, hid, hsplit, hbefore, hok⟩ :=
    applyCompletion_cases st proofUuid workerId result
  · simp [herror, hnone]
  · have hmem : w ∈ st.workers := by simp [hsplit]
    have hnoted := noted_again h hslot hagain hw
    simp only [hok, hw, Option.some.injEq, forall_eq', same_replaced hsplit]
    cases hover : w.stepOver st.numWorkers st.numSegments result with
    | none =>
      rw [EdgeWorkerState.complete_of_none hsuccess hover, hnoted]
      simp [same_replaced hsplit]
    | some step =>
      rw [EdgeWorkerState.complete_of_stepOver (h.marker w hmem) hover, hnoted]
      simp only [ne_eq, reduceCtorEq, not_false_eq_true, forall_const]
      refine ⟨EdgeWorkerState.finish_eq_self_iff (hbalanced w hmem) step, fun hsame => ?_⟩
      rw [hsame, ← hsplit]
      exact tryDequeueWork_workers_iff st proofUuid

/-- The loop leaves the workers as they were exactly when it leaves those as they were that it gets to. -/
private theorem releaseShards_reached (st : EdgeProofState) (numSegments : Nat) :
    (st.reached numSegments).map (·.releaseShard st.numWorkers numSegments) = (st.reached numSegments).map id ↔
      EdgeWorkerState.releaseShards st.numWorkers numSegments st.workers = st.workers := by
  have hsplit := List.takeWhile_append_dropWhile (p := (!·.dividesByZero st.numWorkers numSegments)) (l := st.workers)
  conv_rhs => rhs; rw [← hsplit]
  rw [List.map_id, EdgeWorkerState.releaseShards, List.append_cancel_right_eq, EdgeProofState.reached]

private theorem not_drains_of_open {numSegments : Nat}
    (hopen : ∀ w ∈ st.reached numSegments, w.shardDone st.numWorkers numSegments = false) :
    ¬ (!st.workers.any (·.dividesByZero st.numWorkers numSegments) &&
      st.workers.any (·.shardDone st.numWorkers numSegments)) = true := by
  intro hdrains
  obtain ⟨hpanics, hdone⟩ := (Bool.and_eq_true _ _).mp hdrains
  have hall : ∀ w ∈ st.workers, (!w.dividesByZero st.numWorkers numSegments) = true := by simpa using hpanics
  rw [EdgeProofState.reached, List.takeWhile_eq_self_iff.mpr hall] at hopen
  obtain ⟨w, hw, hshard⟩ := List.any_eq_true.mp hdone
  exact Bool.false_ne_true ((hopen w hw).symm.trans hshard)

/-- A call that delivers something again moves nothing exactly when it takes nothing that runs for done. -/
private theorem unmoved_iff (h : Noted history st) (hbalanced : Balanced st) (proofUuid : String)
    (hagain : call.Redelivers history) : Unmoved proofUuid st call ↔ call.TakesNothing st := by
  obtain ⟨numSegments, rfl, -⟩ | ⟨key, hdelivers, hearlier⟩ := hagain
  · have haccount : EdgeWorkerState.releaseShards st.numWorkers numSegments st.workers = st.workers ↔
        ∀ w ∈ st.reached numSegments, w.shardDone st.numWorkers numSegments = false := by
      rw [← releaseShards_reached, List.map_inj_left]
      refine forall₂_congr fun w hw => ⟨fun hsame => ?_, fun hopen => ?_⟩
      · by_contra hdone
        have hdone : w.shardDone st.numWorkers numSegments = true := by simpa using hdone
        have hcount := congrArg (·.activeProofCount) hsame
        simp only [id_eq, EdgeWorkerState.releaseShard, hdone, if_true, EdgeWorkerState.finishShard] at hcount
        simp only [EdgeWorkerState.shardDone, Bool.and_eq_true, decide_eq_true_eq] at hdone
        omega
      · simp [EdgeWorkerState.releaseShard, hopen]
    constructor
    · intro hunmoved
      refine ⟨by simp [SchedulerCall.reports], fun other hother => ?_⟩
      obtain rfl := SchedulerCall.setNumSegments.inj hother
      exact haccount.mp hunmoved.freesNothing
    · intro htakes
      have hopen := htakes.count numSegments rfl
      refine ⟨haccount.mpr hopen, ?_⟩
      simp only [SchedulerCall.exec, EdgeProofState.setNumSegments]
      rw [if_neg (not_drains_of_open hopen)]
      exact haccount.mpr hopen
  · have hreport (workerId : Nat) (result : ProofResult) (hkey : result.slot.map (workerId, ·) = some key) :=
      Option.map_eq_some_iff.mp hkey
    cases call with
    | workerCompleted workerId result =>
      obtain ⟨slot, hslot, rfl⟩ := hreport workerId result hdelivers
      obtain ⟨hdrained, hcompleted⟩ := reported_again_iff h hbalanced proofUuid hslot hearlier
      constructor
      · intro hunmoved
        have hidle := hdrained.mp hunmoved.freesNothing
        have hstuck := (hcompleted hunmoved.freesNothing).mp hunmoved.unchanged
        refine ⟨fun otherId other hother w hw hover => ?_, by simp⟩
        obtain ⟨rfl, rfl⟩ := Prod.mk.inj (Option.some.inj hother)
        exact ⟨hidle w hw hover, fun _ => hstuck w hw hover⟩
      · intro htakes
        have hnothing := htakes.report workerId result rfl
        have hfrees := hdrained.mpr fun w hw hover => (hnothing w hw hover).1
        exact ⟨hfrees, (hcompleted hfrees).mpr fun w hw hover => (hnothing w hw hover).2 rfl⟩
    | workerDrained workerId result =>
      obtain ⟨slot, hslot, rfl⟩ := hreport workerId result hdelivers
      obtain ⟨hdrained, -⟩ := reported_again_iff h hbalanced proofUuid hslot hearlier
      constructor
      · intro hunmoved
        refine ⟨fun otherId other hother w hw hover => ?_, by simp⟩
        obtain ⟨rfl, rfl⟩ := Prod.mk.inj (Option.some.inj hother)
        exact ⟨hdrained.mp hunmoved.freesNothing w hw hover, by simp⟩
      · intro htakes
        have hfrees := hdrained.mpr fun w hw hover => (htakes.report workerId result rfl w hw hover).1
        exact ⟨hfrees, hfrees⟩
    | enqueueOrAssign envelope step => simp [SchedulerCall.delivers] at hdelivers
    | setNumSegments numSegments => simp [SchedulerCall.delivers] at hdelivers
    | releaseWorker workerId => simp [SchedulerCall.delivers] at hdelivers

end Calls

def afterCalls (proofUuid : String) (start : EdgeProofState) (calls : List SchedulerCall) : EdgeProofState :=
  calls.foldl (SchedulerCall.exec proofUuid) start

/-- The accounting is balanced in every state the calls reach, and a call that delivers something again
moves nothing. -/
structure ToleratesRedelivery (proofUuid : String) (start : EdgeProofState) (calls : List SchedulerCall) : Prop where
  balanced : ∀ before, before <+: calls → Balanced (afterCalls proofUuid start before)
  again : ∀ before call, before ++ [call] <+: calls → call.Redelivers before →
    Unmoved proofUuid (afterCalls proofUuid start before) call

section Runs
variable {fleet : List (Nat × RegisteredWorker)} {leafPackThreshold maxLeafProvers : Nat}

theorem afterCalls_append (proofUuid : String) (start : EdgeProofState) (before : List SchedulerCall)
    (call : SchedulerCall) :
    afterCalls proofUuid start (before ++ [call]) = call.exec proofUuid (afterCalls proofUuid start before) := by
  simp [afterCalls]

private theorem noted_afterCalls (proofUuid : String) (calls : List SchedulerCall) :
    Noted calls (afterCalls proofUuid (.initProof fleet leafPackThreshold maxLeafProvers) calls) := by
  induction calls using List.reverseRecOn with
  | nil =>
    refine ⟨fun w hw => ?_, by simp⟩
    obtain ⟨entry, -, rfl⟩ := List.mem_map.mp hw
    dsimp only
    split <;> simp
  | append_singleton before call ih =>
    rw [afterCalls_append]
    have hexec := noted_congr (digest_exec proofUuid _ call) (noted_account proofUuid ih call)
    exact ⟨hexec.marker, fun earlier hearlier => hexec.segments earlier (by simpa [or_comm] using hearlier)⟩

/-- The accounting tolerates redelivery exactly when no call of the run takes a step for done that the
worker does not run, and no redelivery finds a worker that runs something or makes room for work. -/
theorem tolerates_iff (proofUuid : String) (calls : List SchedulerCall) :
    ToleratesRedelivery proofUuid (.initProof fleet leafPackThreshold maxLeafProvers) calls ↔
      ∀ before call, before ++ [call] <+: calls → call.Tolerated before
        (afterCalls proofUuid (.initProof fleet leafPackThreshold maxLeafProvers) before) := by
  set start := EdgeProofState.initProof fleet leafPackThreshold maxLeafProvers with hstart
  have hnoted (before : List SchedulerCall) : Noted before (afterCalls proofUuid start before) :=
    noted_afterCalls proofUuid before
  have hnext (before : List SchedulerCall) (call : SchedulerCall)
      (hbalanced : Balanced (afterCalls proofUuid start before)) :
      Balanced (afterCalls proofUuid start (before ++ [call])) ↔
        call.TakesWhatRuns (afterCalls proofUuid start before) := by
    rw [afterCalls_append, balanced_congr (digest_exec proofUuid _ call)]
    exact balanced_account_iff (hnoted before) hbalanced proofUuid call
  constructor
  · intro htolerates before call hbegins
    have hbalanced := htolerates.balanced before ((List.prefix_append before [call]).trans hbegins)
    refine ⟨(hnext before call hbalanced).mp (htolerates.balanced _ hbegins), fun hagain => ?_⟩
    exact (unmoved_iff (hnoted before) hbalanced proofUuid hagain).mp (htolerates.again before call hbegins hagain)
  · intro htolerated
    have hbalanced (before : List SchedulerCall) (hbegins : before <+: calls) :
        Balanced (afterCalls proofUuid start before) := by
      induction before using List.reverseRecOn with
      | nil =>
        intro w hw
        obtain ⟨entry, -, rfl⟩ := List.mem_map.mp hw
        dsimp only
        split <;> rfl
      | append_singleton before call ih =>
        have hbefore := ih ((List.prefix_append before [call]).trans hbegins)
        exact (hnext before call hbefore).mpr (htolerated before call hbegins).runs
    refine ⟨hbalanced, fun before call hbegins hagain => ?_⟩
    have hbefore := hbalanced before ((List.prefix_append before [call]).trans hbegins)
    exact (unmoved_iff (hnoted before) hbefore proofUuid hagain).mpr ((htolerated before call hbegins).again hagain)

end Runs

/-- One worker proves the only segment and its leaf; the leaf's dispatch was retried, so its result comes
twice, the second time while the worker runs the internal proof. -/
def sampleRedelivery : List SchedulerCall :=
  let leaf : ProofResult := .leaf ⟨sampleWorkContext, some [], 0, 0⟩
  [.setNumSegments 1,
    .workerCompleted 0 (.app (sampleSegment 0)),
    .enqueueOrAssign (sampleLeafItem 0).envelope .leafProve,
    .workerCompleted 0 leaf,
    .enqueueOrAssign ⟨0, "", .internalProve ⟨sampleWorkContext, [[]], 0, 0, 0, true, none, none⟩⟩ .internalProve,
    .workerCompleted 0 leaf]

/-- The second report frees the slot of the internal proof. -/
theorem redelivery_frees_other :
    ¬ ToleratesRedelivery "proof" (.initProof sampleFleet 4 1) sampleRedelivery := by
  intro htolerates
  have hend := htolerates.balanced sampleRedelivery (List.prefix_refl _)
  have hbroken : ∃ w ∈ (afterCalls "proof" (.initProof sampleFleet 4 1) sampleRedelivery).workers,
      w.activeProofCount ≠ w.activeProofs.length := by decide
  obtain ⟨w, hw, hne⟩ := hbroken
  exact hne (hend w hw)

end EdgeProver
