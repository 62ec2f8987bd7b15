import EdgeProver.Manager.NoNewWork
import EdgeProver.Manager.StatusMachine

/-! How long a failing proof waits for its workers: runs with a clock that does not go back, and the moment
at which the proof entered `Failing`. -/
namespace EdgeProver

/-- The manager with what the drain depends on: the last clock reading, when the proof entered `Failing`, and
whether `try_finalize_failing_proof` has decided to free its slot. -/
structure Timed where
  manager : Manager
  clock : Time
  failedAt : Time
  freeing : Bool

/-- `try_finalize_failing_proof` decides that the proof need not wait any longer. -/
def Op.frees (m : Manager) : Op → Bool
  | .checkDrained ttlExpired => m.isFullyDrained || ttlExpired
  | _ => false

def Op.execTimed (proofUuid : String) (c : Choice) (t : Timed) (op : Op) : TaskPool.Outcome Timed Op Handed :=
  let out := op.exec proofUuid c t.manager
  { state := {
      manager := out.state
      clock := c.now
      failedAt := if out.state.isFailing && !t.manager.isFailing then c.now else t.failedAt
      freeing := t.freeing || op.frees t.manager }
    next := out.next
    spawned := out.spawned
    result := out.result }

abbrev TimedWorld := TaskPool.Pool Timed Op
abbrev TimedStep (proofUuid : String) := TaskPool.Step (Op.execTimed proofUuid)
abbrev TimedRun (proofUuid : String) := TaskPool.Run (Op.execTimed proofUuid)

/-- The workers are drained, or the TTL is over since the proof entered `Failing`. -/
def Timed.Ripe (t : Timed) : Prop := t.manager.isFullyDrained = true ∨ t.clock - t.failedAt > failingDrainTtl

/-- The step makes the proof `Failing` and is not a handled result: a timeout, a failed kickoff, a dispatch out
of retries. -/
def Op.failsSilently (ps : ProofState) : Op → Bool
  | .timeoutCheck now => ps.isTimedOut now
  | .markFailing _ => !ps.isSealedForResults
  | .dispatchFailed _ => ps.status.isInProgress
  | _ => false

def Clocked (T : TimedWorld) : WorldLabel → Prop
  | .arrive task => isRequest task
  | .run _ c => T.state.clock ≤ c.now

/-- Whatever fails the proof silently does so at most `silence` after its last handled result, and no look at the
failing proof comes in the `silence` after the TTL since that result; `start_proof` does not abort it once it is
failing, and nothing is handed out once the slot is being freed. -/
def BriefSilence (silence : Nat) (proofUuid : String) (T : TimedWorld) : WorldLabel → Prop
  | .arrive task => isRequest task
  | .run op c => T.state.clock ≤ c.now ∧
      (∀ ps, T.state.manager.proof = some ps → op.failsSilently ps = true → c.now ≤ ps.lastUpdated + silence) ∧
      (op = .checkFailing → ∀ ps, T.state.manager.proof = some ps → ps.status.isFailing = true →
        c.now - ps.lastUpdated ≤ failingDrainTtl ∨ failingDrainTtl + silence < c.now - ps.lastUpdated) ∧
      ((∃ message, op = .abort message) → T.state.manager.isFailing = false) ∧
      (T.state.freeing = true → (op.exec proofUuid c T.state.manager).result.works = [])

section
variable {proofUuid : String} {c : Choice} {m : Manager} {op : Op} {ps ps' : ProofState} {st st' : EdgeProofState}

namespace EdgeProofState

private theorem isFullyDrained_iff : st.isFullyDrained = true ↔ ∀ w ∈ st.workers, w.activeProofCount = 0 := by
  simp [isFullyDrained]

private theorem drained_replaces {workers : List EdgeWorkerState} {worker worker' : EdgeWorkerState}
    (h : st.isFullyDrained = true) (hreplaces : Replace.Replaces st.workers workers worker worker')
    (hcount : worker'.activeProofCount ≤ worker.activeProofCount) :
    ∀ w ∈ workers, w.activeProofCount = 0 := by
  intro w hw
  have hall := isFullyDrained_iff.mp h
  rcases hreplaces.of_mem_right hw with rfl | hmem
  · exact Nat.le_zero.mp (hcount.trans (hall worker hreplaces.mem_left).le)
  · exact hall w hmem

end EdgeProofState

private theorem EdgeWorkerState.complete_count (w : EdgeWorkerState) (numWorkers : Nat) (numSegments : Option Nat)
    (result : ProofResult) : (w.complete numWorkers numSegments result).2.activeProofCount ≤ w.activeProofCount := by
  cases result with
  | app appProof =>
    simp only [EdgeWorkerState.complete]
    split
    · exact Nat.sub_le _ _
    · exact Nat.le_refl _
  | executeE2 r => exact Nat.le_refl _
  | error r =>
    simp only [EdgeWorkerState.complete, EdgeWorkerState.finishFirst]
    split
    · exact Nat.le_refl _
    · exact Nat.sub_le _ _
  | leaf r | internal r | evm r => exact Nat.sub_le _ _

namespace EdgeProofState

private theorem drained_applyCompletion {workerId : Nat} {result : ProofResult} {freed : Bool}
    (h : st.isFullyDrained = true)
    (hcall : st.applyCompletion proofUuid workerId result = .ok (freed, st')) : st'.isFullyDrained = true := by
  obtain ⟨worker, workers, hreplaces, -, -, rfl⟩ := applyCompletion_ok hcall
  exact isFullyDrained_iff.mpr (drained_replaces h hreplaces (worker.complete_count _ _ result))

private theorem drained_tryDequeueWork (h : st.isFullyDrained = true) (hnone : (st.tryDequeueWork proofUuid).1 = none) :
    (st.tryDequeueWork proofUuid).2.isFullyDrained = true := by
  obtain ⟨-, hcall⟩ | ⟨item, pending, -, ⟨work, worker, idx, hcall, -⟩ | ⟨-, hcall⟩⟩ :=
    st.tryDequeueWork_cases proofUuid
  · rwa [hcall]
  · simp [hcall] at hnone
  · rwa [hcall]

private theorem drained_completeWork {workerId : Nat} {result : ProofResult} (h : st.isFullyDrained = true)
    (hcall : st.completeWork proofUuid workerId result = .ok (none, st')) : st'.isFullyDrained = true := by
  unfold completeWork at hcall
  split at hcall
  · simp at hcall
  · rename_i freed st₁ happly
    obtain ⟨hnone, rfl⟩ := Prod.mk.inj (Except.ok.inj hcall)
    exact drained_tryDequeueWork (drained_applyCompletion h happly) hnone
  · rename_i freed st₁ happly
    obtain ⟨-, rfl⟩ := Prod.mk.inj (Except.ok.inj hcall)
    exact drained_applyCompletion h happly

private theorem drained_setNumSegments (h : st.isFullyDrained = true) (n : Nat) :
    (st.setNumSegments proofUuid n).2.isFullyDrained = true := by
  have hall := isFullyDrained_iff.mp h
  have hnone : ∀ w ∈ st.workers, w.shardDone st.numWorkers n = false := by
    intro w hw
    simp [EdgeWorkerState.shardDone, hall w hw]
  unfold setNumSegments
  rw [if_neg]
  · refine isFullyDrained_iff.mpr fun w' hw' => ?_
    obtain ⟨w, hw, rfl | ⟨rfl, -⟩⟩ := EdgeWorkerState.mem_releaseShards hw'
    · simp only [EdgeWorkerState.releaseShard, hnone w hw]
      exact hall w hw
    · exact hall w' hw
  · rw [List.any_eq_false.mpr fun w hw => Bool.eq_false_iff.mp (hnone w hw), Bool.and_false]
    exact Bool.false_ne_true

private theorem drained_assignOrQueue {envelope : MessageEnvelope GeneralProveRequest} {step : Step}
    (h : st.isFullyDrained = true) (hnone : (st.assignOrQueue proofUuid envelope step).1 = none) :
    (st.assignOrQueue proofUuid envelope step).2.isFullyDrained = true := by
  obtain ⟨work, worker, idx, hcall, -⟩ | ⟨-, hcall⟩ := st.assignOrQueue_cases proofUuid ⟨envelope, step⟩
  · simp [hcall] at hnone
  · rwa [hcall]

private theorem drained_releaseWorker (h : st.isFullyDrained = true) (workerId : Nat) :
    (st.releaseWorker workerId).isFullyDrained = true := by
  unfold releaseWorker
  split
  · rename_i worker idx hfind
    obtain ⟨hget, -⟩ := find_zipIdx_some (fun w : EdgeWorkerState => w.id == workerId) hfind
    exact isFullyDrained_iff.mpr (drained_replaces h (Replace.replaces_set hget worker.release) (Nat.zero_le _))
  · exact h

end EdgeProofState

private theorem drained_exec (h : m.isFullyDrained = true) (hworks : (op.exec proofUuid c m).result.works = []) :
    (op.exec proofUuid c m).state.isFullyDrained = true := by
  cases hst : m.scheduler with
  | none =>
    have hnone : (op.exec proofUuid c m).state.scheduler = none := scheduler_of_none hst
    rw [Manager.isFullyDrained, hnone]
  | some st =>
    rw [Manager.isFullyDrained, hst] at h
    have hkeep : ∀ m' : Manager, m'.scheduler = m.scheduler → m'.isFullyDrained = true := by
      intro m' hm'
      rw [Manager.isFullyDrained, hm', hst]
      exact h
    cases op with
    | setNumSegments n =>
      simp only [Op.exec, handOut, Manager.setNumSegments, hst]
      exact EdgeProofState.drained_setNumSegments h n
    | workerCompleted workerId result =>
      simp only [Op.exec, Manager.workerCompleted, hst] at hworks ⊢
      cases hcall : st.completeWork proofUuid workerId result with
      | error e => simpa [hcall, goOn] using hkeep m rfl
      | ok called =>
        obtain ⟨work, st'⟩ := called
        simp only [hcall, handOut] at hworks ⊢
        obtain rfl : work = none := by simpa using hworks
        exact EdgeProofState.drained_completeWork h hcall
    | workerDrained workerId result =>
      simp only [Op.exec, goOn, Manager.workerDrained, hst]
      cases hcall : st.applyCompletion proofUuid workerId result with
      | error e => exact hkeep m rfl
      | ok called => exact EdgeProofState.drained_applyCompletion h hcall
    | enqueue request =>
      simp only [Op.exec, handOut, Manager.enqueueOrAssign, hst] at hworks ⊢
      exact EdgeProofState.drained_assignOrQueue h (by simpa using hworks)
    | releaseWorker workerId =>
      simp only [Op.exec, goOn, Manager.releaseWorker, hst, Option.map_some]
      exact EdgeProofState.drained_releaseWorker h workerId
    | removeProof => rfl
    | _ => exact hkeep _ (scheduler_exec (by simp [Op.touchesScheduler]))

private theorem isFailing_iff : m.isFailing = true ↔ ∃ ps, m.proof = some ps ∧ ps.status.isFailing = true := by
  unfold Manager.isFailing
  split
  · rename_i hnone
    simp [hnone]
  · rename_i ps hps
    simp [hps]

private theorem not_inProgress_of_failing (h : ps.status.isFailing = true) : ps.status ≠ .inProgress := by
  intro hst
  simp [hst, ProofStatus.isFailing] at h

private theorem lastUpdated_of_failing (hold : ps.status.isFailing = true) (hnew : ps'.status.isFailing = true)
    (h : op.writeProof proofUuid c ps = some ps') : ps'.lastUpdated = ps.lastUpdated := by
  obtain ⟨-, hkeep⟩ | ⟨-, reason, -, rfl⟩ | ⟨message, -, rfl⟩ := writeProof_over (not_inProgress_of_failing hold) h
  · exact hkeep
  · rfl
  · simp [ProofState.abort, ProofStatus.isFailing] at hnew

/-- Apart from an abort, only the end of the drain moves a proof from `Failing` to `Failed`. -/
theorem transition_of_failed {reason : String} (hold : ps.status.isFailing = true) (hnew : ps'.status = .failed reason)
    (habort : ∀ message, op ≠ .abort message) (h : op.writeProof proofUuid c ps = some ps') : op = .transition := by
  obtain ⟨hkeep, -⟩ | ⟨htransition, -⟩ | ⟨message, hop, -⟩ := writeProof_over (not_inProgress_of_failing hold) h
  · simp [← hkeep, hnew, ProofStatus.isFailing] at hold
  · exact htransition
  · exact absurd hop (habort message)

/-- A proof that starts to fail is dated by the handled result, or fails silently and is not dated. -/
theorem lastUpdated_of_starts_failing (hold : ps.status.isFailing = false) (hnew : ps'.status.isFailing = true)
    (h : op.writeProof proofUuid c ps = some ps') :
    ps'.lastUpdated = c.now ∨ op.failsSilently ps = true ∧ ps'.lastUpdated = ps.lastUpdated := by
  have hin : ps.status = .inProgress := by
    by_contra hover
    rcases writeProof_status_of_over hover h with hkeep | ⟨reason, hfailed, -⟩
    · rw [hkeep, hold] at hnew
      simp at hnew
    · simp [hfailed, ProofStatus.isFailing] at hnew
  cases op with
  | process workerId envelope =>
    simp only [Op.writeProof] at h
    split at h
    · obtain rfl := Option.some.inj h
      simp [hold] at hnew
    · obtain rfl := Option.some.inj h
      rw [ProofState.handleEnvelope_eq] at hnew ⊢
      split
      · rename_i hsealed
        simp [hsealed, hold] at hnew
      · exact .inl (ProofState.frame_handleProofResult _ envelope.message).lastUpdated
  | evict =>
    simp only [Op.writeProof] at h
    split at h
    · simp at h
    · obtain rfl := Option.some.inj h
      simp [hold] at hnew
  | transition =>
    obtain rfl := Option.some.inj h
    simp [ProofState.transitionFailingToFailed, hin, ProofStatus.isFailing] at hnew
  | persist =>
    obtain rfl := Option.some.inj h
    by_cases hs : ps.Sealed
    · rcases finalize_status hs c.now c.persisted with hst | ⟨e, hst⟩ <;> simp [hst, ProofStatus.isFailing] at hnew
    · have hkeep : (ps.finalize c.now c.persisted).status = ps.status := by
        refine (compactCompletedState_status _).trans ?_
        rw [if_neg (by simpa [ProofState.Sealed] using hs)]
      simp [hkeep, hold] at hnew
  | dispatchFailed reason =>
    obtain rfl := Option.some.inj h
    refine .inr ⟨by simp [Op.failsSilently, hin], ?_⟩
    unfold ProofState.dispatchFailed
    split <;> rfl
  | cancel =>
    obtain rfl := Option.some.inj h
    simp only [ProofState.cancel] at hnew
    split at hnew
    · simp [ProofStatus.isFailing] at hnew
    · simp [hold] at hnew
  | timeoutCheck now =>
    simp only [Op.writeProof] at h
    obtain rfl := Option.some.inj h
    split at hnew
    · rename_i htimeout
      refine .inr ⟨htimeout, ?_⟩
      rw [if_pos htimeout, ProofState.markTimedOut]
      split <;> rfl
    · simp [hold] at hnew
  | markFailing message =>
    obtain rfl := Option.some.inj h
    by_cases hsealed : ps.isSealedForResults = true
    · rw [ProofState.markFailing_sealed hsealed, hold] at hnew
      simp at hnew
    · refine .inr ⟨by simp [Op.failsSilently, hsealed], ?_⟩
      rw [ProofState.markFailing, if_neg hsealed]
      rfl
  | abort message =>
    obtain rfl := Option.some.inj h
    simp [ProofState.abort, ProofStatus.isFailing] at hnew
  | _ =>
    obtain rfl := Option.some.inj h
    simp [hold] at hnew

end

/-- The TTL runs from the failure: a failing proof is dated at most `silence` earlier, and whoever decides to free its
slot has waited for its workers or for the TTL. -/
structure Patient (silence : Nat) (T : TimedWorld) : Prop where
  dated : ∀ ps, T.state.manager.proof = some ps → ps.status.isFailing = true →
    T.state.failedAt ≤ ps.lastUpdated + silence
  checked : ∀ ttlExpired, .checkDrained ttlExpired ∈ T.ops → Left T.state.manager.proof ∧
    (ttlExpired = true → T.state.clock - T.state.failedAt > failingDrainTtl)
  freed : T.state.freeing = true → Left T.state.manager.proof ∧ T.state.Ripe
  decided : .transition ∈ T.ops → T.state.freeing = true

section
variable {silence : Nat} {proofUuid : String} {c : Choice} {T T' : TimedWorld} {op : Op}

private theorem left_of_failing {m : Manager} (h : m.isFailing = true) : Left m.proof := by
  obtain ⟨ps, hps, hfailing⟩ := isFailing_iff.mp h
  rintro qs hqs
  obtain rfl := Option.some.inj (hps.symm.trans hqs)
  exact not_inProgress_of_failing hfailing

/-- Once the status has left `InProgress`, the time of the failure is settled. -/
theorem failedAt_of_left (hleft : Left T.state.manager.proof) :
    (op.execTimed proofUuid c T.state).state.failedAt = T.state.failedAt := by
  simp only [Op.execTimed]
  refine if_neg fun hstart => ?_
  obtain ⟨hnew, hold⟩ := (Bool.and_eq_true _ _).mp hstart
  obtain ⟨ps', hps', hfailing⟩ := isFailing_iff.mp hnew
  rw [exec_proof] at hps'
  obtain ⟨ps, hps, hwrite⟩ := Option.bind_eq_some_iff.mp hps'
  rcases writeProof_status_of_over (hleft ps hps) hwrite with hkeep | ⟨reason, hfailed, -⟩
  · have : T.state.manager.isFailing = true := isFailing_iff.mpr ⟨ps, hps, hkeep ▸ hfailing⟩
    simp [this] at hold
  · simp [hfailed, ProofStatus.isFailing] at hfailing

private theorem ripe_step (hleft : Left T.state.manager.proof) (hripe : T.state.Ripe) (hclock : T.state.clock ≤ c.now)
    (hworks : (op.exec proofUuid c T.state.manager).result.works = []) :
    (op.execTimed proofUuid c T.state).state.Ripe := by
  rcases hripe with hdrained | hover
  · exact .inl (drained_exec hdrained hworks)
  · refine .inr ?_
    rw [failedAt_of_left hleft]
    exact lt_of_lt_of_le hover (Int.sub_le_sub_right hclock _)

private theorem checkFailing_of_next {ttlExpired : Bool} {m : Manager}
    (h : .checkDrained ttlExpired ∈ (op.exec proofUuid c m).next ++ (op.exec proofUuid c m).spawned.flatten) :
    op = .checkFailing ∧ ∃ ps, m.proof = some ps ∧ ps.status.isFailing = true ∧ ttlExpired = ps.ttlExpired c.now := by
  have hkind := leadsTo_exec op _ h
  cases op with
  | checkFailing =>
    simp only [Op.exec] at h
    split at h
    · simp [goOn] at h
    · rename_i ps hps
      split at h
      · rename_i hfailing
        refine ⟨rfl, ps, hps, hfailing, by simpa [goOn] using h⟩
      · simp [goOn] at h
  | _ => simp [Op.kind, OpKind.next] at hkind

private theorem checkDrained_of_next {m : Manager}
    (h : .transition ∈ (op.exec proofUuid c m).next ++ (op.exec proofUuid c m).spawned.flatten) :
    op.frees m = true := by
  have hkind := leadsTo_exec op _ h
  cases op with
  | checkDrained ttlExpired =>
    simp only [Op.exec] at h
    split at h
    · simp [goOn] at h
    · rename_i hgo
      simp only [Op.frees]
      cases hd : m.isFullyDrained <;> cases ttlExpired <;> simp [hd] at hgo ⊢
  | _ => simp [Op.kind, OpKind.next] at hkind

theorem Patient.arrive (h : Patient silence T) {task : List Op} (htask : isRequest task = true) :
    Patient silence { T with tasks := task :: T.tasks } := by
  have hnot : ∀ op ∈ task, op.kind ≠ .checkDrained ∧ op.kind ≠ .transition := by
    unfold isRequest at htask
    split at htask <;> simp_all [Op.kind]
  refine ⟨h.dated, fun ttlExpired hop => ?_, h.freed, fun hop => ?_⟩
  · rcases List.mem_append.mp (TaskPool.ops_arrive task ▸ hop) with hop | hop
    · exact absurd rfl (hnot _ hop).1
    · exact h.checked ttlExpired hop
  · rcases List.mem_append.mp (TaskPool.ops_arrive task ▸ hop) with hop | hop
    · exact absurd rfl (hnot _ hop).2
    · exact h.decided hop

theorem Patient.run (h : Patient silence T) (hallowed : BriefSilence silence proofUuid T (.run op c))
    (hstep : TimedStep proofUuid T (.run op c) T') : Patient silence T' := by
  obtain ⟨hclock, hsilent, hlook, -, hworks⟩ := hallowed
  obtain ⟨hstate, others, hold, hnew⟩ := TaskPool.ops_run hstep
  have hmem : op ∈ T.ops := TaskPool.op_mem hstep
  have hproof : T'.state.manager.proof = T.state.manager.proof.bind (op.writeProof proofUuid c) := by
    rw [hstate]
    exact exec_proof
  have hother : ∀ op' ∈ T'.ops, op' ∈ (op.exec proofUuid c T.state.manager).next ++
      (op.exec proofUuid c T.state.manager).spawned.flatten ∨ op' ∈ T.ops := by
    intro op' hop'
    refine (List.mem_append.mp (hnew.mem_iff.mp hop')).imp_right fun hothers => ?_
    exact hold.mem_iff.mpr (List.mem_cons_of_mem _ hothers)
  have hleft : Left T.state.manager.proof → Left T'.state.manager.proof := fun hl => hproof ▸ left_write hl
  have hdated : ∀ ps, T'.state.manager.proof = some ps → ps.status.isFailing = true →
      T'.state.failedAt ≤ ps.lastUpdated + silence := by
    intro ps' hps' hfailing
    obtain ⟨ps, hps, hwrite⟩ := Option.bind_eq_some_iff.mp (hproof ▸ hps')
    by_cases hwas : ps.status.isFailing = true
    · have hm : T.state.manager.isFailing = true := isFailing_iff.mpr ⟨ps, hps, hwas⟩
      rw [hstate, failedAt_of_left (left_of_failing hm), lastUpdated_of_failing hwas hfailing hwrite]
      exact h.dated ps hps hwas
    · -- the proof starts to fail in this step
      rw [Bool.not_eq_true] at hwas
      have hat : T'.state.failedAt = c.now := by
        have hm : T.state.manager.isFailing = false := by
          rw [Manager.isFailing, hps]
          exact hwas
        have hm' : (op.exec proofUuid c T.state.manager).state.isFailing = true := by
          rw [hstate] at hps'
          exact isFailing_iff.mpr ⟨ps', hps', hfailing⟩
        rw [hstate]
        simp only [Op.execTimed, hm, hm', Bool.not_false, Bool.and_self, if_true]
      rcases lastUpdated_of_starts_failing hwas hfailing hwrite with hnow | ⟨hs, hsame⟩
      · rw [hat, ← hnow]
        exact Int.le_add_of_nonneg_right (Int.natCast_nonneg silence)
      · rw [hat, hsame]
        exact hsilent ps hps hs
  have hover : ∀ hl : Left T.state.manager.proof, T.state.clock - T.state.failedAt > failingDrainTtl →
      T'.state.clock - T'.state.failedAt > failingDrainTtl := by
    intro hl hlate
    rw [hstate, failedAt_of_left hl]
    exact lt_of_lt_of_le hlate (Int.sub_le_sub_right hclock _)
  refine ⟨hdated, fun ttlExpired hop => ?_, fun hfreeing => ?_, fun hop => ?_⟩
  · rcases hother _ hop with hnext | hthere
    · obtain ⟨hcheck, ps, hps, hfailing, rfl⟩ := checkFailing_of_next hnext
      have hl := left_of_failing (isFailing_iff.mpr ⟨ps, hps, hfailing⟩)
      refine ⟨hleft hl, fun hexpired => ?_⟩
      have hexpired : c.now - ps.lastUpdated > failingDrainTtl := by
        simpa [ProofState.ttlExpired, hfailing] using hexpired
      -- the look comes late enough even where the failure is dated too early
      have hlate := (hlook hcheck ps hps hfailing).resolve_left (not_le.mpr hexpired)
      rw [hstate, failedAt_of_left hl]
      calc failingDrainTtl < c.now - ps.lastUpdated - silence := Int.lt_sub_right_of_add_lt hlate
        _ = c.now - (ps.lastUpdated + silence) := Int.sub_sub _ _ _
        _ ≤ c.now - T.state.failedAt := Int.sub_le_sub_left (h.dated ps hps hfailing) _
    · obtain ⟨hl, hlate⟩ := h.checked ttlExpired hthere
      exact ⟨hleft hl, fun hexpired => hover hl (hlate hexpired)⟩
  · by_cases hwas : T.state.freeing = true
    · obtain ⟨hl, hripe⟩ := h.freed hwas
      exact ⟨hleft hl, hstate ▸ ripe_step hl hripe hclock (hworks hwas)⟩
    · have hfrees : op.frees T.state.manager = true := by
        rw [hstate] at hfreeing
        simpa [Op.execTimed, hwas] using hfreeing
      cases op with
      | checkDrained ttlExpired =>
        obtain ⟨hl, hlate⟩ := h.checked ttlExpired hmem
        refine ⟨hleft hl, ?_⟩
        rcases (Bool.or_eq_true _ _).mp hfrees with hdrained | hexpired
        · refine .inl ?_
          rw [hstate]
          exact drained_exec hdrained (congrArg Handed.works (handed_of_not_handsOut rfl))
        · exact .inr (hover hl (hlate hexpired))
      | _ => simp [Op.frees] at hfrees
  · rw [hstate]
    simp only [Op.execTimed, Bool.or_eq_true]
    exact (hother _ hop).symm.imp h.decided checkDrained_of_next

end

private theorem patient_of_run {silence : Nat} {proofUuid : String} {T₀ T : TimedWorld} (h : Patient silence T₀)
    (hrun : TimedRun proofUuid (BriefSilence silence proofUuid) T₀ T) : Patient silence T := by
  refine TaskPool.Run.invariant (I := Patient silence) ?_ h hrun
  intro U l V hU hallowed hstep
  cases l with
  | arrive task =>
    cases hstep
    exact hU.arrive hallowed
  | run op c => exact hU.run hallowed hstep

def TimedWorld.admitted (clock : Time) (W : World) : TimedWorld := ⟨⟨W.state, clock, clock, false⟩, W.tasks⟩

/-- Along every run in which the proof fails at most `silence` after its last result, and is not looked at in the
`silence` after the TTL since then, `try_finalize_failing_proof` frees the slot of a proof, and any step moves it from
`Failing` to `Failed`, only with its workers drained or the TTL over since it entered `Failing`. -/
theorem ttl_from_failure {p : TreeParams} {fleet : List (Nat × RegisteredWorker)}
    {leafPackThreshold maxLeafProvers silence : Nat} {staged : Option StagedInputs} {inputAlreadyUploaded : Bool}
    {clock : Time} {T : TimedWorld}
    (hrun : TimedRun p.context.proofUuid (BriefSilence silence p.context.proofUuid) (TimedWorld.admitted clock
      (World.admitted p fleet leafPackThreshold maxLeafProvers staged inputAlreadyUploaded)) T) :
    (T.state.freeing = true → T.state.Ripe) ∧
      ∀ l T', BriefSilence silence p.context.proofUuid T l → TimedStep p.context.proofUuid T l T' →
        T.state.manager.isFailing = true →
        (∃ ps reason, T'.state.manager.proof = some ps ∧ ps.status = .failed reason) →
        T.state.Ripe := by
  have hpatient : Patient silence T := by
    refine patient_of_run ⟨?_, ?_, ?_, ?_⟩ hrun
    · rintro ps hps hfailing
      obtain rfl := Option.some.inj hps
      simp [TreeParams.initial, ProofState.new, ProofStatus.isFailing] at hfailing
    · simp [TimedWorld.admitted, World.admitted, startTask, TaskPool.Pool.ops]
    · simp [TimedWorld.admitted]
    · simp [TimedWorld.admitted, World.admitted, startTask, TaskPool.Pool.ops]
  refine ⟨fun hfreeing => (hpatient.freed hfreeing).2, ?_⟩
  rintro l T' hallowed hstep hfailing ⟨ps', reason, hps', hfailed⟩
  cases l with
  | arrive task =>
    cases hstep
    obtain ⟨ps, hps, hst⟩ := isFailing_iff.mp hfailing
    obtain rfl := Option.some.inj (hps.symm.trans hps')
    simp [hfailed, ProofStatus.isFailing] at hst
  | run op c =>
    obtain ⟨ps, hps, hst⟩ := isFailing_iff.mp hfailing
    have hwrite : op.writeProof p.context.proofUuid c ps = some ps' := by
      have hproof := hps'
      rw [(TaskPool.ops_run hstep).1] at hproof
      rw [show (op.execTimed p.context.proofUuid c T.state).state.manager.proof = _ from exec_proof, hps] at hproof
      exact hproof
    suffices op = .transition from (hpatient.freed (hpatient.decided (this ▸ TaskPool.op_mem hstep))).2
    exact transition_of_failed hst hfailed (fun message hop => by simp [hallowed.2.2.2.1 ⟨message, hop⟩] at hfailing)
      hwrite

def sampleTimed : TimedWorld := .admitted 0 sampleAdmitted

def sampleTimeout : Time := 3601 * 1000000000

/-- The kickoff is sent, the worker stays silent, and the watchdog fails the proof and looks at it again. -/
def timeoutMoves : List (TaskPool.Move Choice Op) :=
  List.replicate 3 (.run 0 sampleChoice) ++
    .arrive (watchdogTask sampleTimeout) :: List.replicate 4 (.run 0 { sampleChoice with now := sampleTimeout })

def clocked (T : TimedWorld) : WorldLabel → Bool
  | .arrive task => isRequest task
  | .run _ c => decide (T.state.clock ≤ c.now)

private theorem clocked_of_bool (T : TimedWorld) (l : WorldLabel) (h : clocked T l = true) : Clocked T l := by
  cases l with
  | arrive task => exact h
  | run op c => exact (of_decide_eq_true h : T.state.clock ≤ c.now)

/-- The slot is freed in the moment of the failure, with the worker still busy. -/
theorem ttl_from_failure_fails : ¬ ∀ (p : TreeParams) (fleet : List (Nat × RegisteredWorker))
    (leafPackThreshold maxLeafProvers : Nat) (staged : Option StagedInputs) (inputAlreadyUploaded : Bool) (clock : Time)
    (T : TimedWorld), TimedRun p.context.proofUuid Clocked (TimedWorld.admitted clock
      (World.admitted p fleet leafPackThreshold maxLeafProvers staged inputAlreadyUploaded)) T →
    T.state.freeing = true → T.state.Ripe := by
  intro hall
  obtain ⟨T, hrun, hT⟩ := TaskPool.exists_run_of_play (Op.execTimed "proof") clocked sampleTimed timeoutMoves
    (fun T => T.state.freeing && !T.state.manager.isFullyDrained && T.state.clock == T.state.failedAt)
      (by decide +kernel)
  simp only [Bool.and_eq_true, Bool.not_eq_true', beq_iff_eq] at hT
  obtain ⟨⟨hfreeing, hbusy⟩, hclock⟩ := hT
  rcases hall (sampleParams .stark) sampleFleet 4 1 none true 0 T (hrun.mono clocked_of_bool) hfreeing with hdrained |
    hover
  · simp [hbusy] at hdrained
  · rw [hclock, Int.sub_self] at hover
    exact absurd hover (by decide)

def briefSilence (silence : Nat) (proofUuid : String) (T : TimedWorld) : WorldLabel → Bool
  | .arrive task => isRequest task
  | .run op c =>
    decide (T.state.clock ≤ c.now) &&
      T.state.manager.proof.all (fun ps => !op.failsSilently ps || decide (c.now ≤ ps.lastUpdated + silence)) &&
      T.state.manager.proof.all (fun ps => op.kind != .checkFailing || !ps.status.isFailing ||
        decide (c.now - ps.lastUpdated ≤ failingDrainTtl ∨ failingDrainTtl + silence < c.now - ps.lastUpdated)) &&
      (op.kind != .abort || !T.state.manager.isFailing) &&
      (!T.state.freeing || (op.exec proofUuid c T.state.manager).result.works.isEmpty)

private theorem briefSilence_of_bool (silence : Nat) (proofUuid : String) (T : TimedWorld) (l : WorldLabel)
    (h : briefSilence silence proofUuid T l = true) : BriefSilence silence proofUuid T l := by
  cases l with
  | arrive task => exact h
  | run op c =>
    simp only [briefSilence, Bool.and_eq_true, Bool.or_eq_true, decide_eq_true_eq, bne_iff_ne, ne_eq, Bool.not_eq_true',
      List.isEmpty_iff] at h
    obtain ⟨⟨⟨⟨hclock, hsilent⟩, hlook⟩, habort⟩, hworks⟩ := h
    refine ⟨hclock, fun ps hps hs => ?_, ?_, ?_, fun hfreeing => ?_⟩
    · simpa [hps, hs] using hsilent
    · rintro rfl ps hps hfailing
      simpa [hps, hfailing, Op.kind] using hlook
    · rintro ⟨message, rfl⟩
      simpa [Op.kind] using habort
    · simpa [hfreeing] using hworks

/-- The segment count comes an hour after the start and the timeout a second later; the watchdog looks again after
seventy seconds. -/
def drainMoves : List (TaskPool.Move Choice Op) :=
  List.replicate 3 (.run 0 sampleChoice) ++
    .arrive (resultTask 0 ⟨0, "", sampleE2 2⟩) ::
      List.replicate 5 (.run 0 { sampleChoice with now := 3600 * 1000000000 }) ++
    .arrive (watchdogTask sampleTimeout) :: List.replicate 4 (.run 0 { sampleChoice with now := sampleTimeout }) ++
    .arrive (watchdogTask (3671 * 1000000000)) ::
      List.replicate 3 (.run 0 { sampleChoice with now := 3671 * 1000000000 })

/-- The proof that failed a second after its last result waits for the TTL, with its worker still busy. -/
theorem ttl_from_failure_sample : ∃ T : TimedWorld, T.state.freeing = true ∧ T.state.manager.isFullyDrained = false ∧
    (T.state.freeing = true → T.state.Ripe) ∧
      ∀ l T', BriefSilence 1000000000 "proof" T l → TimedStep "proof" T l T' → T.state.manager.isFailing = true →
        (∃ ps reason, T'.state.manager.proof = some ps ∧ ps.status = .failed reason) → T.state.Ripe := by
  obtain ⟨T, hrun, hT⟩ := TaskPool.exists_run_of_play (Op.execTimed "proof") (briefSilence 1000000000 "proof")
    sampleTimed drainMoves (fun T => T.state.freeing && !T.state.manager.isFullyDrained) (by decide +kernel)
  simp only [Bool.and_eq_true, Bool.not_eq_true'] at hT
  have hrun : TimedRun (sampleParams .stark).context.proofUuid
      (BriefSilence 1000000000 (sampleParams .stark).context.proofUuid)
      (TimedWorld.admitted 0 (World.admitted (sampleParams .stark) sampleFleet 4 1 none true)) T :=
    hrun.mono (briefSilence_of_bool 1000000000 "proof")
  exact ⟨T, hT.1, hT.2, ttl_from_failure hrun⟩

end EdgeProver
