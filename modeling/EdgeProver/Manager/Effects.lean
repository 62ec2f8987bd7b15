import EdgeProver.Manager.Handlers

/-! What each step does to the proof entry, to the scheduler entry and to the work handed out. -/
namespace EdgeProver

/-- The step's write to an existing proof entry; `none` where it evicts the entry. -/
def Op.writeProof (proofUuid : String) (c : Choice) : Op → ProofState → Option ProofState
  | .process _ envelope, ps =>
    if envelope.message.context.proofUuid ≠ proofUuid then some ps
    else some (ps.handleProofResultWithEnvelopeOutcome c.now envelope).1
  | .evict, ps => if c.unlocked && ps.shouldEvict c.now then none else some ps
  | .transition, ps => some ps.transitionFailingToFailed
  | .persist, ps => some (ps.finalize c.now c.persisted)
  | .dispatchFailed reason, ps => some (ps.dispatchFailed reason)
  | .cancel, ps => some ps.cancel
  | .timeoutCheck now, ps => some (if ps.isTimedOut now then ps.markTimedOut else ps)
  | .recordDeferral count, ps => some { ps with deferralCircuitCount := count }
  | .abort message, ps => some (ps.abort message)
  | .markFailing message, ps => some (ps.markFailing message)
  | _, ps => some ps

/-- The steps of `start_proof` before its first kickoff. -/
def Op.prepares : Op → Bool
  | .takeStaged .. | .upload .. | .fanout .. | .recordDeferral .. | .restage .. | .abort .. => true
  | _ => false

def Op.handsOut : Op → Bool
  | .setNumSegments .. | .workerCompleted .. | .enqueue .. | .kickoff .. => true
  | _ => false

section
variable {proofUuid : String} {c : Choice} {m : Manager} {op : Op}

private theorem setNumSegments_proof (n : Nat) : (m.setNumSegments proofUuid n).2.proof = m.proof := by
  unfold Manager.setNumSegments
  split <;> rfl

private theorem workerCompleted_proof (id : Nat) (result : ProofResult) :
    (m.workerCompleted proofUuid id result).2.proof = m.proof := by
  unfold Manager.workerCompleted
  split
  · rfl
  · split <;> rfl

private theorem workerDrained_proof (id : Nat) (result : ProofResult) :
    (m.workerDrained proofUuid id result).2.proof = m.proof := by
  unfold Manager.workerDrained
  split
  · rfl
  · split <;> rfl

private theorem enqueueOrAssign_proof (envelope : MessageEnvelope GeneralProveRequest) (step : Step) :
    (m.enqueueOrAssign proofUuid envelope step).2.proof = m.proof := by
  unfold Manager.enqueueOrAssign
  split <;> rfl

/-- A step writes the proof entry as said, and never makes one. -/
theorem exec_proof : (op.exec proofUuid c m).state.proof = m.proof.bind (op.writeProof proofUuid c) := by
  have hkeep (x : Option ProofState) : x = x.bind some := by cases x <;> rfl
  cases op with
  | process id envelope =>
    simp only [Op.exec]
    split
    · rename_i hne
      cases hp : m.proof <;> simp [Op.writeProof, goOn, hp, hne]
    · rename_i heq
      cases hp : m.proof with
      | none => simp [goOn, hp]
      | some ps => simp [goOn, Op.writeProof, heq]
  | setNumSegments n => exact (setNumSegments_proof n).trans (hkeep _)
  | workerCompleted id result =>
    simp only [Op.exec]
    split <;> exact (workerCompleted_proof id result).trans (hkeep _)
  | workerDrained id result => exact (workerDrained_proof id result).trans (hkeep _)
  | enqueue request => exact (enqueueOrAssign_proof _ _).trans (hkeep _)
  | evict =>
    cases hp : m.proof with
    | none => simp [Op.exec, goOn, hp]
    | some ps =>
      simp only [Op.exec, hp, Option.bind_some, Op.writeProof]
      split
      · rfl
      · exact hp
  | checkFailing => cases hp : m.proof <;> simp [Op.exec, goOn, hp, Op.writeProof]
  | timeoutCheck now =>
    cases hp : m.proof with
    | none => simp [Op.exec, goOn, hp]
    | some ps =>
      simp only [Op.exec, hp, Option.bind_some, Op.writeProof]
      split
      · simp [goOn, Manager.updateProof, hp]
      · simp [goOn, hp]
  | send work retries =>
    simp only [Op.exec]
    split
    · exact hkeep _
    · split <;> exact hkeep _
  | upload req staged =>
    simp only [Op.exec]
    split <;> exact hkeep _
  | fanout req staged =>
    simp only [Op.exec]
    split <;> exact hkeep _
  | kickoff appWorkers remaining failures =>
    simp only [Op.exec]
    split <;> exact hkeep _
  | transition => cases hp : m.proof <;> simp [Op.exec, goOn, Manager.updateProof, hp, Op.writeProof]
  | persist => cases hp : m.proof <;> simp [Op.exec, goOn, Manager.updateProof, hp, Op.writeProof]
  | dispatchFailed reason => cases hp : m.proof <;> simp [Op.exec, goOn, Manager.updateProof, hp, Op.writeProof]
  | cancel => cases hp : m.proof <;> simp [Op.exec, goOn, Manager.updateProof, hp, Op.writeProof]
  | recordDeferral count => cases hp : m.proof <;> simp [Op.exec, goOn, Manager.updateProof, hp, Op.writeProof]
  | abort message => cases hp : m.proof <;> simp [Op.exec, goOn, Manager.updateProof, hp, Op.writeProof]
  | markFailing message => cases hp : m.proof <;> simp [Op.exec, goOn, Manager.updateProof, hp, Op.writeProof]
  | _ => exact hkeep _

theorem compactCompletedState_status (ps : ProofState) : ps.compactCompletedState.status = ps.status := by
  unfold ProofState.compactCompletedState
  split <;> rfl

/-- What a step does to a proof that is no longer in progress: only the end of the drain and an abort of
`start_proof` write its status or its date. -/
theorem writeProof_over {ps ps' : ProofState} (hover : ps.status ≠ .inProgress)
    (h : op.writeProof proofUuid c ps = some ps') :
    (ps'.status = ps.status ∧ ps'.lastUpdated = ps.lastUpdated) ∨
      (op = .transition ∧ ∃ reason, ps.status = .failing reason ∧ ps' = { ps with status := .failed reason }) ∨
      ∃ message, op = .abort message ∧ ps' = ps.abort message := by
  have hsealed : ps.isSealedForResults = true := ProofState.sealed_of_status hover
  have hstatus : ¬ ps.status.isInProgress = true := by simpa using hover
  cases op with
  | process workerId envelope =>
    simp only [Op.writeProof, ProofState.handleProofResultWithEnvelopeOutcome, if_pos hsealed] at h
    split at h <;> obtain rfl := Option.some.inj h <;> exact .inl ⟨rfl, rfl⟩
  | evict =>
    simp only [Op.writeProof] at h
    split at h
    · simp at h
    · obtain rfl := Option.some.inj h
      exact .inl ⟨rfl, rfl⟩
  | transition =>
    obtain rfl := Option.some.inj h
    cases hst : ps.status with
    | failing reason => exact .inr (.inl ⟨rfl, reason, rfl, by simp only [ProofState.transitionFailingToFailed, hst]⟩)
    | inProgress => exact absurd hst hover
    | completed | failed | canceled => exact .inl ⟨by simp [ProofState.transitionFailingToFailed, hst],
        by simp only [ProofState.transitionFailingToFailed, hst]⟩
  | persist =>
    obtain rfl := Option.some.inj h
    have hkeep : ps.finalize c.now c.persisted = ps.compactCompletedState := by
      simp only [ProofState.finalize, hstatus, Bool.false_and, if_neg Bool.false_ne_true]
    refine .inl ⟨hkeep ▸ compactCompletedState_status ps, ?_⟩
    rw [hkeep, ProofState.compactCompletedState]
    split <;> rfl
  | dispatchFailed reason =>
    obtain rfl := Option.some.inj h
    exact .inl (by rw [ProofState.dispatchFailed, if_neg hstatus]; exact ⟨rfl, rfl⟩)
  | cancel =>
    obtain rfl := Option.some.inj h
    exact .inl (by rw [ProofState.cancel, if_neg (by simp [hstatus])]; exact ⟨rfl, rfl⟩)
  | timeoutCheck now =>
    simp only [Op.writeProof, ProofState.isTimedOut_sealed hsealed] at h
    obtain rfl := Option.some.inj h
    exact .inl ⟨rfl, rfl⟩
  | markFailing message =>
    obtain rfl := Option.some.inj h
    exact .inl (by rw [ProofState.markFailing_sealed hsealed]; exact ⟨rfl, rfl⟩)
  | abort message =>
    obtain rfl := Option.some.inj h
    exact .inr (.inr ⟨message, rfl, rfl⟩)
  | _ =>
    obtain rfl := Option.some.inj h
    exact .inl ⟨rfl, rfl⟩

/-- A status that is not `InProgress` only ever becomes `Failed`. -/
theorem writeProof_status_of_over {ps ps' : ProofState} (hover : ps.status ≠ .inProgress)
    (h : op.writeProof proofUuid c ps = some ps') : ps'.status = ps.status ∨
      ∃ reason, ps'.status = .failed reason ∧ (ps.status = .failing reason ∨ op = .abort reason) := by
  obtain ⟨hkeep, -⟩ | ⟨-, reason, hfailing, rfl⟩ | ⟨message, rfl, rfl⟩ := writeProof_over hover h
  · exact .inl hkeep
  · exact .inr ⟨reason, rfl, .inl hfailing⟩
  · exact .inr ⟨message, rfl, .inr rfl⟩

def Op.touchesScheduler : Op → Bool
  | .setNumSegments .. | .workerCompleted .. | .workerDrained .. | .enqueue .. | .releaseWorker .. | .removeProof =>
    true
  | _ => false

theorem scheduler_exec (h : op.touchesScheduler = false) : (op.exec proofUuid c m).state.scheduler = m.scheduler := by
  cases op with
  | setNumSegments | workerCompleted | workerDrained | enqueue | releaseWorker | removeProof =>
    simp [Op.touchesScheduler] at h
  | process workerId envelope =>
    simp only [Op.exec]
    split
    · rfl
    · split <;> rfl
  | evict | timeoutCheck | checkFailing =>
    simp only [Op.exec]
    split
    · rfl
    · first
        | rfl
        | split <;> rfl
  | send work retries =>
    simp only [Op.exec]
    split
    · rfl
    · split <;> rfl
  | upload | fanout | kickoff =>
    simp only [Op.exec]
    split <;> rfl
  | _ => rfl

/-- Once the scheduler has lost the proof, no step brings it back. -/
theorem scheduler_of_none (h : m.scheduler = none) : (op.exec proofUuid c m).state.scheduler = none := by
  cases op with
  | setNumSegments => simp only [Op.exec, handOut, Manager.setNumSegments, h]
  | workerCompleted =>
    simp only [Op.exec, Manager.workerCompleted, h]
    exact h
  | workerDrained => simp only [Op.exec, goOn, Manager.workerDrained, h]
  | enqueue => simp only [Op.exec, handOut, Manager.enqueueOrAssign, h]
  | releaseWorker => simp only [Op.exec, goOn, Manager.releaseWorker, h, Option.map_none]
  | removeProof => rfl
  | _ => exact (scheduler_exec (by simp [Op.touchesScheduler])).trans h

/-- Only these steps hand out work. -/
theorem handed_of_not_handsOut (h : op.handsOut = false) : (op.exec proofUuid c m).result = ⟨[], []⟩ := by
  cases op with
  | setNumSegments | workerCompleted | enqueue | kickoff => simp [Op.handsOut] at h
  | process id envelope =>
    simp only [Op.exec]
    split
    · rfl
    · split <;> rfl
  | _ =>
    simp only [Op.exec]
    first
      | rfl
      | (split <;> first | rfl | (split <;> rfl))

private theorem sends_of_handOut {works : List AssignedWork} {task : List Op} (h : task ∈ (handOut m works).spawned) :
    ∃ work, task = [.send work 0] := by
  obtain ⟨work, -, rfl⟩ := List.mem_map.mp h
  exact ⟨work, rfl⟩

/-- Only the calls of the scheduler that hand out work start tasks, and these are dispatches. -/
theorem spawned_exec {task : List Op} (h : task ∈ (op.exec proofUuid c m).spawned) : ∃ work, task = [.send work 0] := by
  cases op with
  | setNumSegments n => exact sends_of_handOut h
  | enqueue request => exact sends_of_handOut h
  | workerCompleted workerId result =>
    simp only [Op.exec] at h
    split at h
    · exact sends_of_handOut h
    · simp [goOn] at h
  | process workerId envelope =>
    simp only [Op.exec] at h
    split at h
    · simp [goOn] at h
    · split at h <;> simp [goOn] at h
  | evict | timeoutCheck now | send work retries =>
    simp only [Op.exec] at h
    split at h
    · simp [goOn] at h
    · split at h <;> simp [goOn] at h
  | checkFailing | upload | fanout | kickoff =>
    simp only [Op.exec] at h
    split at h <;> simp [goOn] at h
  | _ => simp [Op.exec, goOn] at h

end

inductive OpKind where
  | process | setNumSegments | workerCompleted | workerDrained | finalizeUnlessFailing | evict | enqueue
  | checkFailing | checkDrained | transition | removeStaged | persist | removeProof
  | send | releaseWorker | dispatchFailed | cancel | timeoutCheck
  | takeStaged | upload | fanout | recordDeferral | restage | kickoff | abort | markFailing
  deriving DecidableEq

def Op.kind : Op → OpKind
  | .process .. => .process
  | .setNumSegments .. => .setNumSegments
  | .workerCompleted .. => .workerCompleted
  | .workerDrained .. => .workerDrained
  | .finalizeUnlessFailing => .finalizeUnlessFailing
  | .evict => .evict
  | .enqueue .. => .enqueue
  | .checkFailing => .checkFailing
  | .checkDrained .. => .checkDrained
  | .transition => .transition
  | .removeStaged => .removeStaged
  | .persist => .persist
  | .removeProof => .removeProof
  | .send .. => .send
  | .releaseWorker .. => .releaseWorker
  | .dispatchFailed .. => .dispatchFailed
  | .cancel => .cancel
  | .timeoutCheck .. => .timeoutCheck
  | .takeStaged .. => .takeStaged
  | .upload .. => .upload
  | .fanout .. => .fanout
  | .recordDeferral .. => .recordDeferral
  | .restage .. => .restage
  | .kickoff .. => .kickoff
  | .abort .. => .abort
  | .markFailing .. => .markFailing

/-- The kinds of steps that a step may put before the rest of its task, or start tasks with. -/
def OpKind.next : OpKind → List OpKind
  | .process => [.setNumSegments, .workerCompleted, .workerDrained, .finalizeUnlessFailing, .checkFailing, .evict,
      .enqueue]
  | .setNumSegments | .workerCompleted | .enqueue => [.send]
  | .finalizeUnlessFailing => [.removeStaged, .persist, .removeProof]
  | .checkFailing => [.checkDrained]
  | .checkDrained => [.transition, .removeStaged, .persist, .removeProof]
  | .send => [.send, .removeStaged, .releaseWorker, .dispatchFailed, .checkFailing]
  | .cancel => [.removeProof, .removeStaged]
  | .timeoutCheck => [.checkFailing]
  | .takeStaged => [.upload, .fanout, .kickoff, .abort, .removeProof, .removeStaged]
  | .upload => [.fanout, .kickoff, .abort, .removeProof]
  | .fanout => [.recordDeferral, .restage, .kickoff, .abort, .removeProof, .removeStaged]
  | .kickoff => [.kickoff, .markFailing, .releaseWorker, .checkFailing]
  | .workerDrained | .evict | .transition | .removeStaged | .persist | .removeProof | .releaseWorker
  | .dispatchFailed | .recordDeferral | .restage | .abort | .markFailing => []

/-- All these steps may follow one of this kind. -/
def OpKind.LeadsTo (kind : OpKind) (ops : List Op) : Prop := ∀ op ∈ ops, op.kind ∈ kind.next

section
variable {kind : OpKind} {op : Op} {ops ops' : List Op}

@[simp] theorem leadsTo_nil : kind.LeadsTo [] := List.forall_mem_nil _
@[simp] theorem leadsTo_cons : kind.LeadsTo (op :: ops) ↔ op.kind ∈ kind.next ∧ kind.LeadsTo ops :=
  List.forall_mem_cons

@[simp] theorem leadsTo_append : kind.LeadsTo (ops ++ ops') ↔ kind.LeadsTo ops ∧ kind.LeadsTo ops' :=
  List.forall_mem_append

@[simp] theorem leadsTo_map {α : Type} {f : α → Op} {xs : List α} :
    kind.LeadsTo (xs.map f) ↔ ∀ x ∈ xs, (f x).kind ∈ kind.next := List.forall_mem_map

end

private theorem leadsTo_afterProcess (workerId : Nat) (result : ProofResult)
    (out : Except String ProofState.ProofResultEnvelopeOutcome) :
    OpKind.process.LeadsTo (afterProcess workerId result out) := by
  unfold afterProcess
  split
  · exact leadsTo_nil
  · split <;> simp [Op.kind, OpKind.next]
  · split <;> split <;> simp [Op.kind, OpKind.next]

private theorem leadsTo_afterUpload (kind : OpKind) (hfanout : .fanout ∈ kind.next) (hkickoff : .kickoff ∈ kind.next)
    (req : StartRequest) (staged : StagedInputs) : kind.LeadsTo (afterUpload req staged) := by
  unfold afterUpload
  split
  · simpa [Op.kind] using hfanout
  · simpa [startKickoff, Op.kind] using hkickoff

private theorem leadsTo_checkStaged (proofUuid : String) (req : StartRequest) (staged : StagedInputs) :
    OpKind.takeStaged.LeadsTo (checkStaged proofUuid req staged) := by
  have hafter := leadsTo_afterUpload .takeStaged (by decide) (by decide) req staged
  unfold checkStaged
  split
  · simp [abortProof, Op.kind, OpKind.next]
  · split
    · simp [abortProof, Op.kind, OpKind.next]
    · split
      · exact hafter
      · split <;> simp [abortProof, Op.kind, OpKind.next]

section
variable {proofUuid : String} {c : Choice} {m : Manager}

private theorem leadsTo_handOut {kind : OpKind} (hsend : .send ∈ kind.next) {works : List AssignedWork} :
    kind.LeadsTo ((handOut m works).next ++ (handOut m works).spawned.flatten) := by
  intro op hop
  obtain ⟨task, htask, hop⟩ := List.mem_flatten.mp hop
  obtain ⟨work, -, rfl⟩ := List.mem_map.mp htask
  obtain rfl := List.mem_singleton.mp hop
  exact hsend

/-- A step leads only to steps of the kinds that may follow it. -/
theorem leadsTo_exec (op : Op) :
    op.kind.LeadsTo ((op.exec proofUuid c m).next ++ (op.exec proofUuid c m).spawned.flatten) := by
  cases op with
  | process workerId envelope =>
    simp only [Op.exec]
    split
    · exact leadsTo_nil
    · split
      · exact leadsTo_nil
      · simpa [goOn, Op.kind] using leadsTo_afterProcess _ _ _
  | takeStaged req => simpa [Op.exec, goOn, Op.kind] using leadsTo_checkStaged _ _ _
  | upload req staged =>
    have hafter := leadsTo_afterUpload .upload (by decide) (by decide) req staged
    simp only [Op.exec]
    split
    · simpa [goOn, Op.kind] using hafter
    · simp [goOn, Op.kind, OpKind.next]
  | fanout req staged =>
    simp only [Op.exec]
    split <;> simp [goOn, startKickoff, abortProof, Op.kind, OpKind.next]
  | kickoff appWorkers remaining failures =>
    simp only [Op.exec]
    split
    · unfold afterKickoff
      split <;> simp [goOn, Op.kind, OpKind.next]
    · simp [Op.kind, OpKind.next]
  | workerCompleted workerId result =>
    simp only [Op.exec]
    split
    · exact leadsTo_handOut (List.mem_singleton.mpr rfl)
    · exact leadsTo_nil
  | evict | checkFailing | timeoutCheck now =>
    simp only [Op.exec]
    split
    · exact leadsTo_nil
    · split <;> simp [goOn, Op.kind, OpKind.next]
  | finalizeUnlessFailing | checkDrained ttlExpired =>
    simp only [Op.exec]
    split <;> simp [goOn, finalizeProof, Op.kind, OpKind.next]
  | send work retries =>
    simp only [Op.exec]
    split
    · split <;> simp [goOn, Op.kind, OpKind.next]
    · split <;> simp [goOn, Op.kind, OpKind.next]
  | setNumSegments numSegments | enqueue request => exact leadsTo_handOut (List.mem_singleton.mpr rfl)
  | cancel => simp [Op.exec, goOn, Op.kind, OpKind.next]
  | recordDeferral | restage | abort | workerDrained | markFailing | transition | removeStaged | persist | removeProof
  | releaseWorker | dispatchFailed => simp [Op.exec, goOn]

end
end EdgeProver
