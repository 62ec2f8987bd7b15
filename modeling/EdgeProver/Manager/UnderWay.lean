import EdgeProver.Manager.Duties
import EdgeProver.Manager.Effects
import EdgeProver.Scheduler.Handing

/-! What is under way for one worker of a proof: the items on their way to it, and the reports of it that
`proof_result` is still handling. -/
namespace EdgeProver

/-- The report of this worker that a step of `proof_result` handles. -/
def Op.carries (workerId : Nat) : Op → Option ProofResult
  | .process id envelope => if id = workerId then some envelope.message else none
  | .workerCompleted id result | .workerDrained id result => if id = workerId then some result else none
  | _ => none

def Op.sendsTo (workerId : Nat) : Op → Bool
  | .send work _ => work.workerId == workerId
  | _ => false

/-- The workers that a step of `start_proof` has still to send their shard. -/
def Op.awaits : Op → List Nat
  | .takeStaged req | .upload req _ | .fanout req _ => req.appWorkers
  | .kickoff _ remaining _ => remaining
  | _ => []

/-- The segment count that a step is about to record. -/
def Op.learns : Op → Option Nat
  | .process _ envelope =>
    match envelope.message with
    | .executeE2 e2 => some e2.state.numSegments
    | _ => none
  | .setNumSegments numSegments => some numSegments
  | _ => none

def reportsOf (workerId : Nat) (ops : List Op) : List ProofResult := ops.filterMap (Op.carries workerId)
def sendsTo (workerId : Nat) (ops : List Op) : Nat := ops.countP (Op.sendsTo workerId)
def awaited (ops : List Op) : List Nat := ops.flatMap Op.awaits
def learned (ops : List Op) : List Nat := ops.filterMap Op.learns

section
variable (workerId : Nat) (ops ops' : List Op)

@[simp] theorem reportsOf_append : reportsOf workerId (ops ++ ops') =
    reportsOf workerId ops ++ reportsOf workerId ops' :=
  List.filterMap_append

@[simp] theorem sendsTo_append : sendsTo workerId (ops ++ ops') = sendsTo workerId ops + sendsTo workerId ops' :=
  List.countP_append

@[simp] theorem awaited_append : awaited (ops ++ ops') = awaited ops ++ awaited ops' := List.flatMap_append

@[simp] theorem learned_append : learned (ops ++ ops') = learned ops ++ learned ops' := List.filterMap_append

variable {ops ops'}

theorem reportsOf_perm (h : ops.Perm ops') : (reportsOf workerId ops).Perm (reportsOf workerId ops') := h.filterMap _

theorem sendsTo_perm (h : ops.Perm ops') : sendsTo workerId ops = sendsTo workerId ops' := h.countP_eq _

theorem mem_awaited_perm (h : ops.Perm ops') : workerId ∈ awaited ops ↔ workerId ∈ awaited ops' :=
  (h.flatMap_right _).mem_iff

theorem mem_learned_perm (h : ops.Perm ops') {n : Nat} : n ∈ learned ops ↔ n ∈ learned ops' := (h.filterMap _).mem_iff

theorem mem_learned {n : Nat} : n ∈ learned ops ↔ ∃ op ∈ ops, op.learns = some n := List.mem_filterMap

end

def sendTasks (works : List AssignedWork) : List Op := works.map fun work => .send work 0

section
variable (workerId : Nat) (works : List AssignedWork)

@[simp] theorem sendsTo_sendTasks : sendsTo workerId (sendTasks works) = works.countP (·.workerId == workerId) := by
  rw [sendsTo, sendTasks, List.countP_map]
  rfl

@[simp] theorem reportsOf_sendTasks : reportsOf workerId (sendTasks works) = [] := by
  rw [reportsOf, sendTasks, List.filterMap_map]
  exact List.filterMap_eq_nil_iff.mpr fun work hwork => rfl

@[simp] theorem awaited_sendTasks : awaited (sendTasks works) = [] := by
  rw [awaited, sendTasks, List.flatMap_map]
  exact List.flatMap_eq_nil_iff.mpr fun work hwork => rfl

@[simp] theorem learned_sendTasks : learned (sendTasks works) = [] := by
  rw [learned, sendTasks, List.filterMap_map]
  exact List.filterMap_eq_nil_iff.mpr fun work hwork => rfl

/-- A call that hands work out leads to the steps that send it. -/
theorem brings_handOut (m : Manager) :
    (handOut m works).next ++ (handOut m works).spawned.flatten = sendTasks works := by
  induction works with
  | nil => rfl
  | cons work works ih => exact congrArg (Op.send work 0 :: ·) ih

end

/-- The result gives back the slot of an item, or of a whole shard. -/
def ProofResult.givesBack : ProofResult → Bool
  | .leaf _ | .internal _ | .evm _ | .error _ => true
  | .app _ | .executeE2 _ => false

def ProofResult.segment : ProofResult → Option Nat
  | .app appProof => some appProof.state.segmentIdx
  | _ => none

/-- What answers an item gives a slot back. -/
theorem givesBack_of_answer {result : ProofResult} {step : Step}
    (h : result.completedStep = some step ∨ ∃ e, result = .error e) :
    result.givesBack = true ∧ result.segment = none := by
  obtain hstep | ⟨e, rfl⟩ := h
  · cases result <;> simp_all [ProofResult.completedStep, ProofResult.givesBack, ProofResult.segment]
  · exact ⟨rfl, rfl⟩

def Duties.itemsOf (D : Duties) (workerId : Nat) : Nat := D.items.countP (·.1 == workerId)

/-- A step of the manager reports nothing. -/
theorem Duties.run_reports (D : Duties) (c : Choice) (m : Manager) (op : Op) :
    (D.run c m op).segments = D.segments ∧ (D.run c m op).failed = D.failed ∧ (D.run c m op).executed = D.executed := by
  cases op with
  | send work retries =>
    simp only [Duties.run]
    split <;> exact ⟨rfl, rfl, rfl⟩
  | kickoff appWorkers remaining failures =>
    simp only [Duties.run]
    split
    · exact ⟨rfl, rfl, rfl⟩
    · split <;> exact ⟨rfl, rfl, rfl⟩
  | _ => exact ⟨rfl, rfl, rfl⟩

/-- A kickoff may put a shard on a worker that waits for it. -/
theorem Duties.run_kickoff (D : Duties) (c : Choice) (m : Manager) (appWorkers remaining : List Nat)
    (failures : List (Nat × String)) : (D.run c m (.kickoff appWorkers remaining failures)).items = D.items ∧
      ∀ id ∈ (D.run c m (.kickoff appWorkers remaining failures)).shards, id ∈ D.shards ∨ id ∈ remaining := by
  simp only [Duties.run]
  split
  · exact ⟨rfl, fun id => .inl⟩
  · rename_i started hnext
    split
    · exact ⟨rfl, List.forall_mem_cons.mpr ⟨.inr (List.mem_of_getElem? hnext), fun id => .inl⟩⟩
    · exact ⟨rfl, fun id => .inl⟩

/-- What a step leads to, in its own task and in those it starts. -/
def Op.brings (proofUuid : String) (c : Choice) (m : Manager) (op : Op) : List Op :=
  (op.exec proofUuid c m).next ++ (op.exec proofUuid c m).spawned.flatten

section
variable {proofUuid : String} {c : Choice} {m : Manager} {op : Op} {workerId : Nat}

private theorem carries_kind (h : op.kind ∉ [OpKind.process, .workerCompleted, .workerDrained]) :
    op.carries workerId = none := by
  cases op <;> simp_all [Op.kind, Op.carries]

private theorem sendsTo_kind (h : op.kind ≠ .send) : op.sendsTo workerId = false := by
  cases op <;> simp_all [Op.kind, Op.sendsTo]

private theorem awaits_kind (h : op.kind ∉ [OpKind.takeStaged, .upload, .fanout, .kickoff]) : op.awaits = [] := by
  cases op <;> simp_all [Op.kind, Op.awaits]

private theorem learns_kind (h : op.kind ∉ [OpKind.process, .setNumSegments]) : op.learns = none := by
  cases op <;> simp_all [Op.kind, Op.learns]

private theorem forall_brings {P : OpKind → Prop} (h : ∀ kind ∈ op.kind.next, P kind) :
    ∀ op' ∈ op.brings proofUuid c m, P op'.kind := fun op' hop' => h op'.kind (leadsTo_exec op op' hop')

private theorem afterProcess_learned (id : Nat) (result : ProofResult)
    (out : Except String ProofState.ProofResultEnvelopeOutcome) :
    ∀ n ∈ learned (afterProcess id result out), ∃ e2, result = .executeE2 e2 ∧ n = e2.state.numSegments := by
  have hrest (requests : List GeneralProveRequest) : (requests.map Op.enqueue).filterMap Op.learns = [] := by
    rw [List.filterMap_map]
    exact List.filterMap_eq_nil_iff.mpr fun request hrequest => rfl
  unfold learned afterProcess
  split
  · simp
  · split <;> simp [Op.learns]
  · simp only [List.filterMap_append, hrest, List.append_nil]
    split <;> split <;> simp [Op.learns, List.filterMap_cons]

private theorem afterProcess_reports (id : Nat) (result : ProofResult)
    (out : Except String ProofState.ProofResultEnvelopeOutcome) :
    (reportsOf workerId (afterProcess id result out)).Sublist (if id = workerId then [result] else []) := by
  have hrest (requests : List GeneralProveRequest) : (requests.map Op.enqueue).filterMap
    (Op.carries workerId) = [] := by
    rw [List.filterMap_map]
    exact List.filterMap_eq_nil_iff.mpr fun request hrequest => rfl
  unfold reportsOf afterProcess
  split
  · exact List.nil_sublist _
  · by_cases hid : id = workerId
    · split <;> simp [Op.carries, hid]
    · split <;> simp [Op.carries, hid]
  · simp only [List.filterMap_append, hrest, List.append_nil]
    by_cases hid : id = workerId
    · split <;> split <;> simp [Op.carries, hid, List.filterMap_cons]
    · split <;> split <;> simp [Op.carries, hid, List.filterMap_cons]

/-- No step makes a report of its own: a handler hands the one it has on, or loses it. -/
theorem reportsOf_brings : (reportsOf workerId (op.brings proofUuid c m)).Sublist (reportsOf workerId [op]) := by
  by_cases hprocess : op.kind = .process
  · cases op with
    | process id envelope =>
      have hcarried : reportsOf workerId [.process id envelope] = if id = workerId then [envelope.message] else [] := by
        unfold reportsOf Op.carries
        by_cases hid : id = workerId <;> simp [hid]
      rw [hcarried]
      unfold Op.brings
      simp only [Op.exec]
      split
      · exact List.nil_sublist _
      · split
        · exact List.nil_sublist _
        · simpa [goOn] using afterProcess_reports id envelope.message _
    | _ => simp [Op.kind] at hprocess
  · have hkinds : ∀ kind ∈ op.kind.next, kind ∉ [OpKind.process, .workerCompleted, .workerDrained] := by
      revert hprocess
      generalize op.kind = kind
      cases kind <;> decide
    have hnone : reportsOf workerId (op.brings proofUuid c m) = [] :=
      List.filterMap_eq_nil_iff.mpr fun op' hop' => carries_kind (forall_brings hkinds op' hop')
    rw [hnone]
    exact List.nil_sublist _

/-- Only the scheduler's calls and a retry send anything. -/
theorem sendsTo_brings (h : op.kind ∉ [OpKind.setNumSegments, .workerCompleted, .enqueue, .send]) :
    sendsTo workerId (op.brings proofUuid c m) = 0 := by
  have hkinds : ∀ kind ∈ op.kind.next, kind ≠ .send := by
    revert h
    generalize op.kind = kind
    cases kind <;> decide
  exact List.countP_eq_zero.mpr fun op' hop' => by simp [sendsTo_kind (forall_brings hkinds op' hop')]

private theorem awaits_afterUpload (req : StartRequest) (staged : StagedInputs) :
    ∀ id ∈ awaited (afterUpload req staged), id ∈ req.appWorkers := by
  unfold awaited afterUpload
  split <;> simp [Op.awaits, startKickoff]

/-- No shard is to be sent that was not to be sent before. -/
theorem awaited_brings : ∀ id ∈ awaited (op.brings proofUuid c m), id ∈ op.awaits := by
  by_cases hkind : op.kind ∈ [OpKind.takeStaged, .upload, .fanout, .kickoff]
  · cases op with
    | takeStaged req =>
      have hafter := awaits_afterUpload req (m.staged.getD .empty)
      unfold Op.brings
      simp only [Op.exec, goOn, List.flatten_nil, List.append_nil]
      unfold checkStaged
      split
      · simp [abortProof, awaited, Op.awaits]
      · split
        · simp [abortProof, awaited, Op.awaits]
        · split
          · exact hafter
          · split
            · simp [awaited, Op.awaits]
            · simp [abortProof, awaited, Op.awaits]
    | upload req staged =>
      have hafter := awaits_afterUpload req staged
      unfold Op.brings
      simp only [Op.exec]
      split
      · simp only [goOn, List.flatten_nil, List.append_nil]
        exact hafter
      · simp [goOn, awaited, Op.awaits]
    | fanout req staged =>
      unfold Op.brings
      simp only [Op.exec]
      split <;> simp [goOn, startKickoff, abortProof, awaited, Op.awaits]
    | kickoff appWorkers remaining failures =>
      unfold Op.brings
      simp only [Op.exec]
      split
      · unfold afterKickoff
        split <;> simp [goOn, awaited, Op.awaits]
      · simp only [List.flatten_nil, List.append_nil, awaited, List.flatMap_cons, Op.awaits, List.flatMap_nil]
        exact fun id hid => List.mem_of_mem_erase hid
    | _ => simp [Op.kind] at hkind
  · intro id hid
    obtain ⟨op', hop', hid⟩ := List.mem_flatMap.mp hid
    have hkinds : ∀ kind ∈ op.kind.next, kind ∉ [OpKind.takeStaged, .upload, .fanout, .kickoff] := by
      revert hkind
      generalize op.kind = kind
      cases kind <;> decide
    rw [awaits_kind (forall_brings hkinds op' hop')] at hid
    simp at hid

/-- The count recorded is the one of the result handled. -/
theorem learned_brings : ∀ n ∈ learned (op.brings proofUuid c m), op.learns = some n := by
  by_cases hprocess : op.kind = .process
  · cases op with
    | process id envelope =>
      unfold Op.brings
      simp only [Op.exec]
      split
      · simp [goOn, learned]
      · split
        · simp [goOn, learned]
        · simp only [goOn, List.flatten_nil, List.append_nil]
          intro n hn
          obtain ⟨e2, hmessage, rfl⟩ := afterProcess_learned _ _ _ n hn
          simp only [Op.learns, hmessage]
    | _ => simp [Op.kind] at hprocess
  · intro n hn
    obtain ⟨op', hop', hlearns⟩ := List.mem_filterMap.mp hn
    have hkinds : ∀ kind ∈ op.kind.next, kind ∉ [OpKind.process, .setNumSegments] := by
      revert hprocess
      generalize op.kind = kind
      cases kind <;> decide
    rw [learns_kind (forall_brings hkinds op' hop')] at hlearns
    simp at hlearns

/-- No step changes the fleet of a proof that the scheduler keeps. -/
theorem config_exec {st' : EdgeProofState} (h : (op.exec proofUuid c m).state.scheduler = some st') :
    ∃ st, m.scheduler = some st ∧ st'.config = st.config := by
  cases hscheduler : m.scheduler with
  | none =>
    rw [scheduler_of_none hscheduler] at h
    simp at h
  | some st =>
    refine ⟨st, rfl, ?_⟩
    by_cases htouches : op.touchesScheduler = true
    · cases op with
      | setNumSegments n =>
        simp only [Op.exec, handOut, Manager.setNumSegments, hscheduler] at h
        exact Option.some.inj h ▸ st.config_setNumSegments proofUuid n
      | workerCompleted id result =>
        cases hcall : st.completeWork proofUuid id result with
        | error e =>
          simp only [Op.exec, Manager.workerCompleted, hscheduler, hcall, goOn] at h
          exact Option.some.inj h ▸ rfl
        | ok called =>
          simp only [Op.exec, Manager.workerCompleted, hscheduler, hcall, handOut] at h
          exact Option.some.inj h ▸ EdgeProofState.config_completeWork hcall
      | workerDrained id result =>
        cases hcall : st.applyCompletion proofUuid id result with
        | error e =>
          simp only [Op.exec, Manager.workerDrained, hscheduler, hcall, goOn] at h
          exact Option.some.inj h ▸ rfl
        | ok called =>
          simp only [Op.exec, Manager.workerDrained, hscheduler, hcall, goOn] at h
          exact Option.some.inj h ▸ EdgeProofState.config_applyCompletion hcall
      | enqueue request =>
        simp only [Op.exec, handOut, Manager.enqueueOrAssign, hscheduler] at h
        exact Option.some.inj h ▸ st.config_assignOrQueue proofUuid ⟨_, _⟩
      | releaseWorker id =>
        simp only [Op.exec, goOn, Manager.releaseWorker, hscheduler, Option.map_some] at h
        exact Option.some.inj h ▸ st.config_releaseWorker id
      | removeProof => simp [Op.exec, goOn] at h
      | _ => simp [Op.touchesScheduler] at htouches
    · rw [scheduler_exec (by simpa using htouches), hscheduler] at h
      exact Option.some.inj h ▸ rfl

end

/-- What a step of the handlers does to the scheduler's entry, and the work it hands out. -/
inductive SchedulerEffect (proofUuid : String) (st : EdgeProofState) : Op → List AssignedWork → EdgeProofState → Prop
  | setNumSegments {n : Nat} {works : List AssignedWork} {st' : EdgeProofState}
      (hout : HandsOut
        { st with numSegments := some n, workers := EdgeWorkerState.releaseShards st.numWorkers n st.workers }
        works st') :
      SchedulerEffect proofUuid st (.setNumSegments n) works st'
  | completed {op : Op} {workerId : Nat} {result : ProofResult} {freed : Bool} {counted st' : EdgeProofState}
      {works : List AssignedWork} (hop : op = .workerCompleted workerId result ∨ op = .workerDrained workerId result)
      (hcall : st.applyCompletion proofUuid workerId result = .ok (freed, counted))
        (hout : HandsOut counted works st') :
      SchedulerEffect proofUuid st op works st'
  /- The result of a worker that the proof does not know. -/
  | stranger {op : Op} {workerId : Nat} {result : ProofResult}
      (hop : op = .workerCompleted workerId result ∨ op = .workerDrained workerId result)
      (hunknown : workerId ∉ st.workers.map (·.id)) : SchedulerEffect proofUuid st op [] st
  | enqueue {request : GeneralProveRequest} {works : List AssignedWork} {st' : EdgeProofState}
      (hout : HandsOut st works st') : SchedulerEffect proofUuid st (.enqueue request) works st'
  | releaseWorker (workerId : Nat) : SchedulerEffect proofUuid st (.releaseWorker workerId) []
      (st.releaseWorker workerId)

section
variable {proofUuid : String} {c : Choice} {m : Manager} {op : Op} {st st' : EdgeProofState}

private theorem stranger_of_error {workerId : Nat} {result : ProofResult} {e : String}
    (h : st.applyCompletion proofUuid workerId result = .error e) : workerId ∉ st.workers.map (·.id) := by
  intro hmem
  obtain ⟨w, hw, rfl⟩ := List.mem_map.mp hmem
  obtain ⟨freed, counted, hok⟩ := EdgeProofState.applyCompletion_of_mem hw proofUuid result
  rw [h] at hok
  simp at hok

private theorem effect_workerCompleted (hst : m.scheduler = some st) (workerId : Nat) (result : ProofResult)
    (hst' : ((Op.workerCompleted workerId result).exec proofUuid c m).state.scheduler = some st') :
    ∃ works, (Op.workerCompleted workerId result).brings proofUuid c m = sendTasks works ∧
      SchedulerEffect proofUuid st (.workerCompleted workerId result) works st' := by
  unfold Op.brings
  cases hcall : st.applyCompletion proofUuid workerId result with
  | error e =>
    have hcomplete : st.completeWork proofUuid workerId result = .error e := by
      unfold EdgeProofState.completeWork
      rw [hcall]
    simp only [Op.exec, Manager.workerCompleted, hst, hcomplete] at hst' ⊢
    obtain rfl := Option.some.inj (hst.symm.trans hst')
    exact ⟨[], rfl, .stranger (.inl rfl) (stranger_of_error hcall)⟩
  | ok called =>
    obtain ⟨freed, counted⟩ := called
    cases freed with
    | false =>
      have hcomplete : st.completeWork proofUuid workerId result = .ok (none, counted) := by
        unfold EdgeProofState.completeWork
        rw [hcall]
      simp only [Op.exec, Manager.workerCompleted, hst, hcomplete] at hst' ⊢
      obtain rfl := Option.some.inj hst'
      exact ⟨[], rfl, .completed (.inl rfl) hcall (.refl _)⟩
    | true =>
      have hcomplete : st.completeWork proofUuid workerId result = .ok (counted.tryDequeueWork proofUuid) := by
        unfold EdgeProofState.completeWork
        rw [hcall]
      simp only [Op.exec, Manager.workerCompleted, hst, hcomplete] at hst' ⊢
      obtain rfl := Option.some.inj hst'
      exact ⟨_, brings_handOut _ _, .completed (.inl rfl) hcall (counted.handsOut_tryDequeueWork proofUuid)⟩

/-- Every call of the scheduler has one of these effects, and its step only sends the work handed out. -/
theorem effect_of_touches (hst : m.scheduler = some st) (htouches : op.touchesScheduler = true)
    (hst' : (op.exec proofUuid c m).state.scheduler = some st') :
    ∃ works, op.brings proofUuid c m = sendTasks works ∧ SchedulerEffect proofUuid st op works st' := by
  cases op with
  | setNumSegments n =>
    unfold Op.brings
    simp only [Op.exec, Manager.setNumSegments, hst] at hst' ⊢
    obtain rfl := Option.some.inj hst'
    exact ⟨_, brings_handOut _ _, .setNumSegments (st.handsOut_setNumSegments proofUuid n)⟩
  | workerCompleted workerId result => exact effect_workerCompleted hst workerId result hst'
  | workerDrained workerId result =>
    unfold Op.brings
    cases hcall : st.applyCompletion proofUuid workerId result with
    | error e =>
      simp only [Op.exec, Manager.workerDrained, hst, hcall, goOn] at hst' ⊢
      obtain rfl := Option.some.inj hst'
      exact ⟨[], rfl, .stranger (.inr rfl) (stranger_of_error hcall)⟩
    | ok called =>
      simp only [Op.exec, Manager.workerDrained, hst, hcall, goOn] at hst' ⊢
      obtain rfl := Option.some.inj hst'
      exact ⟨[], rfl, .completed (.inr rfl) hcall (.refl _)⟩
  | enqueue request =>
    unfold Op.brings
    simp only [Op.exec, Manager.enqueueOrAssign, hst] at hst' ⊢
    obtain rfl := Option.some.inj hst'
    exact ⟨_, brings_handOut _ _, .enqueue (st.handsOut_assignOrQueue proofUuid ⟨_, _⟩)⟩
  | releaseWorker workerId =>
    unfold Op.brings
    simp only [Op.exec, goOn, Manager.releaseWorker, hst, Option.map_some] at hst' ⊢
    obtain rfl := Option.some.inj hst'
    exact ⟨[], rfl, .releaseWorker workerId⟩
  | removeProof => simp [Op.exec, goOn] at hst'
  | _ => simp [Op.touchesScheduler] at htouches

/-- Only the segment count is recorded by a call, and by one call only. -/
theorem SchedulerEffect.numSegments {works : List AssignedWork} (h : SchedulerEffect proofUuid st op works st') :
    (∃ n, op = .setNumSegments n ∧ st'.numSegments = some n) ∨ op.learns = none ∧ st'.numSegments = st.numSegments := by
  cases h with
  | setNumSegments hout => exact .inl ⟨_, rfl, hout.numSegments⟩
  | completed hop hcall hout =>
    obtain ⟨worker, workers, -, -, -, rfl⟩ := EdgeProofState.applyCompletion_ok hcall
    exact .inr ⟨by obtain rfl | rfl := hop <;> rfl, hout.numSegments⟩
  | stranger hop hunknown => exact .inr ⟨by obtain rfl | rfl := hop <;> rfl, rfl⟩
  | enqueue hout => exact .inr ⟨rfl, hout.numSegments⟩
  | releaseWorker workerId =>
    refine .inr ⟨rfl, ?_⟩
    unfold EdgeProofState.releaseWorker
    split <;> rfl

end
end EdgeProver
