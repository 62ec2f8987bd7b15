import EdgeProver.Manager.Handles
import EdgeProver.Scheduler.Placement

/-! Work for a proof that is no longer in progress: which steps may still start some, and that nothing
else does. -/
namespace EdgeProver

def Manager.waits (m : Manager) : Bool := m.scheduler.any (!·.pending.isEmpty)

/-- The step may start work: it places a new request, dequeues a waiting one, or is on the way to the
kickoffs of `start_proof`. -/
def Op.mayStart (m : Manager) : Op → Bool
  | .enqueue _ => m.scheduler.isSome
  | .setNumSegments _ | .workerCompleted .. => m.waits
  | .takeStaged _ | .upload .. | .fanout .. => true
  | .kickoff _ remaining _ => !remaining.isEmpty
  | _ => false

/-- A call that has fetched the scheduler's entry may start work with it, in the map or not. -/
def HeldOp.mayStart (h : HeldManager) (x : HeldOp) : Bool := x.op.mayStart (x.sees h)

/-- The entry is gone or no longer in progress. -/
def Left (entry : Option ProofState) : Prop := ∀ ps, entry = some ps → ps.status ≠ .inProgress

structure Manager.Quieter (m' m : Manager) : Prop where
  scheduler : m'.scheduler.isSome = true → m.scheduler.isSome = true
  waits : m'.waits = true → m.waits = true

section
variable {proofUuid : String} {c : Choice} {m m' : Manager} {op : Op} {st st' : EdgeProofState}

namespace EdgeProofState

private theorem tryDequeueWork_empty (h : st.pending.isEmpty = true) (proofUuid : String) :
    st.tryDequeueWork proofUuid = (none, st) := by
  obtain ⟨-, hcall⟩ | ⟨item, pending, hpop, -⟩ := st.tryDequeueWork_cases proofUuid
  · exact hcall
  · have hitems := PriorityWorkQueue.items_pop hpop
    rw [PriorityWorkQueue.isEmpty_iff.mp h] at hitems
    simp at hitems

private theorem setNumSegments_empty (h : st.pending.isEmpty = true) (proofUuid : String) (n : Nat) :
    (st.setNumSegments proofUuid n).1 = [] ∧ (st.setNumSegments proofUuid n).2.pending = st.pending := by
  unfold setNumSegments drainPending
  split
  · simp only [PriorityWorkQueue.isEmpty_iff.mp h, List.length_nil, drainLoop, and_self]
  · exact ⟨rfl, rfl⟩

private theorem pending_applyCompletion {workerId : Nat} {result : ProofResult} {freed : Bool}
    (h : st.applyCompletion proofUuid workerId result = .ok (freed, st')) : st'.pending = st.pending := by
  obtain ⟨-, -, -, -, -, rfl⟩ := applyCompletion_ok h
  rfl

private theorem completeWork_empty {workerId : Nat} {result : ProofResult} {work : Option AssignedWork}
    (hempty : st.pending.isEmpty = true) (h : st.completeWork proofUuid workerId result = .ok (work, st')) :
    work = none ∧ st'.pending = st.pending := by
  unfold completeWork at h
  split at h
  · simp at h
  · rename_i freed hcall
    have hpending := pending_applyCompletion hcall
    rw [tryDequeueWork_empty (hpending ▸ hempty)] at h
    obtain ⟨rfl, rfl⟩ := Prod.mk.inj (Except.ok.inj h)
    exact ⟨rfl, hpending⟩
  · rename_i freed hcall
    obtain ⟨rfl, rfl⟩ := Prod.mk.inj (Except.ok.inj h)
    exact ⟨rfl, pending_applyCompletion hcall⟩

private theorem pending_releaseWorker (st : EdgeProofState) (workerId : Nat) :
    (st.releaseWorker workerId).pending = st.pending := by
  unfold releaseWorker
  split <;> rfl

end EdgeProofState

namespace Manager

theorem waits_eq (hst : m.scheduler = some st) : m.waits = !st.pending.isEmpty := by
  rw [waits, hst, Option.any_some]

private theorem Quieter.of_scheduler_eq (h : m'.scheduler = m.scheduler) : m'.Quieter m :=
  ⟨fun hs => h ▸ hs, fun hw => by rwa [Manager.waits, h] at hw⟩

private theorem Quieter.of_pending_eq (hst : m.scheduler = some st) (hst' : m'.scheduler = some st')
    (h : st'.pending = st.pending) : m'.Quieter m :=
  ⟨fun _ => by rw [hst, Option.isSome_some], fun hw => by rwa [waits_eq hst, ← h, ← waits_eq hst']⟩

private theorem setNumSegments_quiet (m : Manager) (proofUuid : String) (h : m.waits = false) (n : Nat) :
    (m.setNumSegments proofUuid n).1 = [] ∧ (m.setNumSegments proofUuid n).2.Quieter m := by
  unfold setNumSegments
  split
  · exact ⟨rfl, .of_scheduler_eq rfl⟩
  · rename_i st hst
    have hempty : st.pending.isEmpty = true := by simpa [waits_eq hst] using h
    obtain ⟨hworks, hpending⟩ := EdgeProofState.setNumSegments_empty hempty proofUuid n
    exact ⟨hworks, .of_pending_eq hst rfl hpending⟩

private theorem workerCompleted_quiet (m : Manager) (proofUuid : String) (h : m.waits = false) (workerId : Nat)
    (result : ProofResult) :
    (∀ work, (m.workerCompleted proofUuid workerId result).1 = .ok work → work = none) ∧
      (m.workerCompleted proofUuid workerId result).2.Quieter m := by
  unfold workerCompleted
  split
  · refine ⟨?_, .of_scheduler_eq rfl⟩
    rintro work ⟨⟩
    rfl
  · rename_i st hst
    have hempty : st.pending.isEmpty = true := by simpa [waits_eq hst] using h
    split
    · exact ⟨by simp, .of_scheduler_eq rfl⟩
    · rename_i work st' hcall
      obtain ⟨rfl, hpending⟩ := EdgeProofState.completeWork_empty hempty hcall
      refine ⟨?_, .of_pending_eq hst rfl hpending⟩
      rintro work ⟨⟩
      rfl

private theorem workerDrained_quiet (workerId : Nat) (result : ProofResult) :
    (m.workerDrained proofUuid workerId result).2.Quieter m := by
  unfold workerDrained
  split
  · exact .of_scheduler_eq rfl
  · rename_i st hst
    split
    · exact .of_scheduler_eq rfl
    · rename_i freed st' hcall
      exact .of_pending_eq hst rfl (EdgeProofState.pending_applyCompletion hcall)

private theorem releaseWorker_quiet (workerId : Nat) : (m.releaseWorker workerId).Quieter m := by
  cases hst : m.scheduler with
  | none => exact .of_scheduler_eq (by rw [releaseWorker, hst, Option.map_none])
  | some st =>
    have hst' : (m.releaseWorker workerId).scheduler = some (st.releaseWorker workerId) := by
      rw [releaseWorker, hst, Option.map_some]
    exact .of_pending_eq hst hst' (st.pending_releaseWorker workerId)

end Manager

private theorem Op.mayStart_of_quieter (h : m'.Quieter m) (hop : op.mayStart m = false) : op.mayStart m' = false := by
  rw [Bool.eq_false_iff] at hop ⊢
  cases op with
  | enqueue request => exact fun hs => hop (h.scheduler hs)
  | setNumSegments n => exact fun hw => hop (h.waits hw)
  | workerCompleted workerId result => exact fun hw => hop (h.waits hw)
  | _ => exact hop

/-- A step that may start nothing hands out nothing, starts no task, and lets nothing more be started. -/
theorem exec_quiet (proofUuid : String) (c : Choice) (h : op.mayStart m = false) :
    (op.exec proofUuid c m).result = ⟨[], []⟩ ∧
    (op.exec proofUuid c m).spawned = [] ∧ (op.exec proofUuid c m).state.Quieter m := by
  have hkeep : m.Quieter m := .of_scheduler_eq rfl
  cases op with
  | setNumSegments n =>
    obtain ⟨hworks, hquiet⟩ := m.setNumSegments_quiet proofUuid h n
    simp only [Op.exec, handOut, hworks, List.map_nil, true_and]
    exact hquiet
  | workerCompleted workerId result =>
    obtain ⟨hworks, hquiet⟩ := m.workerCompleted_quiet proofUuid h workerId result
    simp only [Op.exec]
    split
    · rename_i work hcall
      rw [hworks work hcall]
      exact ⟨rfl, rfl, hquiet⟩
    · exact ⟨rfl, rfl, hquiet⟩
  | enqueue request =>
    have hnone : m.scheduler = none := by simpa [Op.mayStart] using h
    simp only [Op.exec, Manager.enqueueOrAssign, hnone]
    exact ⟨rfl, rfl, hkeep⟩
  | takeStaged | upload | fanout => simp [Op.mayStart] at h
  | kickoff appWorkers remaining failures =>
    have hnone : remaining = [] := by simpa [Op.mayStart] using h
    subst hnone
    exact ⟨rfl, rfl, hkeep⟩
  | workerDrained workerId result => exact ⟨rfl, rfl, Manager.workerDrained_quiet workerId result⟩
  | releaseWorker workerId => exact ⟨rfl, rfl, Manager.releaseWorker_quiet workerId⟩
  | removeProof => exact ⟨rfl, rfl, by simp [Op.exec, goOn], by simp [Op.exec, goOn, Manager.waits]⟩
  | process workerId envelope =>
    simp only [Op.exec]
    split
    · exact ⟨rfl, rfl, hkeep⟩
    · split <;> exact ⟨rfl, rfl, .of_scheduler_eq rfl⟩
  | evict | checkFailing | timeoutCheck =>
    simp only [Op.exec]
    split
    · exact ⟨rfl, rfl, hkeep⟩
    · first
        | exact ⟨rfl, rfl, hkeep⟩
        | split <;> exact ⟨rfl, rfl, .of_scheduler_eq rfl⟩
  | send work retries =>
    simp only [Op.exec]
    split
    · exact ⟨rfl, rfl, hkeep⟩
    · split <;> exact ⟨rfl, rfl, hkeep⟩
  | _ => exact ⟨rfl, rfl, .of_scheduler_eq rfl⟩

/-- A proof that is not in progress never is again. -/
theorem left_write {entry : Option ProofState} (h : Left entry) : Left (entry.bind (op.writeProof proofUuid c)) := by
  cases entry with
  | none => exact h
  | some ps =>
    intro ps' hps'
    rcases writeProof_status_of_over (h ps rfl) hps' with hkeep | ⟨reason, hfailed, -⟩
    · exact hkeep ▸ h ps rfl
    · simp [hfailed]

private theorem mayStart_of_isRequest {task : List Op} (h : isRequest task = true) (m : Manager) :
    ∀ op ∈ task, op.mayStart m = false := by
  unfold isRequest at h
  split at h
  · simp [Op.mayStart]
  · simp [Op.mayStart]
  · simp [Op.mayStart]
  · simp [Op.mayStart]
  · simp at h

/-- With the proof no longer in progress, such a step leads to no other one that may start work. -/
theorem next_quiet (hleft : Left m.proof) (h : op.mayStart m = false) :
    ∀ op' ∈ (op.exec proofUuid c m).next, op'.mayStart m = false := by
  intro op' hop'
  cases op with
  | process workerId envelope =>
    simp only [Op.exec] at hop'
    split at hop'
    · simp [goOn] at hop'
    · split at hop'
      · simp [goOn] at hop'
      · rename_i ps hps
        rw [ProofState.handleProofResultWithEnvelopeOutcome,
          if_pos (ProofState.sealed_of_status (hleft ps hps))] at hop'
        simp only [goOn, afterProcess] at hop'
        split at hop' <;> grind [Op.mayStart]
  | takeStaged | upload | fanout => simp [Op.mayStart] at h
  | kickoff appWorkers remaining failures =>
    have hnone : remaining = [] := by simpa [Op.mayStart] using h
    subst hnone
    simp only [Op.exec, goOn, afterKickoff] at hop'
    split at hop' <;> grind [Op.mayStart]
  | setNumSegments n => simp [Op.exec, handOut] at hop'
  | enqueue request => simp [Op.exec, handOut] at hop'
  | workerCompleted workerId result =>
    simp only [Op.exec] at hop'
    split at hop' <;> simp [goOn, handOut] at hop'
  | evict | checkFailing | timeoutCheck now =>
    simp only [Op.exec] at hop'
    split at hop'
    · simp [goOn] at hop'
    · split at hop' <;> grind [goOn, Op.mayStart]
  | finalizeUnlessFailing | checkDrained ttlExpired =>
    simp only [Op.exec, goOn] at hop'
    split at hop' <;> grind [finalizeProof, Op.mayStart]
  | send work retries =>
    simp only [Op.exec] at hop'
    split at hop'
    · split at hop' <;> grind [goOn, Op.mayStart]
    · split at hop' <;> grind [goOn, Op.mayStart]
  | cancel =>
    simp [Op.exec, goOn] at hop'
    grind [Op.mayStart]
  | recordDeferral | restage | abort | workerDrained | markFailing | transition | removeStaged | persist | removeProof
  | releaseWorker | dispatchFailed => simp [Op.exec, goOn] at hop'

theorem Manager.Quieter.visible (h : m'.Quieter m) (removed : Bool) :
    (HeldManager.visible ⟨m', removed⟩).Quieter (HeldManager.visible ⟨m, removed⟩) := by
  cases removed with
  | true => exact .of_scheduler_eq rfl
  | false => exact ⟨h.scheduler, h.waits⟩

private theorem HeldManager.visible_quieter (h : HeldManager) : h.visible.Quieter h.manager := by
  cases hremoved : h.removed with
  | true => exact ⟨by simp [visible, hremoved], by simp [visible, hremoved, Manager.waits]⟩
  | false => rw [visible_of_not_removed hremoved]; exact .of_scheduler_eq rfl

/-- Whether an entry is in the map or held, no more can be started with it than before. -/
structure HeldManager.Quieter (h' h : HeldManager) : Prop where
  held : h'.manager.Quieter h.manager
  found : h'.visible.Quieter h.visible

private theorem HeldOp.mayStart_of_quieter {h h' : HeldManager} {x : HeldOp} (hquieter : h'.Quieter h)
    (hx : x.mayStart h = false) : x.mayStart h' = false := by
  cases x with
  | step op => exact Op.mayStart_of_quieter hquieter.found hx
  | locked op => exact Op.mayStart_of_quieter hquieter.held hx

private theorem held_quiet {h : HeldManager} {x : HeldOp} (proofUuid : String) (c : Choice)
    (hx : x.mayStart h = false) :
    (x.exec proofUuid c h).result = ⟨[], []⟩ ∧
    (x.exec proofUuid c h).spawned = [] ∧ (x.exec proofUuid c h).state.Quieter h := by
  obtain ⟨hresult, hspawned, hquieter⟩ := exec_quiet proofUuid c hx
  obtain ⟨op, rfl, -, hexec⟩ | ⟨op, h', rfl, hexec, hvisible, hsame, -⟩ | ⟨op, rfl, hexec⟩ :=
    x.exec_cases proofUuid c h
  · rw [hexec]
    exact ⟨rfl, rfl, .of_scheduler_eq rfl, .of_scheduler_eq rfl⟩
  · rw [hexec]
    refine ⟨hresult, ?_, .of_scheduler_eq hsame, hvisible ▸ hquieter⟩
    rw [OpOutcome.held, show (op.exec proofUuid c h.visible).spawned = [] from hspawned, List.map_nil]
  · rw [hexec]
    refine ⟨hresult, ?_, hquieter, hquieter.visible h.removed⟩
    rw [OpOutcome.held, show (op.exec proofUuid c h.manager).spawned = [] from hspawned, List.map_nil]

private theorem left_held {h : HeldManager} {x : HeldOp} (hleft : Left h.manager.proof) :
    Left (x.exec proofUuid c h).state.manager.proof := by
  obtain ⟨op, rfl, -, hexec⟩ | ⟨op, h', rfl, hexec, hvisible, -, -⟩ | ⟨op, rfl, hexec⟩ :=
    x.exec_cases proofUuid c h
  · rwa [hexec]
  · rw [hexec, OpOutcome.held, show h'.manager.proof = h'.visible.proof from rfl, hvisible, exec_proof]
    exact left_write hleft
  · rw [hexec, OpOutcome.held, exec_proof]
    exact left_write hleft

private theorem held_next_quiet {h : HeldManager} {x : HeldOp} (hleft : Left h.manager.proof)
    (hx : x.mayStart h = false) :
    ∀ x' ∈ (x.exec proofUuid c h).next, x'.mayStart h = false := by
  intro x' hx'
  obtain ⟨op, rfl, hkept, hexec⟩ | ⟨op, h', rfl, hexec, -⟩ | ⟨op, rfl, hexec⟩ := x.exec_cases proofUuid c h
  · rw [hexec, List.mem_singleton] at hx'
    subst hx'
    rwa [HeldOp.mayStart, HeldOp.sees, ← HeldManager.visible_of_not_removed hkept]
  · rw [hexec] at hx'
    obtain ⟨op', hop', rfl⟩ := List.mem_map.mp hx'
    exact next_quiet (m := h.visible) hleft hx op' hop'
  · rw [hexec] at hx'
    obtain ⟨op', hop', rfl⟩ := List.mem_map.mp hx'
    exact Op.mayStart_of_quieter h.visible_quieter (next_quiet hleft hx op' hop')

end

/-- Once a proof is no longer in progress and nothing in flight may start work for it, no step of any later
interleaving hands out work or sends a kickoff. -/
theorem nothing_handed_out {proofUuid : String} {V V' : HeldWorld} (hleft : Left V.state.manager.proof)
    (hquiet : ∀ x ∈ V.ops, x.mayStart V.state = false) (hrun : HeldRun proofUuid HeldRequests V V') :
    ∀ x ∈ V'.ops, ∀ c, (x.exec proofUuid c V'.state).result = ⟨[], []⟩ := by
  let I (U : HeldWorld) := Left U.state.manager.proof ∧ ∀ x ∈ U.ops, x.mayStart U.state = false
  suffices I V' by
    intro x hx c
    exact (held_quiet proofUuid c (this.2 x hx)).1
  refine TaskPool.Run.invariant (I := I) ?_ ⟨hleft, hquiet⟩ hrun
  intro U l U' hU hl hstep
  cases l with
  | arrive task =>
    cases hstep
    obtain ⟨request, hrequest, rfl⟩ := hl
    refine ⟨hU.1, fun x hx => ?_⟩
    rcases List.mem_append.mp (TaskPool.ops_arrive (request.map HeldOp.step) ▸ hx) with hx | hx
    · obtain ⟨op, hop, rfl⟩ := List.mem_map.mp hx
      exact mayStart_of_isRequest hrequest U.state.visible op hop
    · exact hU.2 x hx
  | run x c =>
    obtain ⟨hstate, others, hold, hnew⟩ := TaskPool.ops_run hstep
    have hx := hU.2 x (TaskPool.op_mem hstep)
    obtain ⟨-, hspawned, hquieter⟩ := held_quiet proofUuid c hx
    rw [hspawned, List.flatten_nil, List.append_nil] at hnew
    rw [← hstate] at hquieter
    refine ⟨hstate ▸ left_held hU.1, fun x' hx' => HeldOp.mayStart_of_quieter hquieter ?_⟩
    rcases List.mem_append.mp (hnew.mem_iff.mp hx') with hx' | hx'
    · exact held_next_quiet hU.1 hx x' hx'
    · exact hU.2 x' (hold.mem_iff.mpr (List.mem_cons_of_mem _ hx'))

abbrev HeldMoves := List (TaskPool.Move Choice HeldOp)

def requestHeld (request : List Op) (steps : Nat) : HeldMoves :=
  .arrive (request.map .step) :: List.replicate steps (.run 0 sampleChoice)

def deliverHeld (result : ProofResult) (steps : Nat) : HeldMoves := requestHeld (resultTask 0 ⟨0, "", result⟩) steps

/-- Worker 0 has finished its shard, and the handler of its result has yet to fetch the scheduler's entry for
the first leaf. -/
def leafMoves : HeldMoves :=
  List.replicate 3 (.run 0 sampleChoice) ++ deliverHeld (sampleE2 1) 7 ++ deliverHeld (sampleApp 0) 5

def onlyHeldRequests (_ : HeldWorld) : HeldLabel → Bool
  | .arrive task => isRequest (task.map HeldOp.op) && task.all (!·.isLocked)
  | .run _ _ => true

private theorem heldRequests_of_onlyHeldRequests (V : HeldWorld) (l : HeldLabel) (h : onlyHeldRequests V l = true) :
    HeldRequests V l := by
  cases l with
  | arrive task =>
    obtain ⟨hrequest, hsteps⟩ := (Bool.and_eq_true _ _).mp h
    refine ⟨task.map HeldOp.op, hrequest, ?_⟩
    rw [List.map_map]
    refine (List.map_id task).symm.trans (List.map_congr_left fun x hx => ?_)
    cases x with
    | step op => rfl
    | locked op => simpa [HeldOp.isLocked] using List.all_eq_true.mp hsteps _ hx
  | run x c => trivial

/-- Once the status has left `InProgress`, no step of any interleaving hands out anything of this kind. -/
def NothingLate {α : Type} (kind : Handed → List α) : Prop :=
  ∀ (p : TreeParams) (fleet : List (Nat × RegisteredWorker)) (leafPackThreshold maxLeafProvers : Nat)
    (staged : Option StagedInputs) (inputAlreadyUploaded : Bool) (V : HeldWorld),
    HeldRun p.context.proofUuid HeldRequests
      (World.admitted p fleet leafPackThreshold maxLeafProvers staged inputAlreadyUploaded).held V →
    Left V.state.manager.proof → ∀ x ∈ V.ops, ∀ c, kind (x.exec p.context.proofUuid c V.state).result = []

/-- The proof is over, and the next step of this task hands out something of this kind. -/
def handsOutLate {α : Type} (kind : Handed → List α) (index : Nat) (V : HeldWorld) : Bool :=
  V.state.manager.proof.all (!·.status.isInProgress) &&
    match V.tasks[index]? with
    | some (x :: _) => !(kind (x.exec "proof" sampleChoice V.state).result).isEmpty
    | _ => false

private theorem left_of_all {entry : Option ProofState} (h : entry.all (!·.status.isInProgress) = true) :
    Left entry := by
  rintro ps rfl hst
  simp [hst, ProofStatus.isInProgress] at h

private theorem not_nothingLate {α : Type} {kind : Handed → List α} (index : Nat) (moves : HeldMoves)
    (h : (sampleAdmitted.held.play (HeldOp.exec "proof") onlyHeldRequests moves).any (handsOutLate kind index) = true) :
    ¬ NothingLate kind := by
  intro hall
  obtain ⟨V, hrun, hV⟩ := TaskPool.exists_run_of_play _ _ _ _ _ h
  obtain ⟨hover, hlate⟩ := (Bool.and_eq_true _ _).mp hV
  have hleft := left_of_all hover
  have hnone := hall (sampleParams .stark) sampleFleet 4 1 none true V
    (hrun.mono heldRequests_of_onlyHeldRequests) hleft
  split at hlate
  · rename_i x rest hx
    have hmem : x ∈ V.ops := List.mem_flatten.mpr ⟨_, List.mem_of_getElem? hx, List.mem_cons_self⟩
    simp [show kind (x.exec "proof" sampleChoice V.state).result = [] from hnone x hmem sampleChoice] at hlate
  · simp at hlate

/-- A kickoff is sent when the status is `Canceled` already; and a handler that has fetched the scheduler's entry
assigns its leaf even when the cancellation has run to its end. -/
theorem handed_out_late : ¬ NothingLate Handed.works ∧ ¬ NothingLate Handed.kickoffs := by
  constructor
  · exact not_nothingLate 1 (leafMoves ++ [.run 0 sampleChoice] ++ requestHeld cancelTask 3) (by decide +kernel)
  · exact not_nothingLate 1 ([.run 0 sampleChoice] ++ requestHeld cancelTask 1) (by decide +kernel)

/-- The leaf was sent before the proof was canceled: nothing else is, when its result comes in. -/
theorem nothing_handed_out_sample : ∃ V' : HeldWorld, V'.state.manager.proof.any (·.status == .canceled) = true ∧
    V'.ops.length = 3 ∧ ∀ x ∈ V'.ops, ∀ c, (x.exec "proof" c V'.state).result = ⟨[], []⟩ := by
  obtain ⟨V, -, hV⟩ := TaskPool.exists_run_of_play (HeldOp.exec "proof") onlyHeldRequests sampleAdmitted.held
    (leafMoves ++ List.replicate 3 (.run 0 sampleChoice) ++ requestHeld cancelTask 1)
    (fun V => V.state.manager.proof.all (!·.status.isInProgress) && (V.ops.all (!·.mayStart V.state) &&
      (V.play (HeldOp.exec "proof") onlyHeldRequests (deliverHeld (sampleLeaf 0) 1)).any
        fun V' => V'.state.manager.proof.any (·.status == .canceled) && V'.ops.length == 3)) (by decide +kernel)
  obtain ⟨hover, hrest⟩ := (Bool.and_eq_true _ _).mp hV
  obtain ⟨hquiet, hplay⟩ := (Bool.and_eq_true _ _).mp hrest
  obtain ⟨V', hrun, hV'⟩ := TaskPool.exists_run_of_play _ _ _ _ _ hplay
  obtain ⟨hcanceled, hlength⟩ := (Bool.and_eq_true _ _).mp hV'
  refine ⟨V', hcanceled, by simpa using hlength, ?_⟩
  exact nothing_handed_out (left_of_all hover) (by simpa using hquiet) (hrun.mono heldRequests_of_onlyHeldRequests)

end EdgeProver
