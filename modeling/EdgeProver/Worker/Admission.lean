import EdgeProver.Config
import EdgeProver.Lib.KeyedList
import EdgeProver.Scheduler.Conservation
import EdgeProver.Worker.ProverPool

/-! A worker's admission of recursion work, and the manager's slots against its prover threads. -/
namespace EdgeProver

/-- What of a worker `handle_recursion_prove` reads and fills; `evm` are its EVM steps under way. -/
structure WorkerPools where
  leaf : ProverPool EdgeWorkItem
  internal : ProverPool EdgeWorkItem
  evm : List EdgeWorkItem

inductive StatusCode where
  | ok
  | badRequest
  | serviceUnavailable
  deriving DecidableEq, Repr

namespace WorkerPools

/-- `ProverPool::new`: the role gates the pool sizes. -/
def new (config : ProversConfig) (role : WorkerRole) : WorkerPools where
  leaf := .new (if role.runsStarkProving then config.maxLeafProvers else 0)
  internal := .new (if role.runsStarkProving then config.maxInternalProvers else 0)
  evm := []

/-- `decode` is the proof decoder; the first proof it refuses fails the request. -/
def handleRecursionProve (decode : ProofBytes → Except String Unit) (pools : WorkerPools) (item : EdgeWorkItem) :
    (StatusCode × String) × WorkerPools :=
  match item.envelope.message with
  | .leafProve req =>
    if !pools.leaf.hasAvailableWorker then ((.serviceUnavailable, "No available leaf workers"), pools)
    else
      match req.appProofs.mapM decode with
      | .error e => ((.badRequest, s!"Invalid app proofs: {e}"), pools)
      | .ok _ => ((.ok, "Work completed"), { pools with leaf := pools.leaf.submit item })
  | .internalProve req =>
    if !pools.internal.hasAvailableWorker then ((.serviceUnavailable, "No available internal workers"), pools)
    else
      match req.childProofs.mapM decode with
      | .error e => ((.badRequest, s!"Invalid child proofs: {e}"), pools)
      | .ok _ => ((.ok, "Work completed"), { pools with internal := pools.internal.submit item })
  | .evmProve _ => ((.ok, "Work completed"), { pools with evm := item :: pools.evm })

def jobs (pools : WorkerPools) : List EdgeWorkItem := pools.leaf.jobs ++ (pools.internal.jobs ++ pools.evm)

end WorkerPools

/-- One move inside a worker: a prover thread or a submitter. -/
inductive PoolsStep (pools : WorkerPools) : WorkerPools → Prop
  | leaf {pool : ProverPool EdgeWorkItem} (hstep : PoolStep pools.leaf pool) :
    PoolsStep pools { pools with leaf := pool }
  | internal {pool : ProverPool EdgeWorkItem} (hstep : PoolStep pools.internal pool) :
      PoolsStep pools { pools with internal := pool }

inductive Posts (pools : WorkerPools) (item : EdgeWorkItem) : WorkerPools → Prop
  | leaf (hitem : item ∈ pools.leaf.finished) :
      Posts pools item { pools with leaf := { pools.leaf with finished := pools.leaf.finished.erase item } }
  | internal (hitem : item ∈ pools.internal.finished) :
      Posts pools item { pools with internal := { pools.internal with finished := pools.internal.finished.erase item } }
  | evm (hitem : item ∈ pools.evm) : Posts pools item { pools with evm := pools.evm.erase item }

/-- The scheduler of a proof with its workers and the dispatches under way to them. -/
structure Deployment where
  ledger : Ledger
  inFlight : List (Nat × EdgeWorkItem)
  pools : Nat → WorkerPools

def roleOf (fleet : List (Nat × RegisteredWorker)) (id : Nat) : WorkerRole :=
  ((fleet.lookup id).map (·.workerRole)).getD .evmDedicated

namespace Deployment

def start (config : ProversConfig) (fleet : List (Nat × RegisteredWorker)) (leafPackThreshold : Nat) : Deployment where
  ledger := .start fleet leafPackThreshold config.maxLeafProvers
  inFlight := []
  pools id := .new config (roleOf fleet id)

/-- The ledger moved on, and what it gave out is on its way. -/
def dispatch (D : Deployment) (ledger : Ledger) : Deployment :=
  { D with ledger := ledger, inFlight := D.ledger.newWork ledger ++ D.inFlight }

end Deployment

/-- Scheduler calls, deliveries, prover threads and result posts of a run over `n` segments. A result is
posted by the task that the prover thread sent it to. -/
inductive DeploymentStep (decode : ProofBytes → Except String Unit) (proofUuid : String) (n : Nat) (D : Deployment) :
    Deployment → Prop
  | schedule {L : Ledger} (hstep : LedgerStep proofUuid n D.ledger L) (hreports : L.completed = D.ledger.completed) :
      DeploymentStep decode proofUuid n D (D.dispatch L)
  | deliver (id : Nat) (item : EdgeWorkItem) (hitem : (id, item) ∈ D.inFlight) :
      DeploymentStep decode proofUuid n D
        { D with
          inFlight := D.inFlight.erase (id, item)
          pools := Function.update D.pools id ((D.pools id).handleRecursionProve decode item).2 }
  | prove (id : Nat) {pools : WorkerPools} (hstep : PoolsStep (D.pools id) pools) :
      DeploymentStep decode proofUuid n D { D with pools := Function.update D.pools id pools }
  | post (id : Nat) (item : EdgeWorkItem) (result : ProofResult) {pools : WorkerPools}
      (hpost : Posts (D.pools id) item pools) (hresult : result.completedStep = some item.step) :
      DeploymentStep decode proofUuid n D
        ({ D with pools := Function.update D.pools id pools }.dispatch
          ((D.ledger.reportItem id item).complete proofUuid id result))

inductive DeploymentRun (decode : ProofBytes → Except String Unit) (config : ProversConfig)
    (fleet : List (Nat × RegisteredWorker)) (leafPackThreshold : Nat) (proofUuid : String) (n : Nat) : Deployment → Prop
  | start : DeploymentRun decode config fleet leafPackThreshold proofUuid n (.start config fleet leafPackThreshold)
  | step {D D' : Deployment} (hrun : DeploymentRun decode config fleet leafPackThreshold proofUuid n D)
      (hstep : DeploymentStep decode proofUuid n D D') :
      DeploymentRun decode config fleet leafPackThreshold proofUuid n D'

/-- What holds of the pools of one worker with these items on their way to it: they are sound and of
the configured size, and nothing is there or arriving that the ledger does not have on the worker. -/
structure PoolsFit (pools : WorkerPools) (config : ProversConfig) (role : WorkerRole)
    (arriving held : List EdgeWorkItem) : Prop where
  leafSound : pools.leaf.Sound
  internalSound : pools.internal.Sound
  leafSize : pools.leaf.workers.length = if role.runsStarkProving then config.maxLeafProvers else 0
  internalSize : pools.internal.workers.length = if role.runsStarkProving then config.maxInternalProvers else 0
  leafKind : ∀ item ∈ pools.leaf.jobs, item.step = .leafProve
  internalKind : ∀ item ∈ pools.internal.jobs, item.step = .internalProve
  load : (arriving ++ pools.jobs).Subperm held

namespace PoolsFit
variable {pools pools' : WorkerPools} {config : ProversConfig} {role : WorkerRole} {item : EdgeWorkItem}
  {arriving arriving' held held' : List EdgeWorkItem}

theorem mono (h : PoolsFit pools config role arriving held) (hload : (arriving' ++ pools.jobs).Subperm held') :
    PoolsFit pools config role arriving' held' := { h with load := hload }

theorem new (config : ProversConfig) (role : WorkerRole) : PoolsFit (.new config role) config role [] [] := by
  refine ⟨ProverPool.sound_new _, ProverPool.sound_new _, List.length_replicate, List.length_replicate, ?_, ?_, ?_⟩ <;>
    simp [WorkerPools.new, WorkerPools.jobs, ProverPool.new, ProverPool.jobs, WorkerHandle.ready, WorkerHandle.jobs,
      ThreadPhase.jobs, List.flatMap_replicate]

/-- The threads only move the jobs about. -/
theorem jobs_perm (hstep : PoolsStep pools pools') : pools'.jobs.Perm pools.jobs := by
  cases hstep with
  | leaf hstep => exact (ProverPool.jobs_step hstep).append_right _
  | internal hstep => exact ((ProverPool.jobs_step hstep).append_right _).append_left _

theorem step (h : PoolsFit pools config role arriving held) (hstep : PoolsStep pools pools') :
    PoolsFit pools' config role arriving held := by
  have hload := ((jobs_perm hstep).append_left arriving).subperm.trans h.load
  cases hstep with
  | leaf hstep =>
    exact { h with
      leafSound := h.leafSound.step hstep
      leafSize := (ProverPool.workers_length_step hstep).trans h.leafSize
      leafKind := fun x hx => h.leafKind x ((ProverPool.jobs_step hstep).mem_iff.mp hx)
      load := hload }
  | internal hstep =>
    exact { h with
      internalSound := h.internalSound.step hstep
      internalSize := (ProverPool.workers_length_step hstep).trans h.internalSize
      internalKind := fun x hx => h.internalKind x ((ProverPool.jobs_step hstep).mem_iff.mp hx)
      load := hload }

/-- A request that is admitted becomes a job, one that is not disappears. -/
theorem deliver (h : PoolsFit pools config role (item :: arriving) held) (hwell : item.WellFormed)
    (decode : ProofBytes → Except String Unit) :
    PoolsFit (pools.handleRecursionProve decode item).2 config role arriving held := by
  have hlost : PoolsFit pools config role arriving held :=
    h.mono ((List.sublist_cons_self _ _).subperm.trans h.load)
  have hmoved {jobs : List EdgeWorkItem} (hjobs : jobs.Perm (item :: pools.jobs)) : (arriving ++ jobs).Subperm held :=
    ((hjobs.append_left _).trans List.perm_middle).subperm.trans h.load
  unfold WorkerPools.handleRecursionProve
  split
  · rename_i req hreq
    split
    · exact hlost
    · split
      · exact hlost
      · refine { hlost with leafSound := h.leafSound, leafKind := ?_, load := hmoved (List.Perm.refl _) }
        refine List.forall_mem_cons.mpr ⟨?_, h.leafKind⟩
        rw [hwell, hreq]
        rfl
  · rename_i req hreq
    split
    · exact hlost
    · split
      · exact hlost
      · refine { hlost with internalSound := h.internalSound, internalKind := ?_, load := hmoved List.perm_middle }
        refine List.forall_mem_cons.mpr ⟨?_, h.internalKind⟩
        rw [hwell, hreq]
        rfl
  · refine { hlost with load := hmoved ?_ }
    exact (List.perm_middle.append_left pools.leaf.jobs).trans List.perm_middle

theorem posts_perm (hpost : Posts pools item pools') : pools.jobs.Perm (item :: pools'.jobs) := by
  cases hpost with
  | leaf hitem => exact (ProverPool.jobs_post hitem).append_right _
  | internal hitem => exact (((ProverPool.jobs_post hitem).append_right _).append_left _).trans List.perm_middle
  | evm hitem =>
    exact (((List.perm_cons_erase hitem).append_left _).append_left _).trans
      ((List.perm_middle.append_left _).trans List.perm_middle)

/-- A posted result takes its job off the pool, and its item off the ledger. -/
theorem post (h : PoolsFit pools config role arriving (item :: held)) (hpost : Posts pools item pools') :
    PoolsFit pools' config role arriving held := by
  have hload : (arriving ++ pools'.jobs).Subperm held := by
    have hjobs := ((posts_perm hpost).append_left arriving).trans List.perm_middle
    exact (List.subperm_cons item).mp (hjobs.symm.subperm.trans h.load)
  cases hpost with
  | leaf hitem =>
    exact { h with
      leafSound := h.leafSound
      leafKind := fun x hx => h.leafKind x ((ProverPool.jobs_post hitem).mem_iff.mpr (List.mem_cons_of_mem _ hx))
      load := hload }
  | internal hitem =>
    exact { h with
      internalSound := h.internalSound
      internalKind := fun x hx =>
        h.internalKind x ((ProverPool.jobs_post hitem).mem_iff.mpr (List.mem_cons_of_mem _ hx))
      load := hload }
  | evm hitem => exact { h with load := hload }

/-- An item that arrives finds a thread of its pool idle, where at most as many items of its step are held as the pool
has threads. -/
theorem available (h : PoolsFit pools config role arriving held) {pool : ProverPool EdgeWorkItem} (hsound : pool.Sound)
    (hjobs : pool.jobs.Sublist pools.jobs) (hkind : ∀ x ∈ pool.jobs, x.step = item.step) (hitem : item ∈ arriving)
    (hroom : held.countP (·.step = item.step) ≤ pool.workers.length) : pool.hasAvailableWorker = true := by
  by_contra hbusy
  have hthreads := ProverPool.workers_le_jobs hsound (by simpa using hbusy)
  have hload := h.load.countP_le (·.step = item.step)
  have hall : pool.jobs.countP (·.step = item.step) = pool.jobs.length :=
    List.countP_eq_length.mpr fun x hx => by simpa using hkind x hx
  have hcount := hjobs.countP_le (p := (·.step = item.step))
  rw [List.countP_append] at hload
  have harriving : 0 < arriving.countP (·.step = item.step) := List.countP_pos_iff.mpr ⟨item, hitem, by simp⟩
  omega

end PoolsFit

section Run
variable {decode : ProofBytes → Except String Unit} {config : ProversConfig} {fleet : List (Nat × RegisteredWorker)}
  {leafPackThreshold n : Nat} {proofUuid : String} {D D' : Deployment}

/-- The scheduler made a run of its own, and every worker's pools fit the ledger. -/
structure Fits (config : ProversConfig) (fleet : List (Nat × RegisteredWorker)) (leafPackThreshold : Nat)
    (proofUuid : String) (n : Nat) (D : Deployment) : Prop where
  run : LedgerRun fleet leafPackThreshold config.maxLeafProvers proofUuid n D.ledger
  fit : ∀ id, PoolsFit (D.pools id) config (roleOf fleet id) (ofWorker id D.inFlight) (D.ledger.heldBy id)

private theorem PoolsFit.dispatch {pools : WorkerPools} {role : WorkerRole} {id : Nat} {L L' : Ledger}
    {inFlight held : List (Nat × EdgeWorkItem)}
    (h : PoolsFit pools config role (ofWorker id inFlight) (ofWorker id held))
    (hheld : L'.held.Perm (L.newWork L' ++ held)) :
    PoolsFit pools config role (ofWorker id (L.newWork L' ++ inFlight)) (L'.heldBy id) := by
  refine h.mono ?_
  have hperm : (L'.heldBy id).Perm (ofWorker id (L.newWork L') ++ ofWorker id held) :=
    ofWorker_append ▸ ofWorker_perm hheld
  rw [ofWorker_append, List.append_assoc]
  exact ((List.subperm_append_left _).mpr h.load).trans hperm.symm.subperm

private theorem held_step {L L' : Ledger} (hstep : LedgerStep proofUuid n L L')
    (hreports : L'.completed = L.completed) :
    L'.held.Perm (L.newWork L' ++ L.held) := by
  cases hstep with
  | enqueue item hitem hevm => exact (Ledger.held_after { L with enqueued := item :: L.enqueued } _ _).1
  | setNumSegments hunknown => exact (L.held_after _ _).1
  | reportApp worker appProof => exact ((L.reportSegment worker.id appProof.state.segmentIdx).held_complete _ _ _).1
  | reportE2 workerId result => exact (L.held_complete _ _ _).1
  | reportItem workerId item result hheld hresult =>
    have hmore := ((L.reportItem workerId item).held_complete proofUuid workerId result).2
    exact absurd (hmore.symm.trans hreports) (List.cons_ne_self _ _)

namespace Fits

theorem start : Fits config fleet leafPackThreshold proofUuid n (.start config fleet leafPackThreshold) :=
  ⟨.start, fun id => PoolsFit.new config (roleOf fleet id)⟩

theorem step (h : Fits config fleet leafPackThreshold proofUuid n D) (hids : (fleet.map Prod.fst).Nodup)
    (hstark : ∃ entry ∈ fleet, entry.2.workerRole.runsStarkProving = true)
    (hstep : DeploymentStep decode proofUuid n D D') : Fits config fleet leafPackThreshold proofUuid n D' := by
  have hkept := (settled_of_run hids hstark h.run).kept
  cases hstep with
  | schedule hstep hreports =>
    exact ⟨h.run.step hstep, fun id => (h.fit id).dispatch (held_step hstep hreports)⟩
  | deliver id item hitem =>
    refine ⟨h.run, fun other => ?_⟩
    have harriving := ofWorker_erase hitem other
    have hfit := h.fit other
    by_cases he : id = other
    · subst he
      rw [if_pos rfl] at harriving
      have hheld : (id, item) ∈ D.ledger.held := by
        refine mem_ofWorker.mp (hfit.load.subset ?_)
        exact List.mem_append_left _ (harriving.mem_iff.mpr List.mem_cons_self)
      have hwell := hkept.wellFormed item (hkept.held_enqueued hheld)
      simp only [Function.update_self]
      exact (hfit.mono ((harriving.symm.append_right _).subperm.trans hfit.load)).deliver hwell decode
    · rw [if_neg he] at harriving
      simp only [Function.update_of_ne (Ne.symm he)]
      exact hfit.mono ((harriving.symm.append_right _).subperm.trans hfit.load)
  | prove id hstep =>
    refine ⟨h.run, fun other => ?_⟩
    by_cases he : other = id
    · subst he
      simp only [Function.update_self]
      exact (h.fit other).step hstep
    · simp only [Function.update_of_ne he]
      exact h.fit other
  | @post id item result pools hpost hresult =>
    have hmem : item ∈ (D.pools id).jobs := (PoolsFit.posts_perm hpost).mem_iff.mpr List.mem_cons_self
    have hheld : (id, item) ∈ D.ledger.held :=
      mem_ofWorker.mp ((h.fit id).load.subset (List.mem_append_right _ hmem))
    refine ⟨h.run.step (.reportItem id item result hheld hresult), fun other => ?_⟩
    have hout : ((D.ledger.reportItem id item).complete proofUuid id result).held.Perm
        (D.ledger.newWork _ ++ D.ledger.held.erase (id, item)) :=
      ((D.ledger.reportItem id item).held_complete proofUuid id result).1
    have hleft := ofWorker_erase hheld other
    have hfit := h.fit other
    change PoolsFit (Function.update D.pools id pools other) config _ _ _
    refine PoolsFit.dispatch ?_ hout
    by_cases he : id = other
    · subst he
      rw [if_pos rfl] at hleft
      simp only [Function.update_self]
      exact (hfit.mono (hfit.load.trans hleft.subperm)).post hpost
    · rw [if_neg he] at hleft
      simp only [Function.update_of_ne (Ne.symm he)]
      exact hfit.mono (hfit.load.trans hleft.subperm)

end Fits

private theorem fits_of_run (hids : (fleet.map Prod.fst).Nodup)
    (hstark : ∃ entry ∈ fleet, entry.2.workerRole.runsStarkProving = true)
    (hrun : DeploymentRun decode config fleet leafPackThreshold proofUuid n D) :
    Fits config fleet leafPackThreshold proofUuid n D := by
  induction hrun with
  | start => exact Fits.start
  | step _ hstep ih => exact ih.step hids hstark hstep

private theorem roleOf_eq {L : Ledger} {maxLeafProvers : Nat}
    (hids : (fleet.map Prod.fst).Nodup) (hrun : LedgerRun fleet leafPackThreshold maxLeafProvers proofUuid n L)
    {w : EdgeWorkerState} (hw : w ∈ L.st.workers) : roleOf fleet w.id = w.workerRole := by
  have hconfig := congrArg (·.workers) (config_of_run hrun)
  have hmem : (w.id, w.workerUrl, w.workerRole) ∈ L.st.config.workers :=
    List.mem_map_of_mem (f := fun w : EdgeWorkerState => (w.id, w.workerUrl, w.workerRole)) hw
  rw [hconfig] at hmem
  simp only [EdgeProofState.config, EdgeProofState.initProof, List.map_map, List.mem_map, Function.comp_apply,
    Prod.mk.injEq] at hmem
  obtain ⟨entry, hentry, hid, -, hrole⟩ := hmem
  have hlookup : fleet.lookup w.id = some entry.2 := by
    rw [← hid]
    exact KeyedList.lookup_of_mem hids hentry
  rw [roleOf, hlookup]
  exact hrole

/-- No dispatch is refused: the manager never hands a worker more than its prover threads take, so
whatever arrives finds a thread of its kind idle. -/
theorem recursionProve_admitted {manager : ManagerConfig} (hvalid : manager.validate = .ok ())
    (hids : (fleet.map Prod.fst).Nodup) (hstark : ∃ entry ∈ fleet, entry.2.workerRole.runsStarkProving = true)
    (hrun : DeploymentRun decode manager.provers fleet leafPackThreshold proofUuid n D) {id : Nat} {item : EdgeWorkItem}
    (hitem : (id, item) ∈ D.inFlight) :
    ((D.pools id).handleRecursionProve decode item).1.1 ≠ .serviceUnavailable := by
  obtain ⟨hleafPos, hinternalPos⟩ := manager.provers_pos hvalid
  have h := fits_of_run hids hstark hrun
  have hkept := (settled_of_run hids hstark h.run).kept
  have hfit := h.fit id
  have harriving : item ∈ ofWorker id D.inFlight := mem_ofWorker.mpr hitem
  have hheld : item ∈ D.ledger.heldBy id := hfit.load.subset (List.mem_append_left _ harriving)
  obtain ⟨w, hw, hid⟩ := hkept.heldWorker _ (mem_ofWorker.mp hheld)
  obtain rfl : w.id = id := hid
  have hacc := hkept.accounted w hw
  have hwell := hkept.wellFormed item (hkept.held_enqueued (mem_ofWorker.mp hheld))
  have hproves (hevm : item.step ≠ .evmProve) : (roleOf fleet w.id).runsStarkProving = true := by
    rw [roleOf_eq hids h.run hw]
    exact stark_of_takes (hacc.role item hheld) hevm
  unfold WorkerPools.handleRecursionProve
  split
  · rename_i req hreq
    have hstep : item.step = .leafProve := by rw [hwell, hreq]; rfl
    have hmax : D.ledger.st.maxLeafProvers = manager.provers.maxLeafProvers :=
      congrArg (·.maxLeafProvers) (config_of_run h.run)
    have hroom := hacc.room
    rw [hmax, max_eq_right hleafPos] at hroom
    have hidle : (D.pools w.id).leaf.hasAvailableWorker = true := by
      refine hfit.available hfit.leafSound (List.sublist_append_left _ _) (hstep ▸ hfit.leafKind) harriving ?_
      rw [hfit.leafSize, if_pos (hproves (by simp [hstep]))]
      exact List.countP_le_length.trans hroom
    rw [hidle]
    simp only [Bool.not_true, Bool.false_eq_true, if_false]
    split <;> simp
  · rename_i req hreq
    have hstep : item.step = .internalProve := by rw [hwell, hreq]; rfl
    have hidle : (D.pools w.id).internal.hasAvailableWorker = true := by
      refine hfit.available hfit.internalSound ((List.sublist_append_left _ _).trans (List.sublist_append_right _ _))
        (hstep ▸ hfit.internalKind) harriving ?_
      rw [hfit.internalSize, if_pos (hproves (by simp [hstep])), hstep]
      exact hacc.oneInternal.trans hinternalPos
    rw [hidle]
    simp only [Bool.not_true, Bool.false_eq_true, if_false]
    split <;> simp
  · simp

end Run

def sampleManager : ManagerConfig := ⟨⟨1⟩, .default, ⟨1, 1, 1⟩, .default⟩

def sampleDeployment : Deployment :=
  let D := Deployment.start sampleManager.provers sampleFleet 4
  let D := D.dispatch (D.ledger.enqueue "proof" (sampleLeafItem 0))
  let D := D.dispatch ((D.ledger.reportSegment 0 0).complete "proof" 0 (.app (sampleSegment 0)))
  D.dispatch (D.ledger.setNumSegments "proof" 1)

theorem recursionProve_admitted_sample : (0, sampleLeafItem 0) ∈ sampleDeployment.inFlight ∧
    ((sampleDeployment.pools 0).handleRecursionProve (fun _ => .ok ()) (sampleLeafItem 0)).1.1 ≠
      .serviceUnavailable := by
  have hitem : (0, sampleLeafItem 0) ∈ sampleDeployment.inFlight := by decide
  have hids : (sampleFleet.map Prod.fst).Nodup := by decide
  have hrun : DeploymentRun (fun _ => .ok ()) sampleManager.provers sampleFleet 4 "proof" 1 sampleDeployment := by
    have h0 : DeploymentRun (fun _ => .ok ()) sampleManager.provers sampleFleet 4 "proof" 1 _ := .start
    have h1 := h0.step (.schedule (.enqueue (sampleLeafItem 0) rfl (by simp [sampleLeafItem])) rfl)
    have h2 := h1.step (.schedule (.reportApp ⟨0, "http://worker-0", .full, 1, [⟨.shardedAppProve, none⟩], ∅⟩
      (sampleSegment 0) (by decide) rfl (by decide) (by decide)) rfl)
    exact h2.step (.schedule (.setNumSegments (by decide)) rfl)
  have hvalid : sampleManager.validate = .ok () := rfl
  exact ⟨hitem, recursionProve_admitted hvalid hids ⟨_, List.mem_cons_self, rfl⟩ hrun hitem⟩

end EdgeProver
