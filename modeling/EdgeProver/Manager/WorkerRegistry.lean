import Mathlib.Data.List.Sort
import EdgeProver.Config
import EdgeProver.Manager.Handlers
import EdgeProver.Scheduler.Placement

/-! The worker registry: which fleets it declares ready, and what a ready fleet can run. -/
namespace EdgeProver

/-- The `DashMap`s list their entries in the order of their insertion. -/
structure EdgeWorkerRegistry where
  nextWorkerId : Nat
  expectedNumWorkers : Nat
  expectedProvers : ProversConfig
  workers : List (Nat × RegisteredWorker)
  urlToId : List (String × Nat)
  workers_nodup : (workers.map Prod.fst).Nodup
  urlToId_nodup : (urlToId.map Prod.fst).Nodup

namespace EdgeWorkerRegistry

def new (expectedNumWorkers : Nat) (expectedProvers : ProversConfig) : EdgeWorkerRegistry :=
  ⟨0, expectedNumWorkers, expectedProvers, [], [], List.nodup_nil, List.nodup_nil⟩

def sortedWorkers (registry : EdgeWorkerRegistry) : List (Nat × RegisteredWorker) :=
  registry.workers.mergeSort fun a b => decide (a.1 ≤ b.1)

def missingIds (registry : EdgeWorkerRegistry) : List Nat :=
  (List.range registry.expectedNumWorkers).filter fun expectedId =>
    registry.sortedWorkers.all fun entry => entry.1 != expectedId

def misplaced (appIds : List Nat) : Option (Nat × Nat) := appIds.zipIdx.find? fun entry => entry.1 != entry.2

def readyWorkers (registry : EdgeWorkerRegistry) : Except String (List (Nat × RegisteredWorker)) :=
  let workers := registry.sortedWorkers
  let expected := registry.expectedNumWorkers
  let appIds := appEligibleWorkers workers
  if registry.workers.isEmpty then .error "No Edge workers have registered yet"
  else if workers.length ≠ expected then
    .error s!"Only {workers.length}/{expected} Edge workers have registered with manager"
  else if !registry.missingIds.isEmpty then
    .error s!"Edge workers missing registrations for worker IDs {registry.missingIds}"
  else
    match misplaced appIds with
    | some (id, i) =>
      .error (s!"App-eligible (STARK-proving) worker IDs must be the contiguous range 0..{appIds.length} for " ++
        s!"modulo sharding to cover them; worker at position {i} has id {id} (got {appIds}). " ++
        "Assign EvmDedicated worker(s) the top worker IDs.")
    | none => .ok workers

end EdgeWorkerRegistry

/-- What a proof of this type asks of a fleet: an owner for every segment, and, once every worker is idle, a
worker for every kind of recursion work. -/
structure CanFinish (fleet : List (Nat × RegisteredWorker)) (proofType : ProofType) : Prop where
  nonempty : appEligibleWorkers fleet ≠ []
  ids : appEligibleWorkers fleet = List.range (appEligibleWorkers fleet).length
  owner : ∀ segment, ∃! id, id ∈ appEligibleWorkers fleet ∧ segment % (appEligibleWorkers fleet).length = id
  numWorkers : ∀ leafPackThreshold maxLeafProvers,
    0 < (EdgeProofState.initProof fleet leafPackThreshold maxLeafProvers).numWorkers
  placed : ∀ (st : EdgeProofState) leafPackThreshold maxLeafProvers,
    st.config = (EdgeProofState.initProof fleet leafPackThreshold maxLeafProvers).config →
    (∀ w ∈ st.workers, w.activeProofCount = 0 ∧ w.activeProofs = []) →
    (st.pickWorker .leafProve).isSome = true ∧ (st.pickWorker .internalProve).isSome = true ∧
      (proofType = .evm → (st.pickWorker .evmProve).isSome = true)
  evm : proofType = .evm → ∃ entry ∈ fleet, entry.2.workerRole.runsEvmProve = true

section
variable {registry : EdgeWorkerRegistry} {fleet : List (Nat × RegisteredWorker)} {proofType : ProofType}

private theorem eq_range_of_misplaced {appIds : List Nat} (h : EdgeWorkerRegistry.misplaced appIds = none) :
    appIds = List.range appIds.length := by
  apply List.ext_getElem
  · rw [List.length_range]
  · intro i hi _
    have hno := List.find?_eq_none.mp h (appIds[i], i) (List.mem_zipIdx_iff_getElem?.mpr (List.getElem?_eq_getElem hi))
    simpa using hno

/-- What a registry has to pass for its workers to be ready. -/
theorem of_ready (h : registry.readyWorkers = .ok fleet) : fleet = registry.sortedWorkers ∧
    fleet.length = registry.expectedNumWorkers ∧ registry.missingIds = [] ∧
      EdgeWorkerRegistry.misplaced (appEligibleWorkers fleet) = none := by
  unfold EdgeWorkerRegistry.readyWorkers at h
  dsimp only at h
  split at h
  · simp at h
  · split at h
    · simp at h
    · split at h
      · simp at h
      · rename_i hlength hmissing
        split at h
        · simp at h
        · rename_i hmisplaced
          obtain rfl := Except.ok.inj h
          exact ⟨rfl, not_not.mp hlength, by simpa using hmissing, hmisplaced⟩

/-- A ready fleet numbers its app-eligible workers from zero without a gap. -/
theorem ids_of_ready (h : registry.readyWorkers = .ok fleet) :
    appEligibleWorkers fleet = List.range (appEligibleWorkers fleet).length :=
  eq_range_of_misplaced (of_ready h).2.2.2

theorem mem_appEligibleWorkers {id : Nat} : id ∈ appEligibleWorkers fleet ↔
    ∃ worker, (id, worker) ∈ fleet ∧ worker.workerRole.runsStarkProving = true := by
  simp [appEligibleWorkers]

theorem appEligibleWorkers_ne_nil : appEligibleWorkers fleet ≠ [] ↔
    ∃ entry ∈ fleet, entry.2.workerRole.runsStarkProving = true := by
  constructor
  · intro h
    obtain ⟨id, hid⟩ := List.exists_mem_of_ne_nil _ h
    obtain ⟨worker, hmem, hrole⟩ := mem_appEligibleWorkers.mp hid
    exact ⟨(id, worker), hmem, hrole⟩
  · rintro ⟨entry, hmem, hrole⟩
    exact List.ne_nil_of_mem (mem_appEligibleWorkers.mpr ⟨entry.2, hmem, hrole⟩)

private theorem owner_of_ids (hids : appEligibleWorkers fleet = List.range (appEligibleWorkers fleet).length)
    (hne : appEligibleWorkers fleet ≠ []) (segment : Nat) :
    ∃! id, id ∈ appEligibleWorkers fleet ∧ segment % (appEligibleWorkers fleet).length = id := by
  refine ⟨segment % (appEligibleWorkers fleet).length, ⟨?_, rfl⟩, ?_⟩
  · rw [hids]
    simpa using Nat.mod_lt segment (List.length_pos_of_ne_nil hne)
  · rintro id ⟨-, rfl⟩
    rfl

/-- Among idle workers of the fleet every step finds a worker, where some role takes it. -/
theorem pickWorker_of_idle {st : EdgeProofState} {step : Step} {leafPackThreshold maxLeafProvers : Nat}
    (hconfig : st.config = (EdgeProofState.initProof fleet leafPackThreshold maxLeafProvers).config)
    (hidle : ∀ w ∈ st.workers, w.activeProofCount = 0 ∧ w.activeProofs = [])
    (hrole : ∃ entry ∈ fleet, entry.2.workerRole.takes step = true) : (st.pickWorker step).isSome = true := by
  obtain ⟨entry, hmem, htakes⟩ := hrole
  have hworkers := congrArg (·.workers) hconfig
  simp only [EdgeProofState.config, EdgeProofState.initProof, List.map_map] at hworkers
  have hthere : (entry.1, entry.2.workerUrl, entry.2.workerRole) ∈
      st.workers.map fun w => (w.id, w.workerUrl, w.workerRole) := by
    rw [hworkers]
    exact List.mem_map.mpr ⟨entry, hmem, rfl⟩
  obtain ⟨worker, hworker, heq⟩ := List.mem_map.mp hthere
  simp only [Prod.mk.injEq] at heq
  by_contra hnone
  have hbusy := EdgeProofState.busy_of_pickWorker_none (by simpa using hnone) hworker
    (show worker.workerRole.takes step = true from heq.2.2 ▸ htakes) fun _ => (hidle worker hworker).2
  exact absurd (hidle worker hworker).1 hbusy.ne'

theorem numWorkers_eq (leafPackThreshold maxLeafProvers : Nat) :
    (EdgeProofState.initProof fleet leafPackThreshold maxLeafProvers).numWorkers =
    (appEligibleWorkers fleet).length := by
  simp [EdgeProofState.initProof, appEligibleWorkers, List.countP_eq_length_filter]

end

/-- A ready fleet can finish a proof of this type exactly if some worker runs STARK proving and, for an Evm proof,
some worker runs the EVM step. -/
theorem canFinish_iff_of_ready {registry : EdgeWorkerRegistry} {fleet : List (Nat × RegisteredWorker)}
    (hready : registry.readyWorkers = .ok fleet) (proofType : ProofType) : CanFinish fleet proofType ↔
      (∃ entry ∈ fleet, entry.2.workerRole.runsStarkProving = true) ∧
        (proofType = .evm → ∃ entry ∈ fleet, entry.2.workerRole.runsEvmProve = true) := by
  have hids := ids_of_ready hready
  constructor
  · exact fun h => ⟨appEligibleWorkers_ne_nil.mp h.nonempty, h.evm⟩
  · rintro ⟨hstark, hevm⟩
    have hne := appEligibleWorkers_ne_nil.mpr hstark
    exact {
      nonempty := hne
      ids := hids
      owner := owner_of_ids hids hne
      numWorkers := fun leafPackThreshold maxLeafProvers => by
        rw [numWorkers_eq]
        exact List.length_pos_of_ne_nil hne
      placed := fun st leafPackThreshold maxLeafProvers hconfig hidle =>
        ⟨pickWorker_of_idle hconfig hidle hstark, pickWorker_of_idle hconfig hidle hstark,
          fun htype => pickWorker_of_idle hconfig hidle (hevm htype)⟩
      evm := hevm }

/-- One worker of this role, registered as worker 0 of a deployment of one. -/
def soleRegistry (role : WorkerRole) : EdgeWorkerRegistry :=
  ⟨1, 1, ⟨1, 1, 1⟩, [(0, ⟨"http://worker-0", 0, role⟩)], [("http://worker-0", 0)], by simp, by simp⟩

private theorem soleRegistry_ready (role : WorkerRole) :
    (soleRegistry role).readyWorkers = .ok [(0, ⟨"http://worker-0", 0, role⟩)] := by
  cases role <;> simp [EdgeWorkerRegistry.readyWorkers, EdgeWorkerRegistry.sortedWorkers, EdgeWorkerRegistry.missingIds,
    EdgeWorkerRegistry.misplaced, soleRegistry, appEligibleWorkers, WorkerRole.runsStarkProving]

/-- A fleet of a single `StarkOnly` worker is ready, and no Evm proof can end on it. -/
theorem canFinish_fails : ¬ ∀ (registry : EdgeWorkerRegistry) (fleet : List (Nat × RegisteredWorker))
    (proofType : ProofType), registry.readyWorkers = .ok fleet → CanFinish fleet proofType := by
  intro hall
  have hcan := hall _ _ .evm (soleRegistry_ready .starkOnly)
  obtain ⟨entry, hmem, hrole⟩ := hcan.evm rfl
  obtain rfl := List.mem_singleton.mp hmem
  simp [WorkerRole.runsEvmProve] at hrole

/-- The same fleet finishes Stark proofs. -/
theorem canFinish_sample : CanFinish [(0, ⟨"http://worker-0", 0, .starkOnly⟩)] .stark :=
  (canFinish_iff_of_ready (soleRegistry_ready .starkOnly) .stark).mpr
    ⟨⟨_, List.mem_singleton_self _, rfl⟩, fun h => by simp at h⟩

end EdgeProver
