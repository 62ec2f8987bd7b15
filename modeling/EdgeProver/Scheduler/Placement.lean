import EdgeProver.Lib.Replace
import EdgeProver.Scheduler.Shard

/-! Which worker an item is given to, and what handing it over changes. -/
namespace EdgeProver
open Replace

def WorkerRole.takes (role : WorkerRole) : Step → Bool
  | .leafProve | .internalProve => role.runsStarkProving
  | .evmProve => role.runsEvmProve
  | .shardedAppProve | .rootProve | .halo2Prove => false

/-- The step is the one of the request, as `Step::from` computes it. -/
def EdgeWorkItem.WellFormed (item : EdgeWorkItem) : Prop := item.step = item.envelope.message.step

/-- The step of a request that the scheduler places. -/
def Step.Dispatched (step : Step) : Prop := step = .leafProve ∨ step = .internalProve ∨ step = .evmProve

theorem EdgeWorkItem.WellFormed.dispatched {item : EdgeWorkItem} (h : item.WellFormed) : item.step.Dispatched := by
  rw [h]
  unfold Step.Dispatched
  cases item.envelope.message <;> simp [GeneralProveRequest.step]

section Search
variable {α : Type*} {xs : List α} {x : α} {i : Nat}

private theorem getElem?_of_mem_zipIdx (h : (x, i) ∈ xs.zipIdx) : xs[i]? = some x :=
  List.mem_zipIdx_iff_getElem?.mp h

theorem find_zipIdx_some (p : α → Bool) (h : xs.zipIdx.find? (p ·.1) = some (x, i)) : xs[i]? = some x ∧ p x = true :=
  ⟨getElem?_of_mem_zipIdx (List.mem_of_find?_eq_some h),
    List.find?_some (p := fun entry : α × Nat => p entry.1) h⟩

theorem find_zipIdx_none (p : α → Bool) (h : xs.zipIdx.find? (p ·.1) = none) (hx : x ∈ xs) : p x = false := by
  obtain ⟨i, hi, rfl⟩ := List.mem_iff_getElem.mp hx
  have := List.find?_eq_none.mp h (xs[i], i) (List.mem_zipIdx_iff_getElem?.mpr (List.getElem?_eq_getElem hi))
  simpa using this

/-- What is found is the first entry that satisfies the test. -/
theorem find_zipIdx_split (p : α → Bool) (h : xs.zipIdx.find? (p ·.1) = some (x, i)) :
    ∃ before after, xs = before ++ x :: after ∧ i = before.length ∧ p x = true ∧ ∀ y ∈ before, p y = false := by
  obtain ⟨hx, before, after, hsplit, hbefore⟩ := List.find?_eq_some_iff_append.mp h
  have hget := congrArg (·[before.length]?) hsplit
  simp only [List.getElem?_zipIdx, List.getElem?_append_right (Nat.le_refl _), Nat.sub_self, Nat.zero_add,
    List.getElem?_cons_zero, Option.map_eq_some_iff, Prod.mk.injEq] at hget
  obtain ⟨-, -, -, hi⟩ := hget
  refine ⟨before.map Prod.fst, after.map Prod.fst, ?_, ?_, hx, fun y hy => ?_⟩
  · have hfst := congrArg (List.map Prod.fst) hsplit
    rwa [List.zipIdx_map_fst, List.map_append, List.map_cons] at hfst
  · rw [List.length_map, hi]
  · obtain ⟨entry, hentry, rfl⟩ := List.mem_map.mp hy
    simpa using hbefore entry hentry

theorem minByKey_mem {key : α → Nat} : ∀ {xs : List α} {x : α}, minByKey key xs = some x → x ∈ xs
  | y :: ys, x, h => by
    unfold minByKey at h
    split at h
    · obtain rfl := Option.some.inj h
      exact List.mem_cons_self
    · rename_i z hz
      split at h <;> obtain rfl := Option.some.inj h
      · exact List.mem_cons_of_mem _ (minByKey_mem hz)
      · exact List.mem_cons_self

end Search

namespace EdgeProofState
variable {st : EdgeProofState} {step : Step} {worker : EdgeWorkerState} {idx : Nat} {item : EdgeWorkItem}

/-- What the placement rules check of the worker they pick. -/
structure Accepts (st : EdgeProofState) (step : Step) (worker : EdgeWorkerState) : Prop where
  takes : worker.workerRole.takes step = true
  shard : worker.activeProofCount = 0 ∨ worker.runs .shardedAppProve = false
  room : worker.activeProofCount = 0 ∨ step = .leafProve ∧ worker.activeProofCount < st.maxLeafProvers

private theorem accepts_of_free (h : worker.freeForLeaf = true) : Accepts st .leafProve worker := by
  simp only [EdgeWorkerState.freeForLeaf, Bool.and_eq_true, beq_iff_eq] at h
  exact ⟨h.1.1, Or.inl h.1.2, Or.inl h.1.2⟩

private theorem accepts_of_packable (h : worker.packable st.maxLeafProvers = true) :
    Accepts st .leafProve worker := by
  simp only [EdgeWorkerState.packable, Bool.and_eq_true, Bool.not_eq_true', decide_eq_true_eq] at h
  exact ⟨h.1.1, Or.inr h.2, Or.inr ⟨rfl, h.1.2⟩⟩

private theorem accepts_of_canAccept (hleaf : step ≠ .leafProve)
    (h : worker.canAcceptWork step st.maxLeafProvers = true) : Accepts st step worker := by
  unfold EdgeWorkerState.canAcceptWork at h
  split at h
  · rename_i hevm
    subst hevm
    split at h
    · simp at h
    · rename_i hrole
      have hcount : worker.activeProofCount = 0 := by simpa using h
      exact ⟨by simpa [WorkerRole.takes] using hrole, Or.inl hcount, Or.inl hcount⟩
  · split_ifs at h with hrole _ hmarked
    have hstark : worker.workerRole.runsStarkProving = true := by
      cases hw : worker.workerRole <;> simp_all [WorkerRole.runsStarkProving]
    cases step with
    | internalProve =>
      have hcount : worker.activeProofCount = 0 := by simpa using h
      exact ⟨hstark, Or.inl hcount, Or.inl hcount⟩
    | leafProve => exact absurd rfl hleaf
    | _ => simp at h

theorem pickWorker_some (h : st.pickWorker step = some (worker, idx)) :
    st.workers[idx]? = some worker ∧ Accepts st step worker := by
  unfold pickWorker findBestWorkerForLeaf at h
  split at h
  · rename_i hleaf
    subst hleaf
    split at h
    · rename_i entry hfind
      obtain rfl := Option.some.inj h
      obtain ⟨hget, hfree⟩ := find_zipIdx_some _ hfind
      exact ⟨hget, accepts_of_free hfree⟩
    · split at h
      · obtain ⟨hmem, hpack⟩ := List.mem_filter.mp (minByKey_mem h)
        exact ⟨getElem?_of_mem_zipIdx hmem, accepts_of_packable hpack⟩
      · simp at h
  · rename_i hleaf
    obtain ⟨hget, haccept⟩ := find_zipIdx_some (fun w : EdgeWorkerState => w.canAcceptWork step st.maxLeafProvers) h
    exact ⟨hget, accepts_of_canAccept hleaf haccept⟩

private theorem canAccept_of_idle (hrole : worker.workerRole.takes step = true) (hidle : worker.activeProofCount = 0)
    (hempty : worker.activeProofs = []) (hleaf : step ≠ .leafProve) (maxLeafProvers : Nat) :
    worker.canAcceptWork step maxLeafProvers = true := by
  unfold EdgeWorkerState.canAcceptWork EdgeWorkerState.runs
  cases step with
  | evmProve => simpa [WorkerRole.takes, hidle] using hrole
  | internalProve =>
    have hstark : worker.workerRole ≠ .evmDedicated := by
      intro hd
      simp [WorkerRole.takes, WorkerRole.runsStarkProving, hd] at hrole
    simp [hidle, hempty, hstark]
  | leafProve => exact absurd rfl hleaf
  | _ => simp [WorkerRole.takes] at hrole

/-- An item that cannot be placed finds every worker that could take it busy. -/
theorem busy_of_pickWorker_none (h : st.pickWorker step = none) (hworker : worker ∈ st.workers)
    (hrole : worker.workerRole.takes step = true)
    (hidle : worker.activeProofCount = 0 → worker.activeProofs = []) : 0 < worker.activeProofCount := by
  by_contra hcount
  have hzero : worker.activeProofCount = 0 := by omega
  unfold pickWorker findBestWorkerForLeaf at h
  split at h
  · rename_i hleaf
    subst hleaf
    split at h
    · simp at h
    · rename_i hfind
      have hfree : worker.freeForLeaf = true := by
        simpa [EdgeWorkerState.freeForLeaf, EdgeWorkerState.runs, hzero, hidle hzero, WorkerRole.takes] using hrole
      rw [find_zipIdx_none _ hfind hworker] at hfree
      exact Bool.false_ne_true hfree
  · rename_i hleaf
    have hno := find_zipIdx_none (·.canAcceptWork step st.maxLeafProvers) h hworker
    rw [canAccept_of_idle hrole hzero (hidle hzero) hleaf] at hno
    simp at hno

/-- Where only one worker that takes the item is idle, it is the one picked. -/
theorem pickWorker_eq_idle {other : EdgeWorkerState} (h : st.pickWorker step = some (worker, idx))
    (hbusy : ∀ w ∈ st.workers, w.workerRole.takes step = true → w ≠ other → 0 < w.activeProofCount)
    (hother : other ∈ st.workers) (hrole : other.workerRole.takes step = true)
    (hzero : other.activeProofCount = 0) (hempty : other.activeProofs = []) : worker = other := by
  obtain ⟨hget, haccept⟩ := pickWorker_some h
  have hmem : worker ∈ st.workers := List.mem_of_getElem? hget
  by_contra hne
  have hpos := hbusy worker hmem haccept.takes hne
  -- Only a leaf goes to a worker that is not idle, and only when no worker is.
  obtain hzero' | ⟨rfl, -⟩ := haccept.room
  · omega
  · unfold pickWorker findBestWorkerForLeaf at h
    rw [if_pos rfl] at h
    have hfree : other.freeForLeaf = true := by
      simpa [EdgeWorkerState.freeForLeaf, EdgeWorkerState.runs, hzero, hempty, WorkerRole.takes] using hrole
    split at h
    · rename_i entry hfind
      obtain rfl := Option.some.inj h
      have hw := (find_zipIdx_some _ hfind).2
      simp only [EdgeWorkerState.freeForLeaf, Bool.and_eq_true, beq_iff_eq] at hw
      omega
    · rename_i hfind
      rw [find_zipIdx_none _ hfind hother] at hfree
      exact Bool.false_ne_true hfree

/-- `st'` is `st` with the item given to the worker. -/
structure Assigns (st : EdgeProofState) (item : EdgeWorkItem) (worker : EdgeWorkerState)
    (st' : EdgeProofState) : Prop where
  replaces : Replaces st.workers st'.workers worker (worker.assign item)
  pending : st'.pending = st.pending
  numSegments : st'.numSegments = st.numSegments
  numWorkers : st'.numWorkers = st.numWorkers
  maxLeafProvers : st'.maxLeafProvers = st.maxLeafProvers
  accepts : Accepts st item.step worker

theorem assigns_of_pickWorker (h : st.pickWorker item.step = some (worker, idx)) (proofUuid : String) :
    Assigns st item worker (st.assignTo proofUuid worker idx item).2 := by
  obtain ⟨hget, haccept⟩ := pickWorker_some h
  exact ⟨replaces_set hget _, rfl, rfl, rfl, rfl, haccept⟩

/-- The request is placed, or it waits. -/
theorem assignOrQueue_cases (st : EdgeProofState) (proofUuid : String) (item : EdgeWorkItem) :
    (∃ work worker idx, st.assignOrQueue proofUuid item.envelope item.step =
        (some work, (st.assignTo proofUuid worker idx item).2) ∧ work.item = item ∧
        work.workerId = worker.id ∧ st.pickWorker item.step = some (worker, idx)) ∨
      st.pickWorker item.step = none ∧ st.assignOrQueue proofUuid item.envelope item.step =
        (none, { st with pending := st.pending.push item }) := by
  unfold assignOrQueue
  cases h : st.pickWorker item.step with
  | none => exact Or.inr ⟨rfl, rfl⟩
  | some entry => exact Or.inl ⟨_, entry.1, entry.2, rfl, rfl, rfl, rfl⟩

/-- Nothing waits, or the first item is placed, or it goes back to the queue. -/
theorem tryDequeueWork_cases (st : EdgeProofState) (proofUuid : String) :
    (st.pending.pop = none ∧ st.tryDequeueWork proofUuid = (none, st)) ∨
      ∃ item pending, st.pending.pop = some (item, pending) ∧
        ((∃ work worker idx, st.tryDequeueWork proofUuid =
            (some work, ({ st with pending := pending }.assignTo proofUuid worker idx item).2) ∧
            work.item = item ∧ work.workerId = worker.id ∧
            { st with pending := pending }.pickWorker item.step = some (worker, idx)) ∨
          { st with pending := pending }.pickWorker item.step = none ∧ st.tryDequeueWork proofUuid =
            (none, { st with pending := pending.requeue item })) := by
  unfold tryDequeueWork
  cases hpop : st.pending.pop with
  | none => exact Or.inl ⟨rfl, rfl⟩
  | some popped =>
    refine Or.inr ⟨popped.1, popped.2, rfl, ?_⟩
    cases h : EdgeProofState.pickWorker { st with pending := popped.2 } popped.1.step with
    | none => exact Or.inr ⟨rfl, by simp [h]⟩
    | some entry => exact Or.inl ⟨_, entry.1, entry.2, by simp only [h]; rfl, rfl, rfl, rfl⟩

theorem applyCompletion_ok {st st' : EdgeProofState} {proofUuid : String} {workerId : Nat}
    {result : ProofResult} {freed : Bool} (h : st.applyCompletion proofUuid workerId result = .ok (freed, st')) :
    ∃ worker workers, Replaces st.workers workers worker
        (worker.complete st.numWorkers st.numSegments result).2 ∧ worker.id = workerId ∧
      freed = (worker.complete st.numWorkers st.numSegments result).1 ∧ st' = { st with workers := workers } := by
  unfold applyCompletion at h
  split at h
  · simp at h
  · rename_i worker idx hfind
    simp only [Except.ok.injEq, Prod.mk.injEq] at h
    obtain ⟨rfl, rfl⟩ := h
    obtain ⟨hget, hid⟩ := find_zipIdx_some (fun w : EdgeWorkerState => w.id == workerId) hfind
    exact ⟨worker, _, replaces_set hget _, by simpa using hid, rfl, rfl⟩

/-- The result of a worker the proof knows is always accounted for. -/
theorem applyCompletion_of_mem {st : EdgeProofState} (hmem : worker ∈ st.workers) (proofUuid : String)
    (result : ProofResult) : ∃ freed st', st.applyCompletion proofUuid worker.id result = .ok (freed, st') := by
  unfold applyCompletion
  split
  · rename_i hfind
    have := find_zipIdx_none (fun w : EdgeWorkerState => w.id == worker.id) hfind hmem
    simp at this
  · exact ⟨_, _, rfl⟩

section Keys
variable {κ : Type*} {f : EdgeWorkerState → κ}

/-- Taking an item leaves this key of the worker alone. -/
def Ignores (f : EdgeWorkerState → κ) : Prop :=
  ∀ (w : EdgeWorkerState) (item : EdgeWorkItem), w.workerRole.takes item.step = true → f (w.assign item) = f w

private theorem map_assignTo (hf : Ignores f) (h : st.pickWorker item.step = some (worker, idx)) (proofUuid : String) :
    (st.assignTo proofUuid worker idx item).2.workers.map f = st.workers.map f := by
  obtain ⟨hget, haccept⟩ := pickWorker_some h
  exact (replaces_set hget _).map_eq f (hf worker item haccept.takes)

theorem map_assignOrQueue (hf : Ignores f) (st : EdgeProofState) (proofUuid : String) (item : EdgeWorkItem) :
    (st.assignOrQueue proofUuid item.envelope item.step).2.workers.map f = st.workers.map f := by
  obtain ⟨work, worker, idx, hcall, -, -, hpick⟩ | ⟨-, hcall⟩ := st.assignOrQueue_cases proofUuid item
  · rw [hcall]
    exact map_assignTo hf hpick proofUuid
  · rw [hcall]

theorem map_tryDequeueWork (hf : Ignores f) (st : EdgeProofState) (proofUuid : String) :
    (st.tryDequeueWork proofUuid).2.workers.map f = st.workers.map f := by
  obtain ⟨-, hcall⟩ | ⟨item, pending, -, ⟨work, worker, idx, hcall, -, -, hpick⟩ | ⟨-, hcall⟩⟩ :=
    st.tryDequeueWork_cases proofUuid
  · rw [hcall]
  · rw [hcall]
    exact map_assignTo hf hpick proofUuid
  · rw [hcall]

theorem map_drainLoop (hf : Ignores f) (proofUuid : String) (fuel : Nat) (st : EdgeProofState) :
    (drainLoop proofUuid fuel st).2.workers.map f = st.workers.map f := by
  induction fuel generalizing st with
  | zero => rfl
  | succ fuel ih =>
    have hone := map_tryDequeueWork hf st proofUuid
    unfold drainLoop
    split
    · rename_i work st' hcall
      rw [hcall] at hone
      exact (ih st').trans hone
    · rename_i st' hcall
      rw [hcall] at hone
      exact hone

end Keys

/-- The fleet and the settings of the proof. -/
structure Config where
  workers : List (Nat × String × WorkerRole)
  numWorkers : Nat
  leafPackThreshold : Nat
  maxLeafProvers : Nat

def config (st : EdgeProofState) : Config where
  workers := st.workers.map fun w => (w.id, w.workerUrl, w.workerRole)
  numWorkers := st.numWorkers
  leafPackThreshold := st.leafPackThreshold
  maxLeafProvers := st.maxLeafProvers

private theorem config_replaces {workers : List EdgeWorkerState} {worker' : EdgeWorkerState}
    (h : Replaces st.workers workers worker worker') (hid : worker'.id = worker.id)
    (hurl : worker'.workerUrl = worker.workerUrl) (hrole : worker'.workerRole = worker.workerRole) :
    config { st with workers := workers } = st.config := by
  have hmap := h.map_eq (fun w : EdgeWorkerState => (w.id, w.workerUrl, w.workerRole))
    (by simp only [hid, hurl, hrole])
  simp only [config, hmap]

private theorem config_assignTo (h : st.pickWorker step = some (worker, idx)) (proofUuid : String)
    (item : EdgeWorkItem) : (st.assignTo proofUuid worker idx item).2.config = st.config :=
  config_replaces (replaces_set (pickWorker_some h).1 (worker.assign item)) rfl rfl rfl

theorem config_assignOrQueue (st : EdgeProofState) (proofUuid : String) (item : EdgeWorkItem) :
    (st.assignOrQueue proofUuid item.envelope item.step).2.config = st.config := by
  obtain ⟨work, worker, idx, hcall, -, -, hpick⟩ | ⟨-, hcall⟩ := st.assignOrQueue_cases proofUuid item
  · rw [hcall]
    exact config_assignTo hpick proofUuid item
  · rw [hcall]
    rfl

private theorem config_tryDequeueWork (st : EdgeProofState) (proofUuid : String) :
    (st.tryDequeueWork proofUuid).2.config = st.config := by
  obtain ⟨-, hcall⟩ | ⟨item, pending, -, ⟨work, worker, idx, hcall, -, -, hpick⟩ | ⟨-, hcall⟩⟩ :=
    st.tryDequeueWork_cases proofUuid
  · rw [hcall]
  · rw [hcall]
    exact config_assignTo hpick proofUuid item
  · rw [hcall]
    rfl

private theorem config_drainLoop (proofUuid : String) (fuel : Nat) (st : EdgeProofState) :
    (drainLoop proofUuid fuel st).2.config = st.config := by
  induction fuel generalizing st with
  | zero => rfl
  | succ fuel ih =>
    have hone := st.config_tryDequeueWork proofUuid
    unfold drainLoop
    split
    · rename_i work st' hcall
      rw [hcall] at hone
      exact (ih st').trans hone
    · rename_i st' hcall
      rw [hcall] at hone
      exact hone

theorem config_setNumSegments (st : EdgeProofState) (proofUuid : String) (numSegments : Nat) :
    (st.setNumSegments proofUuid numSegments).2.config = st.config := by
  have hreleased : config { st with
      numSegments := some numSegments
      workers := EdgeWorkerState.releaseShards st.numWorkers numSegments st.workers } = st.config := by
    simp only [config, Config.mk.injEq, and_self, and_true]
    refine EdgeWorkerState.map_releaseShards _ (fun w => ?_) _
    unfold EdgeWorkerState.releaseShard
    split <;> rfl
  unfold setNumSegments
  split
  · exact (config_drainLoop proofUuid _ _).trans hreleased
  · exact hreleased

theorem complete_static (w : EdgeWorkerState) (numWorkers : Nat) (numSegments : Option Nat) (result : ProofResult) :
    (w.complete numWorkers numSegments result).2.id = w.id ∧
      (w.complete numWorkers numSegments result).2.workerUrl = w.workerUrl ∧
      (w.complete numWorkers numSegments result).2.workerRole = w.workerRole := by
  cases result with
  | app appProof =>
    simp only [EdgeWorkerState.complete]
    split <;> exact ⟨rfl, rfl, rfl⟩
  | error e =>
    simp only [EdgeWorkerState.complete, EdgeWorkerState.finishFirst]
    split <;> exact ⟨rfl, rfl, rfl⟩
  | _ => exact ⟨rfl, rfl, rfl⟩

/-- A report takes something from the worker, or nothing, and adds nothing. -/
theorem complete_sublist (w : EdgeWorkerState) (numWorkers : Nat) (numSegments : Option Nat) (result : ProofResult) :
    (w.complete numWorkers numSegments result).2.activeProofs.Sublist w.activeProofs := by
  cases result with
  | app appProof =>
    simp only [EdgeWorkerState.complete]
    split
    · exact List.filter_sublist
    · exact List.Sublist.refl _
  | executeE2 e2 => exact List.Sublist.refl _
  | leaf leafProof | internal internalProof | evm evmProof => exact List.eraseP_sublist
  | error e =>
    simp only [EdgeWorkerState.complete, EdgeWorkerState.finishFirst]
    split
    · exact List.Sublist.refl _
    · exact List.eraseIdx_sublist _ _

theorem config_applyCompletion {st st' : EdgeProofState} {proofUuid : String} {workerId : Nat} {result : ProofResult}
    {freed : Bool} (h : st.applyCompletion proofUuid workerId result = .ok (freed, st')) : st'.config = st.config := by
  obtain ⟨worker, workers, hreplaces, -, -, rfl⟩ := applyCompletion_ok h
  obtain ⟨hid, hurl, hrole⟩ := complete_static worker st.numWorkers st.numSegments result
  exact config_replaces hreplaces hid hurl hrole

theorem config_completeWork {st st' : EdgeProofState} {proofUuid : String} {workerId : Nat} {result : ProofResult}
    {work : Option AssignedWork} (h : st.completeWork proofUuid workerId result = .ok (work, st')) :
    st'.config = st.config := by
  unfold completeWork at h
  split at h
  · simp at h
  · rename_i freed hcall
    obtain rfl := congrArg Prod.snd (Except.ok.inj h)
    exact (config_tryDequeueWork _ proofUuid).trans (config_applyCompletion hcall)
  · rename_i freed hcall
    obtain rfl := congrArg Prod.snd (Except.ok.inj h)
    exact config_applyCompletion hcall

theorem config_releaseWorker (st : EdgeProofState) (workerId : Nat) :
    (st.releaseWorker workerId).config = st.config := by
  unfold releaseWorker
  split
  · rename_i worker idx hfind
    exact config_replaces
      (replaces_set (find_zipIdx_some (fun w : EdgeWorkerState => w.id == workerId) hfind).1 worker.release) rfl rfl rfl
  · rfl

end EdgeProofState
end EdgeProver
