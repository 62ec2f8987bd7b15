import EdgeProver.Lib.KeyedList
import EdgeProver.Manager.WorkerRegistry

/-! How workers register: what ties the two maps of the registry together, and what the fleets that come of it
look like. -/
namespace EdgeProver
open KeyedList

/-- The `Debug` form the error texts print. -/
def ProversConfig.debug (provers : ProversConfig) : String :=
  s!"ProversConfig \x7b max_app_provers: {provers.maxAppProvers}, max_leaf_provers: {provers.maxLeafProvers}, " ++
    s!"max_internal_provers: {provers.maxInternalProvers} \x7d"

structure Registration where
  workerUrl : String
  workerId : Nat
  proversConfig : ProversConfig
  workerRole : WorkerRole
  now : Time

namespace EdgeWorkerRegistry

def validateProvers (registry : EdgeWorkerRegistry) (reported : ProversConfig) : WorkerRole → Except String Unit
  | .full | .starkOnly =>
    if reported ≠ registry.expectedProvers then
      .error ("worker provers config does not match manager config: " ++
        s!"worker reported {reported.debug}, manager expects {registry.expectedProvers.debug}")
    else .ok ()
  | .evmDedicated =>
    if reported.maxAppProvers ≠ 0 ∨ reported.maxLeafProvers ≠ 0 ∨ reported.maxInternalProvers ≠ 0 then
      .error ("EvmDedicated worker must report zero app/leaf/internal capacity " ++
        s!"(it runs only the EVM step), but reported {reported.debug}")
    else .ok ()

/-- The `get_mut` of a worker that registers again. -/
def refresh (registry : EdgeWorkerRegistry) (workerId : Nat) (now : Time) (workerRole : WorkerRole) :
    EdgeWorkerRegistry :=
  { registry with
    workers := modify workerId ({ · with lastSeen := now, workerRole := workerRole }) registry.workers
    workers_nodup := by
      rw [keys_modify]
      exact registry.workers_nodup }

/-- The inserts of a new worker into both maps, after `bump_next_worker_id`. -/
def insertWorker (registry : EdgeWorkerRegistry) (workerId : Nat) (worker : RegisteredWorker) : EdgeWorkerRegistry :=
  { registry with
    nextWorkerId := max registry.nextWorkerId (workerId + 1)
    workers := put workerId worker registry.workers
    urlToId := put worker.workerUrl workerId registry.urlToId
    workers_nodup := nodup_put registry.workers_nodup
    urlToId_nodup := nodup_put registry.urlToId_nodup }

def register (registry : EdgeWorkerRegistry) (call : Registration) : Except String Nat × EdgeWorkerRegistry :=
  match registry.validateProvers call.proversConfig call.workerRole with
  | .error e => (.error e, registry)
  | .ok () =>
    if registry.expectedNumWorkers ≤ call.workerId then
      (.error s!"worker_id {call.workerId} >= server.num_workers {registry.expectedNumWorkers}", registry)
    else
      match registry.urlToId.lookup call.workerUrl with
      | some existingId =>
        if call.workerId ≠ existingId then
          (.error (s!"worker URL {call.workerUrl} already bound to worker_id {existingId} but " ++
            s!"requested worker_id {call.workerId}"), registry)
        else (.ok existingId, registry.refresh existingId call.now call.workerRole)
      | none =>
        match (registry.workers.lookup call.workerId).filter (·.workerUrl != call.workerUrl) with
        | some existing =>
          (.error (s!"worker_id {call.workerId} already bound to {existing.workerUrl} " ++
            s!"(requested by {call.workerUrl})"), registry)
        | none =>
          (.ok call.workerId, registry.insertWorker call.workerId ⟨call.workerUrl, call.now, call.workerRole⟩)

def registerAll (registry : EdgeWorkerRegistry) (calls : List Registration) : EdgeWorkerRegistry :=
  calls.foldl (fun registry call => (registry.register call).2) registry

def urlOf (registry : EdgeWorkerRegistry) (id : Nat) : Option String :=
  (registry.workers.lookup id).map (·.workerUrl)

/-- The maps are inverse to each other, on ids the deployment has. -/
structure Consistent (registry : EdgeWorkerRegistry) : Prop where
  inverse : ∀ id url, registry.urlOf id = some url ↔ registry.urlToId.lookup url = some id
  below : ∀ id url, registry.urlOf id = some url → id < registry.expectedNumWorkers

variable {registry : EdgeWorkerRegistry} {call : Registration}

@[simp] theorem urlOf_refresh (workerId : Nat) (now : Time) (workerRole : WorkerRole) (id : Nat) :
    (registry.refresh workerId now workerRole).urlOf id = registry.urlOf id := by
  simp only [urlOf, refresh, lookup_modify]
  split
  · rw [Option.map_map]
    rfl
  · rfl

@[simp] theorem urlOf_insertWorker (workerId : Nat) (worker : RegisteredWorker) (id : Nat) :
    (registry.insertWorker workerId worker).urlOf id =
      if id == workerId then some worker.workerUrl else registry.urlOf id := by
  simp only [urlOf, insertWorker, lookup_put]
  split <;> rfl

/-- A call is rejected and changes nothing, or comes from a worker with this binding, or binds a new URL to an id
that no other URL has. -/
theorem register_cases (registry : EdgeWorkerRegistry) (call : Registration) :
    (∃ e, registry.register call = (.error e, registry)) ∨
    (registry.urlToId.lookup call.workerUrl = some call.workerId ∧
      registry.register call = (.ok call.workerId, registry.refresh call.workerId call.now call.workerRole)) ∨
    (registry.urlToId.lookup call.workerUrl = none ∧ call.workerId < registry.expectedNumWorkers ∧
      (∀ url, registry.urlOf call.workerId = some url → url = call.workerUrl) ∧
      registry.register call =
        (.ok call.workerId, registry.insertWorker call.workerId ⟨call.workerUrl, call.now, call.workerRole⟩)) := by
  unfold register
  split
  · exact .inl ⟨_, rfl⟩
  · split
    · exact .inl ⟨_, rfl⟩
    · rename_i hbelow
      split
      · rename_i existingId hexisting
        split
        · exact .inl ⟨_, rfl⟩
        · rename_i hsame
          obtain rfl := not_not.mp hsame
          exact .inr (.inl ⟨hexisting, rfl⟩)
      · rename_i hnew
        split
        · exact .inl ⟨_, rfl⟩
        · rename_i hfree
          refine .inr (.inr ⟨hnew, Nat.lt_of_not_le hbelow, fun url hurl => ?_, rfl⟩)
          obtain ⟨existing, hexisting, rfl⟩ := Option.map_eq_some_iff.mp hurl
          rw [Option.filter_eq_none_iff] at hfree
          simpa using hfree existing hexisting

private theorem register_rejected {e : String} (h : (registry.register call).1 = .error e) :
    (registry.register call).2 = registry := by
  rcases registry.register_cases call with ⟨_, hcall⟩ | ⟨-, hcall⟩ | ⟨-, -, -, hcall⟩
  · rw [hcall]
  · rw [hcall] at h
    cases h
  · rw [hcall] at h
    cases h

private theorem register_expectedNumWorkers (registry : EdgeWorkerRegistry) (call : Registration) :
    (registry.register call).2.expectedNumWorkers = registry.expectedNumWorkers := by
  rcases registry.register_cases call with ⟨_, hcall⟩ | ⟨-, hcall⟩ | ⟨-, -, -, hcall⟩ <;> rw [hcall] <;> rfl

namespace Consistent

theorem new (expectedNumWorkers : Nat) (expectedProvers : ProversConfig) :
    Consistent (.new expectedNumWorkers expectedProvers) where
  inverse := by simp [urlOf, EdgeWorkerRegistry.new]
  below := by simp [urlOf, EdgeWorkerRegistry.new]

private theorem free (h : Consistent registry) (hnew : registry.urlToId.lookup call.workerUrl = none)
    (hurl : ∀ url, registry.urlOf call.workerId = some url → url = call.workerUrl) :
    registry.urlOf call.workerId = none := by
  cases hbound : registry.urlOf call.workerId with
  | none => rfl
  | some url =>
    obtain rfl := hurl url hbound
    rw [(h.inverse _ _).mp hbound] at hnew
    cases hnew

theorem register (h : Consistent registry) (call : Registration) : Consistent (registry.register call).2 := by
  rcases registry.register_cases call with ⟨_, hcall⟩ | ⟨-, hcall⟩ | ⟨hnew, hbelow, hurl, hcall⟩
  · rw [hcall]
    exact h
  · rw [hcall]
    exact ⟨fun id url => by rw [urlOf_refresh]; exact h.inverse id url,
      fun id url => by rw [urlOf_refresh]; exact h.below id url⟩
  · have hfree := h.free hnew hurl
    rw [hcall]
    constructor
    · intro id url
      rw [urlOf_insertWorker]
      simp only [insertWorker, lookup_put]
      by_cases hid : id = call.workerId
      · subst hid
        by_cases hu : url = call.workerUrl
        · simp [hu]
        · have hold := h.inverse call.workerId url
          rw [hfree] at hold
          simpa [hu, Ne.symm hu] using hold
      · by_cases hu : url = call.workerUrl
        · subst hu
          have hold := h.inverse id call.workerUrl
          rw [hnew] at hold
          simpa [hid, Ne.symm hid] using hold
        · simpa [hid, hu] using h.inverse id url
    · intro id url
      rw [urlOf_insertWorker]
      split
      · rename_i hid
        intro _
        rw [beq_iff_eq.mp hid]
        exact hbelow
      · exact h.below id url

/-- No call takes a URL from its id. -/
theorem keeps (h : Consistent registry) (call : Registration) {id : Nat} {url : String}
    (hbound : registry.urlOf id = some url) : (registry.register call).2.urlOf id = some url := by
  rcases registry.register_cases call with ⟨_, hcall⟩ | ⟨-, hcall⟩ | ⟨hnew, -, hurl, hcall⟩
  · rw [hcall]
    exact hbound
  · rw [hcall, urlOf_refresh]
    exact hbound
  · rw [hcall, urlOf_insertWorker, if_neg]
    · exact hbound
    · intro hid
      rw [beq_iff_eq.mp hid, h.free hnew hurl] at hbound
      cases hbound

private theorem registerAll (h : Consistent registry) (calls : List Registration) :
    Consistent (registry.registerAll calls) := by
  induction calls generalizing registry with
  | nil => exact h
  | cons call calls ih => exact ih (h.register call)

private theorem registerAll_keeps (h : Consistent registry) (calls : List Registration) {id : Nat} {url : String}
    (hbound : registry.urlOf id = some url) : (registry.registerAll calls).urlOf id = some url := by
  induction calls generalizing registry with
  | nil => exact hbound
  | cons call calls ih => exact ih (h.register call) (h.keeps call hbound)

end Consistent

private theorem registerAll_expectedNumWorkers (registry : EdgeWorkerRegistry) (calls : List Registration) :
    (registry.registerAll calls).expectedNumWorkers = registry.expectedNumWorkers := by
  induction calls generalizing registry with
  | nil => rfl
  | cons call calls ih => exact (ih _).trans (registry.register_expectedNumWorkers call)

variable {fleet : List (Nat × RegisteredWorker)}

private theorem sortedWorkers_perm (registry : EdgeWorkerRegistry) : registry.sortedWorkers.Perm registry.workers :=
  List.mergeSort_perm _ _

private theorem sortedWorkers_nodup (registry : EdgeWorkerRegistry) : (registry.sortedWorkers.map Prod.fst).Nodup :=
  (registry.sortedWorkers_perm.map Prod.fst).nodup_iff.mpr registry.workers_nodup

private theorem sortedWorkers_increasing (registry : EdgeWorkerRegistry) :
    (registry.sortedWorkers.map Prod.fst).Pairwise (· < ·) := by
  have hle : (registry.sortedWorkers.map Prod.fst).Pairwise (· ≤ ·) := by
    rw [List.pairwise_map]
    have hsorted := @List.pairwise_mergeSort _ (fun a b : Nat × RegisteredWorker => decide (a.1 ≤ b.1))
      (fun a b c hab hbc => by simp only [decide_eq_true_eq] at *; omega)
      (fun a b => by simp only [Bool.or_eq_true, decide_eq_true_eq]; omega) registry.workers
    exact hsorted.imp fun hab => of_decide_eq_true hab
  exact hle.imp₂ (fun _ _ => Nat.lt_of_le_of_ne) registry.sortedWorkers_nodup

private theorem ready_ids (h : registry.readyWorkers = .ok fleet) :
    fleet.map Prod.fst = List.range registry.expectedNumWorkers := by
  obtain ⟨rfl, hlength, hmissing, -⟩ := of_ready h
  apply eq_range_of_sorted registry.sortedWorkers_increasing
  apply mem_iff_lt_of_length
  · rw [List.length_map]
    exact hlength
  · intro id hid
    by_contra habsent
    have hmem : id ∈ registry.missingIds := by
      refine List.mem_filter.mpr ⟨List.mem_range.mpr hid, ?_⟩
      rw [List.all_eq_true]
      intro entry hentry
      rw [bne_iff_ne]
      rintro rfl
      exact habsent (List.mem_map_of_mem hentry)
    rw [hmissing] at hmem
    cases hmem

private theorem ready_urls (hconsistent : Consistent registry) (h : registry.readyWorkers = .ok fleet) :
    (fleet.map (·.2.workerUrl)).Nodup := by
  obtain ⟨rfl, -⟩ := of_ready h
  have hurl : ∀ entry ∈ registry.sortedWorkers, registry.urlToId.lookup entry.2.workerUrl = some entry.1 := by
    intro entry hentry
    rw [← hconsistent.inverse, urlOf,
      lookup_of_mem registry.workers_nodup (registry.sortedWorkers_perm.mem_iff.mp hentry), Option.map_some]
  have hids := registry.sortedWorkers_nodup
  rw [List.Nodup, List.pairwise_map] at hids ⊢
  refine hids.imp_of_mem fun {a b} ha hb hne heq => hne ?_
  have hsame := hurl a ha
  rw [heq, hurl b hb] at hsame
  exact (Option.some.inj hsame).symm

private theorem ready_top (h : registry.readyWorkers = .ok fleet) {entry : Nat × RegisteredWorker}
    (hentry : entry ∈ fleet) :
    entry.2.workerRole = .evmDedicated ↔ (appEligibleWorkers fleet).length ≤ entry.1 := by
  have hids := ids_of_ready h
  have hnodup : (fleet.map Prod.fst).Nodup := by
    rw [ready_ids h]
    exact List.nodup_range
  have hmem : entry.1 ∈ appEligibleWorkers fleet ↔ entry.2.workerRole.runsStarkProving = true := by
    rw [mem_appEligibleWorkers]
    constructor
    · rintro ⟨worker, hworker, hrole⟩
      have hsame : some entry.2 = some worker :=
        (lookup_of_mem hnodup (show (entry.1, entry.2) ∈ fleet from hentry)).symm.trans (lookup_of_mem hnodup hworker)
      rw [Option.some.inj hsame]
      exact hrole
    · exact fun hrole => ⟨entry.2, hentry, hrole⟩
  rw [hids, List.mem_range] at hmem
  rw [← Nat.not_lt, hmem]
  cases entry.2.workerRole <;> simp [WorkerRole.runsStarkProving]

end EdgeWorkerRegistry

/-- After every sequence of `register` calls the two maps are inverse to each other and every id is below the worker
count; whatever is called afterwards leaves every binding in place, and a rejected call leaves everything as it was.
A fleet that is declared ready has the ids of the deployment in order and distinct URLs, and its app-eligible workers
are the first of them, its dedicated ones the last. -/
theorem worker_registry_sound (expectedNumWorkers : Nat) (expectedProvers : ProversConfig) (calls : List Registration) :
    let registry := (EdgeWorkerRegistry.new expectedNumWorkers expectedProvers).registerAll calls
    (∀ id url, registry.urlOf id = some url ↔ registry.urlToId.lookup url = some id) ∧
    (∀ entry ∈ registry.workers, entry.1 < expectedNumWorkers) ∧
    (∀ later id url, registry.urlOf id = some url → (registry.registerAll later).urlOf id = some url ∧
      (registry.registerAll later).urlToId.lookup url = some id) ∧
    (∀ call e, (registry.register call).1 = .error e → (registry.register call).2 = registry) ∧
    ∀ fleet, registry.readyWorkers = .ok fleet →
      fleet.map Prod.fst = List.range expectedNumWorkers ∧
      (fleet.map (·.2.workerUrl)).Nodup ∧
      appEligibleWorkers fleet = List.range (appEligibleWorkers fleet).length ∧
      ∀ entry ∈ fleet, entry.2.workerRole = .evmDedicated ↔ (appEligibleWorkers fleet).length ≤ entry.1 := by
  intro registry
  have hconsistent : registry.Consistent :=
    (EdgeWorkerRegistry.Consistent.new expectedNumWorkers expectedProvers).registerAll calls
  have hexpected : registry.expectedNumWorkers = expectedNumWorkers :=
    EdgeWorkerRegistry.registerAll_expectedNumWorkers _ calls
  refine ⟨hconsistent.inverse, ?_, ?_, fun call e => EdgeWorkerRegistry.register_rejected, ?_⟩
  · intro entry hentry
    rw [← hexpected]
    apply hconsistent.below entry.1 entry.2.workerUrl
    rw [EdgeWorkerRegistry.urlOf, lookup_of_mem registry.workers_nodup hentry, Option.map_some]
  · intro later id url hbound
    have hkept := hconsistent.registerAll_keeps later hbound
    exact ⟨hkept, ((hconsistent.registerAll later).inverse id url).mp hkept⟩
  · intro fleet hready
    refine ⟨?_, EdgeWorkerRegistry.ready_urls hconsistent hready, ids_of_ready hready, fun entry hentry => ?_⟩
    · rw [EdgeWorkerRegistry.ready_ids hready, hexpected]
    · exact EdgeWorkerRegistry.ready_top hready hentry

end EdgeProver
