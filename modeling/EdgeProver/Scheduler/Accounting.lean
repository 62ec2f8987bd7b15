import EdgeProver.Scheduler.Ledger

/-! What the scheduler's per-worker accounting says about the ledger, and what each small step of a
call does to it. -/
namespace EdgeProver
open Replace

namespace EdgeWorkerState

/-- The worker runs its shard, and nothing else. -/
def Marked (w : EdgeWorkerState) : Prop :=
  w.workerRole.runsStarkProving = true ∧ w.activeProofCount = 1 ∧
    w.activeProofs = [⟨.shardedAppProve, none⟩]

/-- One slot and one active proof for each item held, of the item's kind. -/
def Runs (w : EdgeWorkerState) (items : List EdgeWorkItem) : Prop :=
  w.activeProofCount = items.length ∧ (w.activeProofs.map (·.step)).Perm (items.map (·.step))

namespace Runs
variable {w : EdgeWorkerState} {items items' : List EdgeWorkItem} {item : EdgeWorkItem}

theorem length (h : w.Runs items) : w.activeProofs.length = items.length := by
  simpa using h.2.length_eq

theorem perm (h : w.Runs items) (hp : items.Perm items') : w.Runs items' :=
  ⟨h.1.trans hp.length_eq, h.2.trans (hp.map _)⟩

theorem idle (h : w.Runs items) (hzero : w.activeProofCount = 0) : w.activeProofs = [] := by
  rw [← List.length_eq_zero_iff, h.length, ← h.1, hzero]

theorem assign (h : w.Runs items) : (w.assign item).Runs (item :: items) := by
  refine ⟨by simp only [EdgeWorkerState.assign, h.1, List.length_cons], ?_⟩
  simp only [EdgeWorkerState.assign, List.map_append, List.map_cons, List.map_nil, activeProofFromRequest]
  exact (List.perm_append_singleton _ _).trans (h.2.cons _)

/-- Giving back the slot of the first active proof of the item's kind gives back the item's. -/
theorem finish (h : w.Runs (item :: items)) : (w.finish item.step).Runs items := by
  have herase : (w.activeProofs.eraseP (·.step == item.step)).map (·.step) =
      (w.activeProofs.map (·.step)).erase item.step := by
    rw [List.erase_eq_eraseP', List.eraseP_map]
    rfl
  refine ⟨by simp only [EdgeWorkerState.finish, h.1, List.length_cons, Nat.add_sub_cancel], ?_⟩
  simp only [EdgeWorkerState.finish, herase]
  simpa using h.2.erase item.step

end Runs

theorem Marked.runs {w : EdgeWorkerState} (h : w.Marked) : w.runs .shardedAppProve = true := by
  simp [EdgeWorkerState.runs, h.2.2]

/-- Giving the shard's slot back leaves the worker with nothing. -/
theorem Marked.finishShard {w : EdgeWorkerState} (h : w.Marked) : w.finishShard.Runs [] := by
  simp [EdgeWorkerState.finishShard, Runs, h.2.1, h.2.2]

end EdgeWorkerState

/-- How one worker stands with the ledger. -/
structure Accounted (L : Ledger) (n : Nat) (w : EdgeWorkerState) : Prop where
  completed : ∀ segment, segment ∈ w.completedSegments ↔ (w.id, segment) ∈ L.reported
  slots : (w.Marked ∧ L.heldBy w.id = []) ∨
    (w.Runs (L.heldBy w.id) ∧ (w.workerRole.runsStarkProving = true → L.ShardReported n w.id))
  room : (L.heldBy w.id).length ≤ max 1 L.st.maxLeafProvers
  role : ∀ item ∈ L.heldBy w.id, w.workerRole.takes item.step = true
  oneInternal : (L.heldBy w.id).countP (·.step = .internalProve) ≤ 1

/-- Holds of the ledger between any two small steps; `floating` are the items in the scheduler's hands. -/
structure Kept (L : Ledger) (n : Nat) (floating : List EdgeWorkItem) : Prop where
  ids : (L.st.workers.map (·.id)).Nodup
  numWorkers_pos : 0 < L.st.numWorkers
  wellFormed : ∀ item ∈ L.enqueued, item.WellFormed
  numSegments : L.st.numSegments = none ∨ L.st.numSegments = some n
  filed : L.st.pending.Filed
  partition : L.enqueued.Perm (floating ++ (L.st.pending.items ++ (L.held.map (·.2) ++ L.completed)))
  heldWorker : ∀ entry ∈ L.held, ∃ w ∈ L.st.workers, w.id = entry.1
  accounted : ∀ w ∈ L.st.workers, Accounted L n w
  reported : ∀ entry ∈ L.reported, entry.2 ∈ shard entry.1 L.st.numWorkers n
  evm_late : L.st.numSegments = none → ∀ item ∈ L.enqueued, item.step ≠ .evmProve
  evm_once : L.enqueued.countP (·.step = .evmProve) ≤ 1
  internal_alone : ∀ a ∈ L.assignments, a.item.step = .internalProve → a.before = []
  shard_first : ∀ a ∈ L.assignments, a.item.step ≠ .evmProve → L.ShardReported n a.worker
  assigned : (L.assignments.map (·.item)).Perm (L.held.map (·.2) ++ L.completed)

/-- A worker that takes an item other than the EVM step proves a shard. -/
theorem stark_of_takes {role : WorkerRole} {step : Step} (h : role.takes step = true) (hevm : step ≠ .evmProve) :
    role.runsStarkProving = true := by
  cases step <;> simp_all [WorkerRole.takes]

namespace Accounted
variable {L L' : Ledger} {n : Nat} {w : EdgeWorkerState}

/-- A worker stands as before when the ledger says nothing new about it. -/
theorem congr (h : Accounted L n w) (hst : L'.st.numSegments = L.st.numSegments)
    (hnum : L'.st.numWorkers = L.st.numWorkers) (hmax : L'.st.maxLeafProvers = L.st.maxLeafProvers)
    (hheld : (L.heldBy w.id).Perm (L'.heldBy w.id))
    (hreported : ∀ segment, (w.id, segment) ∈ L'.reported ↔ (w.id, segment) ∈ L.reported) :
    Accounted L' n w := by
  have hshard : L.ShardReported n w.id → L'.ShardReported n w.id := fun hs =>
    ⟨hst.trans hs.1, fun segment hsegment => (hreported segment).mpr (hs.2 segment (hnum ▸ hsegment))⟩
  refine ⟨fun segment => (h.completed segment).trans (hreported segment).symm, ?_, ?_, fun item hitem => ?_, ?_⟩
  · obtain ⟨hm, hnil⟩ | ⟨hr, hs⟩ := h.slots
    · exact Or.inl ⟨hm, (hnil ▸ hheld).symm.eq_nil⟩
    · exact Or.inr ⟨hr.perm hheld, fun hstark => hshard (hs hstark)⟩
  · rw [← hheld.length_eq, hmax]
    exact h.room
  · exact h.role item (hheld.mem_iff.mpr hitem)
  · exact hheld.countP_eq _ ▸ h.oneInternal

theorem runs_of_held (h : Accounted L n w) (hne : L.heldBy w.id ≠ []) : w.Runs (L.heldBy w.id) :=
  (h.slots.resolve_left fun hm => hne hm.2).1

theorem idle (h : Accounted L n w) (hzero : w.activeProofCount = 0) : w.activeProofs = [] := by
  obtain ⟨hm, -⟩ | ⟨hr, -⟩ := h.slots
  · rw [hm.2.1] at hzero
    exact absurd hzero Nat.one_ne_zero
  · exact hr.idle hzero

private theorem runs_of_accepts (h : Accounted L n w) {step : Step} (haccepts : EdgeProofState.Accepts L.st step w) :
    w.Runs (L.heldBy w.id) ∧ (w.workerRole.runsStarkProving = true → L.ShardReported n w.id) := by
  refine h.slots.resolve_left fun hm => ?_
  have hcount := hm.1.2.1
  have hruns := hm.1.runs
  obtain hzero | hshard := haccepts.shard
  · omega
  · exact Bool.false_ne_true (hshard.symm.trans hruns)

end Accounted

namespace Kept
variable {L : Ledger} {n : Nat} {floating : List EdgeWorkItem} {item : EdgeWorkItem}

theorem mem_enqueued (h : Kept L n floating) (hitem : item ∈ L.st.pending.items) : item ∈ L.enqueued :=
  h.partition.mem_iff.mpr (by simp [hitem])

theorem held_enqueued (h : Kept L n floating) {id : Nat} (hitem : (id, item) ∈ L.held) : item ∈ L.enqueued :=
  h.partition.mem_iff.mpr (by
    simp only [List.mem_append, List.mem_map]
    exact Or.inr (Or.inr (Or.inl ⟨_, hitem, rfl⟩)))

/-- The head of the queue in the scheduler's hands. -/
theorem pop (h : Kept L n floating) {pending : PriorityWorkQueue} (hpop : L.st.pending.pop = some (item, pending)) :
    Kept { L with st := { L.st with pending := pending } } n (item :: floating) := by
  refine { h with filed := h.filed.pop hpop, partition := ?_, accounted := fun w hw => ?_ }
  · refine h.partition.trans ?_
    rw [PriorityWorkQueue.items_pop hpop, List.cons_append, List.cons_append]
    exact List.perm_middle
  · exact (h.accounted w hw).congr rfl rfl rfl (List.Perm.refl _) fun _ => Iff.rfl

/-- The item in hand goes to the queue. -/
theorem push (h : Kept L n (item :: floating)) :
    Kept { L with st := { L.st with pending := L.st.pending.push item } } n floating := by
  refine { h with filed := h.filed.push item, partition := ?_, accounted := fun w hw => ?_ }
  · refine h.partition.trans ?_
    rw [List.cons_append]
    refine List.perm_middle.symm.trans (List.Perm.append_left _ ?_)
    rw [← List.cons_append]
    exact (L.st.pending.items_push item).symm.append_right _
  · exact (h.accounted w hw).congr rfl rfl rfl (List.Perm.refl _) fun _ => Iff.rfl

/-- The item in hand goes to a worker. -/
theorem give (h : Kept L n (item :: floating)) {st : EdgeProofState} {worker : EdgeWorkerState}
    {work : AssignedWork} (hassigns : EdgeProofState.Assigns L.st item worker st) (hitem : work.item = item)
    (hid : work.workerId = worker.id) : Kept (L.after st [work]) n floating := by
  have hworker := hassigns.replaces.mem_left
  have hacc := h.accounted worker hworker
  obtain ⟨hruns, hshard⟩ := hacc.runs_of_accepts hassigns.accepts
  have hids : st.workers.map (·.id) = L.st.workers.map (·.id) := hassigns.replaces.map_eq _ rfl
  have hheld (id : Nat) : (L.after st [work]).heldBy id =
      if worker.id = id then item :: L.heldBy id else L.heldBy id := by
    rw [← hid, ← hitem]
    exact Ledger.heldBy_give { L with st := st } work id
  have hreported (id : Nat) (hs : L.ShardReported n id) : (L.after st [work]).ShardReported n id :=
    ⟨hassigns.numSegments.trans hs.1, fun segment hsegment => hs.2 segment (hassigns.numWorkers ▸ hsegment)⟩
  have halone (hinternal : item.step = .internalProve) : L.heldBy worker.id = [] := by
    have hlength := hruns.1
    obtain hzero | ⟨hleaf, -⟩ := hassigns.accepts.room
    · exact List.length_eq_zero_iff.mp (hlength.symm.trans hzero)
    · rw [hinternal] at hleaf
      simp at hleaf
  refine
    { ids := ?_
      numWorkers_pos := ?_
      wellFormed := h.wellFormed
      numSegments := ?_
      filed := ?_
      partition := ?_
      heldWorker := ?_
      accounted := fun w hw => ?_
      reported := ?_
      evm_late := fun hnone => h.evm_late (hassigns.numSegments ▸ hnone)
      evm_once := h.evm_once
      internal_alone := fun a ha hinternal => ?_
      shard_first := fun a ha hevm => ?_
      assigned := ?_ }
  · exact hids ▸ h.ids
  · exact hassigns.numWorkers ▸ h.numWorkers_pos
  · exact hassigns.numSegments ▸ h.numSegments
  · exact hassigns.pending ▸ h.filed
  · refine h.partition.trans ?_
    change (item :: floating ++ _).Perm (floating ++ (st.pending.items ++ _))
    rw [hassigns.pending, List.cons_append]
    refine List.perm_middle.symm.trans (List.Perm.append_left _ ?_)
    refine List.perm_middle.symm.trans (List.Perm.append_left _ ?_)
    simp only [Ledger.after, List.foldl_cons, List.foldl_nil, Ledger.give_held, List.map_cons, hitem]
    rfl
  · intro entry hentry
    have hex : ∃ w ∈ L.st.workers, w.id = entry.1 := by
      rcases List.mem_cons.mp hentry with rfl | hentry
      · exact ⟨worker, hworker, hid.symm⟩
      · exact h.heldWorker entry hentry
    rw [← List.mem_map] at hex ⊢
    exact hids ▸ hex
  · obtain rfl | ⟨hmem, hne⟩ := hassigns.replaces.other_of_mem_right (·.id) h.ids rfl hw
    · have hown : (L.after st [work]).heldBy worker.id = item :: L.heldBy worker.id := by
        rw [hheld, if_pos rfl]
      refine ⟨hacc.completed, Or.inr ⟨?_, fun hstark => hreported _ (hshard hstark)⟩, ?_, fun x hx => ?_, ?_⟩
      · exact hown ▸ hruns.assign
      · change ((L.after st [work]).heldBy worker.id).length ≤ max 1 st.maxLeafProvers
        rw [hown, hassigns.maxLeafProvers, List.length_cons, ← hruns.1]
        obtain hzero | ⟨-, hlt⟩ := hassigns.accepts.room <;> omega
      · rcases List.mem_cons.mp (hown ▸ hx) with rfl | hx
        · exact hassigns.accepts.takes
        · exact hacc.role x hx
      · change ((L.after st [work]).heldBy worker.id).countP _ ≤ 1
        rw [hown, List.countP_cons]
        split
        · rename_i hinternal
          rw [halone (by simpa using hinternal)]
          exact Nat.le_refl 1
        · exact hacc.oneInternal
    · have hother : (L.after st [work]).heldBy w.id = L.heldBy w.id := by
        rw [hheld, if_neg (fun he => hne he.symm)]
      exact (h.accounted w hmem).congr hassigns.numSegments hassigns.numWorkers hassigns.maxLeafProvers
        (hother ▸ List.Perm.refl _) fun _ => Iff.rfl
  · exact fun entry hentry => hassigns.numWorkers ▸ h.reported entry hentry
  · rcases List.mem_append.mp ha with ha | ha
    · exact h.internal_alone a ha hinternal
    · obtain rfl := List.mem_singleton.mp ha
      exact hid ▸ halone (hitem ▸ hinternal)
  · rcases List.mem_append.mp ha with ha | ha
    · exact hreported _ (h.shard_first a ha hevm)
    · obtain rfl := List.mem_singleton.mp ha
      have hstark := stark_of_takes hassigns.accepts.takes (hitem ▸ hevm)
      exact hreported _ (hid ▸ hshard hstark)
  · simp only [Ledger.after, List.foldl_cons, List.foldl_nil, Ledger.give, List.map_append, List.map_cons,
      List.map_nil, List.cons_append]
    exact (List.perm_append_singleton _ _).trans (h.assigned.cons _)

/-- A new request in the scheduler's hands. -/
theorem request (h : Kept L n []) (hitem : item.WellFormed)
    (hevm : item.step = .evmProve → L.st.numSegments ≠ none ∧ ∀ other ∈ L.enqueued, other.step ≠ .evmProve) :
    Kept { L with enqueued := item :: L.enqueued } n [item] := by
  refine { h with
    wellFormed := ?_, partition := h.partition.cons item, evm_late := ?_, evm_once := ?_, accounted := ?_ }
  · exact List.forall_mem_cons.mpr ⟨hitem, h.wellFormed⟩
  · exact fun w hw => (h.accounted w hw).congr rfl rfl rfl (List.Perm.refl _) fun _ => Iff.rfl
  · exact fun hnone => List.forall_mem_cons.mpr ⟨fun he => (hevm he).1 hnone, h.evm_late hnone⟩
  · rw [List.countP_cons]
    split
    · rename_i he
      rw [List.countP_eq_zero.mpr fun other hother => by simpa using (hevm (by simpa using he)).2 other hother]
    · exact h.evm_once

end Kept
end EdgeProver
