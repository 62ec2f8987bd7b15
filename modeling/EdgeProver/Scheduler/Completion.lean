import EdgeProver.Scheduler.Accounting

/-! What the reports and the segment count do to the accounting. -/
namespace EdgeProver
open Replace

namespace Kept
variable {L : Ledger} {n : Nat} {workers : List EdgeWorkerState} {worker worker' : EdgeWorkerState}

private theorem replace (h : Kept L n []) {L' : Ledger}
    (hreplaces : Replaces L.st.workers workers worker worker') (hid : worker'.id = worker.id)
    (hst : L'.st = { L.st with workers := workers }) (henqueued : L'.enqueued = L.enqueued)
    (hassignments : L'.assignments = L.assignments)
    (hdone : (L.held.map (·.2) ++ L.completed).Perm (L'.held.map (·.2) ++ L'.completed))
    (hsub : ∀ entry ∈ L'.held, entry ∈ L.held) (hmore : ∀ entry ∈ L.reported, entry ∈ L'.reported)
    (hreported : ∀ entry ∈ L'.reported, entry.2 ∈ shard entry.1 L.st.numWorkers n)
    (hother : ∀ w ∈ L.st.workers, w.id ≠ worker.id → Accounted L' n w)
    (hself : Accounted L' n worker') : Kept L' n [] := by
  have hids : workers.map (·.id) = L.st.workers.map (·.id) := hreplaces.map_eq _ hid
  have hworkers : L'.st.workers = workers := by rw [hst]
  refine
    { ids := by rw [hworkers, hids]; exact h.ids
      numWorkers_pos := by rw [hst]; exact h.numWorkers_pos
      wellFormed := by rw [henqueued]; exact h.wellFormed
      numSegments := by rw [hst]; exact h.numSegments
      filed := by rw [hst]; exact h.filed
      partition := ?_
      heldWorker := fun entry hentry => ?_
      accounted := fun w hw => ?_
      reported := by rw [hst]; exact hreported
      evm_late := fun hnone => by rw [hst] at hnone; rw [henqueued]; exact h.evm_late hnone
      evm_once := by rw [henqueued]; exact h.evm_once
      internal_alone := by rw [hassignments]; exact h.internal_alone
      shard_first := fun a ha hevm => ?_
      assigned := by rw [hassignments]; exact h.assigned.trans hdone }
  · rw [henqueued, hst]
    exact h.partition.trans (hdone.append_left _)
  · have hex := h.heldWorker entry (hsub entry hentry)
    rw [← List.mem_map, ← hids] at hex
    rwa [← List.mem_map, hworkers]
  · rw [hworkers] at hw
    obtain rfl | ⟨hmem, hne⟩ := hreplaces.other_of_mem_right (·.id) h.ids hid hw
    · exact hself
    · exact hother w hmem hne
  · obtain ⟨hsome, hall⟩ := h.shard_first a (hassignments ▸ ha) hevm
    rw [Ledger.ShardReported, hst]
    exact ⟨hsome, fun segment hsegment => hmore _ (hall segment hsegment)⟩

/-- A worker's report of an item it holds gives back exactly the slot of that item. -/
theorem reportItem (h : Kept L n []) {item : EdgeWorkItem} (hheld : (worker.id, item) ∈ L.held)
    (hreplaces : Replaces L.st.workers workers worker (worker.finish item.step)) :
    Kept { L.reportItem worker.id item with st := { L.st with workers := workers } } n [] := by
  have hperm (other : Nat) : (L.heldBy other).Perm _ := ofWorker_erase hheld other
  have hacc := h.accounted worker hreplaces.mem_left
  have hown := hperm worker.id
  rw [if_pos rfl] at hown
  have hne : L.heldBy worker.id ≠ [] := List.ne_nil_of_mem (hown.mem_iff.mpr List.mem_cons_self)
  have hruns := (hacc.runs_of_held hne).perm hown
  refine h.replace hreplaces rfl rfl rfl rfl ?_ (fun entry he => List.mem_of_mem_erase he)
    (fun _ he => he) h.reported (fun w hw hid => ?_) ?_
  · have hmid := ((List.perm_cons_erase hheld).map (·.2)).append_right L.completed
    simp only [List.map_cons, List.cons_append] at hmid
    exact hmid.trans List.perm_middle.symm
  · have hw' := hperm w.id
    rw [if_neg (fun he => hid he.symm)] at hw'
    exact (h.accounted w hw).congr rfl rfl rfl hw' fun _ => Iff.rfl
  · have hshard := (hacc.slots.resolve_left fun hm => hne hm.2).2
    refine ⟨hacc.completed, Or.inr ⟨hruns.finish, hshard⟩, ?_, fun x hx => ?_, ?_⟩
    · have hroom := hacc.room
      rw [hown.length_eq, List.length_cons] at hroom
      exact (Nat.le_succ _).trans hroom
    · exact hacc.role x (hown.mem_iff.mpr (List.mem_cons_of_mem _ hx))
    · have hone := hacc.oneInternal
      rw [hown.countP_eq, List.countP_cons] at hone
      exact (Nat.le_add_right _ _).trans hone

private theorem marked_of_fresh (h : Kept L n []) (hworker : worker ∈ L.st.workers)
    (hstark : worker.workerRole.runsStarkProving = true) {segment : Nat}
    (hshard : segment ∈ shard worker.id L.st.numWorkers n) (hfresh : (worker.id, segment) ∉ L.reported) :
    worker.Marked ∧ L.heldBy worker.id = [] :=
  (h.accounted worker hworker).slots.resolve_right fun hr => hfresh ((hr.2 hstark).2 segment hshard)

/-- A segment report frees the shard's slot exactly when the scheduler sees the shard complete. -/
theorem reportApp (h : Kept L n []) {appProof : AppProof}
    (hstark : worker.workerRole.runsStarkProving = true)
    (hshard : appProof.state.segmentIdx ∈ shard worker.id L.st.numWorkers n)
    (hfresh : (worker.id, appProof.state.segmentIdx) ∉ L.reported)
    (hreplaces : Replaces L.st.workers workers worker
      (worker.complete L.st.numWorkers L.st.numSegments (.app appProof)).2) :
    Kept { L.reportSegment worker.id appProof.state.segmentIdx with st := { L.st with workers := workers } } n [] := by
  have hworker := hreplaces.mem_left
  obtain ⟨hmarked, hnil⟩ := h.marked_of_fresh hworker hstark hshard hfresh
  have hacc := h.accounted worker hworker
  set L' : Ledger :=
    { L.reportSegment worker.id appProof.state.segmentIdx with st := { L.st with workers := workers } } with hL'
  have hcompleted (segment : Nat) : segment ∈ insert appProof.state.segmentIdx worker.completedSegments ↔
      (worker.id, segment) ∈ L'.reported := by
    rw [Finset.mem_insert, hacc.completed]
    change _ ↔ _ ∈ (worker.id, appProof.state.segmentIdx) :: L.reported
    rw [List.mem_cons, Prod.mk.injEq, and_iff_right rfl]
  have hreported : ∀ entry ∈ L'.reported, entry.2 ∈ shard entry.1 L.st.numWorkers n :=
    List.forall_mem_cons.mpr ⟨hshard, h.reported⟩
  have hid : (worker.complete L.st.numWorkers L.st.numSegments (.app appProof)).2.id = worker.id := by
    simp only [EdgeWorkerState.complete]
    split <;> rfl
  refine h.replace hreplaces hid rfl rfl rfl (List.Perm.refl _) (fun _ he => he)
    (fun _ he => List.mem_cons_of_mem _ he) hreported (fun w hw hne => ?_) ?_
  · refine (h.accounted w hw).congr rfl rfl rfl (List.Perm.refl _) fun segment => ?_
    change _ ∈ (worker.id, _) :: L.reported ↔ _
    simp only [List.mem_cons, Prod.mk.injEq, hne, false_and, false_or]
  · simp only [EdgeWorkerState.complete]
    split
    · rename_i hdone
      refine ⟨hcompleted, Or.inr ⟨?_, fun _ => ?_⟩, hacc.room, hacc.role, hacc.oneInternal⟩
      · have hruns : (worker.insertSegment appProof.state.segmentIdx).finishShard.Runs [] :=
          EdgeWorkerState.Marked.finishShard hmarked
        exact (show L'.heldBy worker.id = [] from hnil) ▸ hruns
      · obtain hnone | hsome := h.numSegments
        · rw [hnone] at hdone
          exact absurd hdone Bool.false_ne_true
        · rw [hsome] at hdone
          refine ⟨hsome, fun segment hsegment => (hcompleted segment).mp ?_⟩
          refine shard_subset_of_completed h.numWorkers_pos (fun s hs => ?_) hdone hsegment
          exact hreported _ ((hcompleted s).mp hs)
    · exact ⟨hcompleted, Or.inl ⟨hmarked, hnil⟩, hacc.room, hacc.role, hacc.oneInternal⟩

/-- Before the segment count is known every shard runs and nothing is held. -/
theorem nothing_held (h : Kept L n []) (hunknown : L.st.numSegments = none) : L.held = [] := by
  refine List.eq_nil_iff_forall_not_mem.mpr fun entry hentry => ?_
  obtain ⟨id, item⟩ := entry
  obtain ⟨w, hw, hid⟩ := h.heldWorker _ hentry
  obtain rfl : w.id = id := hid
  have hmem : item ∈ L.heldBy w.id := mem_ofWorker.mpr hentry
  have hacc := h.accounted w hw
  have hrole := hacc.role item hmem
  obtain ⟨-, hnil⟩ | ⟨-, hshard⟩ := hacc.slots
  · simp [hnil] at hmem
  · have hnotStark : ¬ w.workerRole.runsStarkProving = true := fun hstark => by
      have := (hshard hstark).1
      rw [hunknown] at this
      simp at this
    have hitem := h.held_enqueued hentry
    -- Only an EVM item fits a worker that proves no shard, and none was requested yet.
    obtain hs | hs | hs := (h.wellFormed item hitem).dispatched
    · exact hnotStark (by simpa [hs, WorkerRole.takes] using hrole)
    · exact hnotStark (by simpa [hs, WorkerRole.takes] using hrole)
    · exact h.evm_late hunknown item hitem hs

private theorem releaseShard_accounted (h : Kept L n []) (hunknown : L.st.numSegments = none)
    (hworker : worker ∈ L.st.workers) {st : EdgeProofState} (hsome : st.numSegments = some n)
    (hnum : st.numWorkers = L.st.numWorkers) :
    Accounted { L with st := st } n (worker.releaseShard L.st.numWorkers n) := by
  have hacc := h.accounted worker hworker
  have hnil : ∀ id, L.heldBy id = [] := fun id => by simp [Ledger.heldBy, ofWorker, h.nothing_held hunknown]
  have hid : (worker.releaseShard L.st.numWorkers n).id = worker.id := by
    unfold EdgeWorkerState.releaseShard
    split <;> rfl
  have hcompleted : (worker.releaseShard L.st.numWorkers n).completedSegments = worker.completedSegments := by
    unfold EdgeWorkerState.releaseShard
    split <;> rfl
  refine ⟨?_, ?_, ?_, ?_, ?_⟩
  · simpa only [hid, hcompleted] using hacc.completed
  · rw [hid]
    change _ ∧ L.heldBy worker.id = [] ∨ _
    rw [show ({ L with st := st } : Ledger).heldBy worker.id = [] from hnil worker.id]
    obtain ⟨hm, -⟩ | ⟨hr, hs⟩ := hacc.slots
    · unfold EdgeWorkerState.releaseShard
      split
      · rename_i hdone
        refine Or.inr ⟨hm.finishShard, fun _ => ⟨hsome, fun segment hsegment => ?_⟩⟩
        rw [show ({ L with st := st } : Ledger).st.numWorkers = L.st.numWorkers from hnum] at hsegment
        refine (hacc.completed segment).mp ?_
        simp only [EdgeWorkerState.shardDone, Bool.and_eq_true, Bool.or_eq_true, beq_iff_eq] at hdone
        obtain hzero | hall := hdone.2
        · rw [shard_eq_empty_of_expectedCount h.numWorkers_pos hzero] at hsegment
          simp at hsegment
        · exact shard_subset_of_completed h.numWorkers_pos
            (fun s hs => h.reported _ ((hacc.completed s).mp hs)) hall hsegment
      · exact Or.inl ⟨hm, hnil _⟩
    · rw [hnil] at hr
      have hskip : worker.releaseShard L.st.numWorkers n = worker := by
        simp [EdgeWorkerState.releaseShard, EdgeWorkerState.shardDone, hr.1]
      rw [hskip]
      refine Or.inr ⟨hr, fun hstark => ?_⟩
      have := (hs hstark).1
      rw [hunknown] at this
      simp at this
  · rw [hid]
    change (L.heldBy worker.id).length ≤ _
    simp [hnil]
  · rw [hid]
    change ∀ item ∈ L.heldBy worker.id, _
    simp [hnil]
  · rw [hid]
    change (L.heldBy worker.id).countP _ ≤ 1
    simp [hnil]

/-- The segment count frees the slots of the shards that are complete, and nothing else. -/
theorem setNumSegments (h : Kept L n []) (hunknown : L.st.numSegments = none) :
    Kept { L with st := { L.st with
      numSegments := some n
      workers := L.st.workers.map (·.releaseShard L.st.numWorkers n) } } n [] := by
  have hids : (L.st.workers.map (·.releaseShard L.st.numWorkers n)).map (·.id) = L.st.workers.map (·.id) := by
    rw [List.map_map]
    refine List.map_congr_left fun w _ => ?_
    simp only [Function.comp_apply, EdgeWorkerState.releaseShard]
    split <;> rfl
  refine { h with ids := hids ▸ h.ids, numSegments := Or.inr rfl, heldWorker := ?_, accounted := ?_, evm_late := ?_,
                    shard_first := ?_ }
  · intro entry hentry
    rw [h.nothing_held hunknown] at hentry
    simp at hentry
  · intro w hw
    obtain ⟨old, hold, rfl⟩ := List.mem_map.mp hw
    exact h.releaseShard_accounted hunknown hold rfl rfl
  · exact fun hnone => absurd hnone (Option.some_ne_none n)
  · intro a ha hevm
    have hknown := (h.shard_first a ha hevm).1
    rw [hunknown] at hknown
    simp at hknown

end Kept
end EdgeProver
