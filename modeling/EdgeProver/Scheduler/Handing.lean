import EdgeProver.Scheduler.Placement

/-! A call of the scheduler hands its items out one after the other, each to a worker that may take it. What one
item keeps of a worker, the whole call keeps. -/
namespace EdgeProver
open Replace

/-- From `st` these works are handed out in turn; in between items enter and leave the queue. -/
inductive HandsOut : EdgeProofState → List AssignedWork → EdgeProofState → Prop
  | queue (st : EdgeProofState) (pending : PriorityWorkQueue) : HandsOut st [] { st with pending := pending }
  | give {st next st' : EdgeProofState} {pending : PriorityWorkQueue} {worker : EdgeWorkerState} {work : AssignedWork}
      {works : List AssignedWork} (hid : work.workerId = worker.id)
      (hassigns : EdgeProofState.Assigns { st with pending := pending } work.item worker next)
      (hrest : HandsOut next works st') : HandsOut st (work :: works) st'

variable {st st' : EdgeProofState} {works : List AssignedWork}

namespace HandsOut

theorem refl (st : EdgeProofState) : HandsOut st [] st := .queue st st.pending

theorem numSegments (h : HandsOut st works st') : st'.numSegments = st.numSegments := by
  induction h with
  | queue => rfl
  | give hid hassigns hrest ih => exact ih.trans hassigns.numSegments

theorem numWorkers (h : HandsOut st works st') : st'.numWorkers = st.numWorkers := by
  induction h with
  | queue => rfl
  | give hid hassigns hrest ih => exact ih.trans hassigns.numWorkers

theorem ids (h : HandsOut st works st') : st'.workers.map (·.id) = st.workers.map (·.id) := by
  induction h with
  | queue => rfl
  | give hid hassigns hrest ih => exact ih.trans (hassigns.replaces.map_eq _ rfl)

/-- Work only goes to workers of the proof. -/
theorem known (h : HandsOut st works st') : ∀ work ∈ works, work.workerId ∈ st.workers.map (·.id) := by
  induction h with
  | queue => exact List.forall_mem_nil _
  | give hid hassigns hrest ih =>
    refine List.forall_mem_cons.mpr ⟨hid ▸ List.mem_map_of_mem hassigns.replaces.mem_left, fun work hwork => ?_⟩
    rw [← hassigns.replaces.map_eq (·.id) rfl]
    exact ih work hwork

/-- What a worker's number of new items says of it is carried from item to item. -/
theorem forall_workers {P : Nat → EdgeWorkerState → Prop}
    (hgive : ∀ k w item, P k w → w.workerRole.takes item.step = true →
      w.activeProofCount = 0 ∨ w.runs .shardedAppProve = false → P (k + 1) (w.assign item))
    (h : HandsOut st works st') (hids : (st.workers.map (·.id)).Nodup) (sends : Nat → Nat)
    (hst : ∀ w ∈ st.workers, P (sends w.id) w) :
    ∀ w ∈ st'.workers, P (sends w.id + works.countP (·.workerId == w.id)) w := by
  induction h generalizing sends with
  | queue => exact hst
  | @give st next st' pending worker work works hid hassigns hrest ih =>
    have hnext := hassigns.replaces.map_eq (·.id) rfl
    have hfirst : ∀ w ∈ next.workers, P (sends w.id + if work.workerId == w.id then 1 else 0) w := fun w hw => by
      obtain rfl | ⟨hmem, hne⟩ := hassigns.replaces.other_of_mem_right (·.id) hids rfl hw
      · have hself : (work.workerId == (worker.assign work.item).id) = true := beq_iff_eq.mpr hid
        rw [if_pos hself]
        have haccepts := hassigns.accepts
        exact hgive _ worker work.item (hst worker hassigns.replaces.mem_left) haccepts.takes haccepts.shard
      · rw [if_neg (fun he => hne (hid ▸ (beq_iff_eq.mp he).symm))]
        exact hst w hmem
    intro w hw
    have hlast := ih (hnext ▸ hids) (fun id => sends id + if work.workerId == id then 1 else 0) hfirst w hw
    rw [List.countP_cons, Nat.add_comm (works.countP _), ← Nat.add_assoc]
    exact hlast

end HandsOut

namespace EdgeProofState

theorem handsOut_assignOrQueue (st : EdgeProofState) (proofUuid : String) (item : EdgeWorkItem) :
    HandsOut st (st.assignOrQueue proofUuid item.envelope item.step).1.toList
      (st.assignOrQueue proofUuid item.envelope item.step).2 := by
  obtain ⟨work, worker, idx, hcall, rfl, hid, hpick⟩ | ⟨-, hcall⟩ := st.assignOrQueue_cases proofUuid item
  · rw [hcall]
    exact .give hid (assigns_of_pickWorker hpick proofUuid) (.refl _)
  · rw [hcall]
    exact .queue st _

theorem handsOut_tryDequeueWork (st : EdgeProofState) (proofUuid : String) :
    HandsOut st (st.tryDequeueWork proofUuid).1.toList (st.tryDequeueWork proofUuid).2 := by
  obtain ⟨-, hcall⟩ | ⟨item, pending, -, ⟨work, worker, idx, hcall, rfl, hid, hpick⟩ | ⟨-, hcall⟩⟩ :=
    st.tryDequeueWork_cases proofUuid
  · rw [hcall]
    exact .refl st
  · rw [hcall]
    exact .give hid (assigns_of_pickWorker hpick proofUuid) (.refl _)
  · rw [hcall]
    exact .queue st _

theorem handsOut_drainLoop (proofUuid : String) (fuel : Nat) (st : EdgeProofState) :
    HandsOut st (drainLoop proofUuid fuel st).1 (drainLoop proofUuid fuel st).2 := by
  induction fuel generalizing st with
  | zero => exact .refl st
  | succ fuel ih =>
    obtain ⟨-, hcall⟩ | ⟨item, pending, -, ⟨work, worker, idx, hcall, rfl, hid, hpick⟩ | ⟨-, hcall⟩⟩ :=
      st.tryDequeueWork_cases proofUuid
    · unfold drainLoop
      rw [hcall]
      exact .refl st
    · unfold drainLoop
      rw [hcall]
      exact .give hid (assigns_of_pickWorker hpick proofUuid) (ih _)
    · unfold drainLoop
      rw [hcall]
      exact .queue st _

/-- The segment count frees slots, and then items are handed out. -/
theorem handsOut_setNumSegments (st : EdgeProofState) (proofUuid : String) (n : Nat) :
    HandsOut { st with numSegments := some n, workers := EdgeWorkerState.releaseShards st.numWorkers n st.workers }
      (st.setNumSegments proofUuid n).1 (st.setNumSegments proofUuid n).2 := by
  unfold setNumSegments
  split
  · exact handsOut_drainLoop proofUuid _ _
  · exact .refl _

end EdgeProofState
end EdgeProver
