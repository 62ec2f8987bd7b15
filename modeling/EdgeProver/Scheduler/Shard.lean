import Mathlib.Data.List.TakeWhile
import EdgeProver.Scheduler.State

/-! The shard of a worker: its segments, and the arithmetic by which the scheduler counts them. -/
namespace EdgeProver

/-- Segments below `total` that worker `workerId` of `numWorkers` owns. -/
def shard (workerId numWorkers total : Nat) : Finset Nat :=
  (Finset.range total).filter (· % numWorkers = workerId)

theorem mem_shard {workerId numWorkers total segment : Nat} :
    segment ∈ shard workerId numWorkers total ↔ segment < total ∧ segment % numWorkers = workerId := by
  rw [shard, Finset.mem_filter, Finset.mem_range]

private theorem expectedCount_eq {numWorkers : Nat} (hworkers : 0 < numWorkers) (workerId total : Nat) :
    expectedCount workerId numWorkers total = (total - workerId) ⌈/⌉ numWorkers := by
  unfold expectedCount
  split
  · exact divCeil_eq hworkers
  · rw [Nat.sub_eq_zero_of_le (by omega), zero_ceilDiv]

private theorem shard_eq_image {workerId numWorkers : Nat} (hid : workerId < numWorkers) (total : Nat) :
    shard workerId numWorkers total =
      (Finset.range (expectedCount workerId numWorkers total)).image (workerId + · * numWorkers) := by
  have hworkers : 0 < numWorkers := by omega
  ext segment
  simp only [mem_shard, Finset.mem_image, Finset.mem_range, expectedCount_eq hworkers,
    FoldTree.lt_ceilDiv hworkers]
  constructor
  · rintro ⟨hlt, hmod⟩
    have hdiv := Nat.mod_add_div' segment numWorkers
    exact ⟨segment / numWorkers, by omega, by omega⟩
  · rintro ⟨k, hk, rfl⟩
    refine ⟨by omega, ?_⟩
    rw [Nat.add_mul_mod_self_right, Nat.mod_eq_of_lt hid]

/-- The count is the size of the shard of every worker the manager numbers below `numWorkers`. -/
theorem card_shard {workerId numWorkers : Nat} (hid : workerId < numWorkers) (total : Nat) :
    (shard workerId numWorkers total).card = expectedCount workerId numWorkers total := by
  rw [shard_eq_image hid, Finset.card_image_of_injective, Finset.card_range]
  intro a b hab
  have : a * numWorkers = b * numWorkers := by simpa using hab
  exact Nat.eq_of_mul_eq_mul_right (by omega) this

/-- A worker numbered beyond `numWorkers` owns nothing, whatever the count says. -/
theorem card_shard_le {numWorkers : Nat} (hworkers : 0 < numWorkers) (workerId total : Nat) :
    (shard workerId numWorkers total).card ≤ expectedCount workerId numWorkers total := by
  by_cases hid : workerId < numWorkers
  · exact (card_shard hid total).le
  · have hempty : shard workerId numWorkers total = ∅ := by
      refine Finset.filter_eq_empty_iff.mpr fun segment _ hmod => ?_
      have := Nat.mod_lt segment hworkers
      omega
    simp [hempty]

theorem completedAll_iff {numWorkers : Nat} (hworkers : 0 < numWorkers) (workerId total : Nat)
    (completed : Finset Nat) : workerCompletedAllSegments workerId completed numWorkers (some total) = true ↔
      expectedCount workerId numWorkers total ≤ (completed.filter (· % numWorkers = workerId)).card := by
  simp only [workerCompletedAllSegments, hworkers, decide_true, Bool.true_and, decide_eq_true_eq]

/-- Where only segments of the shard were received, the scheduler takes the shard for complete no
earlier than it is. -/
theorem shard_subset_of_completed {workerId numWorkers total : Nat} {completed : Finset Nat}
    (hworkers : 0 < numWorkers) (hsub : completed ⊆ shard workerId numWorkers total)
    (h : workerCompletedAllSegments workerId completed numWorkers (some total) = true) :
    shard workerId numWorkers total ⊆ completed := by
  have hcount : expectedCount workerId numWorkers total ≤ completed.card := by
    have hfilter := Finset.card_filter_le completed (· % numWorkers = workerId)
    exact ((completedAll_iff hworkers workerId total completed).mp h).trans hfilter
  rw [Finset.eq_of_subset_of_card_le hsub ((card_shard_le hworkers workerId total).trans hcount)]

theorem completed_of_shard_subset {workerId numWorkers total : Nat} {completed : Finset Nat}
    (hid : workerId < numWorkers) (h : shard workerId numWorkers total ⊆ completed) :
    workerCompletedAllSegments workerId completed numWorkers (some total) = true := by
  refine (completedAll_iff (Nat.zero_lt_of_lt hid) workerId total completed).mpr ?_
  rw [← card_shard hid]
  exact Finset.card_le_card fun segment hs =>
    Finset.mem_filter.mpr ⟨h hs, (mem_shard.mp hs).2⟩

theorem shard_eq_empty_of_expectedCount {workerId numWorkers total : Nat} (hworkers : 0 < numWorkers)
    (h : expectedCount workerId numWorkers total = 0) : shard workerId numWorkers total = ∅ := by
  rw [← Finset.card_eq_zero]
  have := card_shard_le hworkers workerId total
  omega

namespace EdgeWorkerState
variable {numWorkers n : Nat} {workers : List EdgeWorkerState} {w : EdgeWorkerState}

theorem not_dividesByZero (h : 0 < numWorkers) (n : Nat) (w : EdgeWorkerState) :
    w.dividesByZero numWorkers n = false := by
  simp [dividesByZero, Nat.pos_iff_ne_zero.mp h]

/-- With a worker to divide by, the loop gets to the end. -/
theorem releaseShards_eq (h : 0 < numWorkers) (n : Nat) (workers : List EdgeWorkerState) :
    releaseShards numWorkers n workers = workers.map (·.releaseShard numWorkers n) := by
  have hall : ∀ w ∈ workers, (!w.dividesByZero numWorkers n) = true := fun w _ => by rw [not_dividesByZero h]; rfl
  rw [releaseShards, List.takeWhile_eq_self_iff.mpr hall, List.dropWhile_eq_nil_iff.mpr hall, List.append_nil]

theorem mem_releaseShards (h : w ∈ releaseShards numWorkers n workers) :
    ∃ old ∈ workers, w = old.releaseShard numWorkers n ∨ w = old ∧ numWorkers = 0 := by
  rcases List.mem_append.mp h with hreached | hrest
  · obtain ⟨old, hold, rfl⟩ := List.mem_map.mp hreached
    exact ⟨old, (List.takeWhile_sublist _).subset hold, .inl rfl⟩
  · refine ⟨w, (List.dropWhile_sublist _).subset hrest, ?_⟩
    rcases Nat.eq_zero_or_pos numWorkers with hnone | hworkers
    · exact .inr ⟨rfl, hnone⟩
    · have hall : ∀ w ∈ workers, (!w.dividesByZero numWorkers n) = true :=
        fun w _ => by rw [not_dividesByZero hworkers]; rfl
      simp [List.dropWhile_eq_nil_iff.mpr hall] at hrest

/-- What giving the shard back keeps of a worker, the loop keeps of all. -/
theorem map_releaseShards {α : Type*} (f : EdgeWorkerState → α) (hf : ∀ w, f (w.releaseShard numWorkers n) = f w)
    (workers : List EdgeWorkerState) : (releaseShards numWorkers n workers).map f = workers.map f := by
  rw [releaseShards, List.map_append, List.map_map, show f ∘ (·.releaseShard numWorkers n) = f from funext hf,
    ← List.map_append, List.takeWhile_append_dropWhile]

theorem releaseShard_id (numWorkers n : Nat) (w : EdgeWorkerState) : (w.releaseShard numWorkers n).id = w.id := by
  unfold releaseShard
  split <;> rfl

end EdgeWorkerState

/-- With a worker to divide by, the loop releases every shard that is complete. -/
theorem EdgeProofState.setNumSegments_eq {st : EdgeProofState} (h : 0 < st.numWorkers) (proofUuid : String) (n : Nat) :
    st.setNumSegments proofUuid n =
      let released :=
        { st with numSegments := some n, workers := st.workers.map (·.releaseShard st.numWorkers n) }
      if st.workers.any (·.shardDone st.numWorkers n) then released.drainPending proofUuid else ([], released) := by
  have hnone : st.workers.any (·.dividesByZero st.numWorkers n) = false :=
    List.any_eq_false.mpr fun w _ => by rw [EdgeWorkerState.not_dividesByZero h]; decide
  simp only [setNumSegments, EdgeWorkerState.releaseShards_eq h, hnone, Bool.not_false, Bool.true_and]

end EdgeProver
