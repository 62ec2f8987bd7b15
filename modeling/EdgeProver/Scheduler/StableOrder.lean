import Mathlib.Algebra.Order.Group.Multiset
import EdgeProver.Lib.StableQueue
import EdgeProver.Scheduler.PriorityQueue

/-! The priority queue of pending work is a stable priority queue over its classes. -/
namespace EdgeProver
open StableQueue

inductive QueueOp where
  | push (item : EdgeWorkItem)
  | pop
  | requeue (item : EdgeWorkItem)

namespace PriorityWorkQueue
variable {q q' : PriorityWorkQueue} {item : EdgeWorkItem}

def exec (q : PriorityWorkQueue) : QueueOp → PriorityWorkQueue
  | .push item => q.push item
  | .pop => (q.pop.map Prod.snd).getD q
  | .requeue item => q.requeue item

def classQueue (q : PriorityWorkQueue) : Nat → List EdgeWorkItem
  | 0 => q.leafQueue
  | c + 1 => if c = maxLayers then q.otherQueue else q.layerQueues[c]?.getD []

private theorem classQueue_new (c : Nat) : new.classQueue c = [] := by
  cases c with
  | zero => rfl
  | succ c =>
    rw [classQueue]
    split
    · rfl
    · simp only [new, List.getElem?_replicate]
      split <;> rfl

private theorem layerSlot_eq (q : PriorityWorkQueue) (layerIdx : Nat) :
    q.layerSlot layerIdx = min layerIdx (maxLayers - 1) := by
  have hlength : q.layerQueues.length = 10 := q.length_layerQueues
  simp only [layerSlot, hlength, maxLayers]
  split <;> omega

private theorem classQueue_push (q : PriorityWorkQueue) (item : EdgeWorkItem) (c : Nat) :
    (q.push item).classQueue c = if rank item = c then q.classQueue c ++ [item] else q.classQueue c := by
  unfold push rank
  split
  · cases c with
    | zero => rfl
    | succ c => rfl
  · rename_i req _
    have hslot := q.layerSlot_lt req.layerIdx
    have hlength : q.layerQueues.length = 10 := q.length_layerQueues
    cases c with
    | zero => rw [if_neg (by omega)]; rfl
    | succ c =>
      rw [layerSlot_eq] at hslot
      simp only [classQueue, List.getElem?_modify, layerSlot_eq]
      by_cases hother : c = maxLayers
      · have hne : ¬ 1 + min req.layerIdx (maxLayers - 1) = c + 1 := by
          simp only [maxLayers] at hother ⊢
          omega
        rw [if_pos hother, if_neg hne, if_pos hother]
      · rw [if_neg hother]
        by_cases hc : min req.layerIdx (maxLayers - 1) = c
        · subst hc
          rw [if_pos (by omega), if_neg hother, List.getElem?_eq_getElem hslot]
          simp
        · rw [if_neg (by omega), if_neg hother]
          simp [hc]
  · cases c with
    | zero => rfl
    | succ c =>
      by_cases hother : c = maxLayers
      · rw [hother, if_pos (by omega)]
        simp [classQueue]
      · rw [if_neg (by omega)]
        simp [classQueue, hother]

private theorem popLayers_some : ∀ {queues rest : List (List EdgeWorkItem)} {item : EdgeWorkItem},
    popLayers queues = some (item, rest) → ∃ i < queues.length, (∀ j < i, queues[j]? = some []) ∧
      queues[i]? = some (item :: rest[i]?.getD []) ∧ ∀ j, j ≠ i → rest[j]? = queues[j]?
  | (item :: queue) :: tail, _, _, h => by
    obtain ⟨rfl, rfl⟩ := Prod.mk.inj (Option.some.inj h)
    refine ⟨0, Nat.succ_pos _, fun j hj => absurd hj (Nat.not_lt_zero j), rfl, fun j hj => ?_⟩
    cases j with
    | zero => exact absurd rfl hj
    | succ j => rfl
  | [] :: tail, _, _, h => by
    obtain ⟨⟨item, rest⟩, hpop, heq⟩ := Option.map_eq_some_iff.mp h
    obtain ⟨rfl, rfl⟩ := Prod.mk.inj heq
    obtain ⟨i, hi, hbelow, hget, hothers⟩ := popLayers_some hpop
    refine ⟨i + 1, Nat.succ_lt_succ hi, fun j hj => ?_, hget, fun j hj => ?_⟩
    · cases j with
      | zero => rfl
      | succ j => exact hbelow j (Nat.lt_of_succ_lt_succ hj)
    · cases j with
      | zero => rfl
      | succ j => exact hothers j fun heq => hj (congrArg Nat.succ heq)

private theorem popLayers_none_getElem? : ∀ {queues : List (List EdgeWorkItem)}, popLayers queues = none →
    ∀ i : Nat, queues[i]?.getD [] = []
  | [], _, _ => rfl
  | (_ :: _) :: _, h, _ => nomatch h
  | [] :: tail, h, i => by
    cases i with
    | zero => rfl
    | succ i => exact popLayers_none_getElem? (Option.map_eq_none_iff.mp h) i

private theorem classQueue_pop (h : q.pop = some (item, q')) :
    ∃ c, (∀ c' < c, q.classQueue c' = []) ∧ q.classQueue c = item :: q'.classQueue c ∧
      ∀ c', c' ≠ c → q'.classQueue c' = q.classQueue c' := by
  have hlength : q.layerQueues.length = 10 := q.length_layerQueues
  unfold pop at h
  split at h
  · rename_i x rest hleaf
    obtain ⟨rfl, rfl⟩ := Prod.mk.inj (Option.some.inj h)
    refine ⟨0, fun c' hc' => absurd hc' (Nat.not_lt_zero c'), hleaf, fun c' hc' => ?_⟩
    cases c' with
    | zero => exact absurd rfl hc'
    | succ c' => rfl
  · rename_i hleaf
    split at h
    · rename_i x rest hlayers
      obtain ⟨rfl, rfl⟩ := Prod.mk.inj (Option.some.inj h)
      obtain ⟨i, hi, hbelow, hget, hothers⟩ := popLayers_some hlayers
      have hlayer : ¬ i = maxLayers := by
        simp only [maxLayers]
        omega
      refine ⟨i + 1, fun c' hc' => ?_, ?_, fun c' hc' => ?_⟩
      · cases c' with
        | zero => exact hleaf
        | succ c' =>
          rw [classQueue, if_neg (by simp only [maxLayers]; omega), hbelow c' (by omega)]
          rfl
      · rw [classQueue, if_neg hlayer, hget, classQueue, if_neg hlayer]
        rfl
      · cases c' with
        | zero => rfl
        | succ c' =>
          have hne : c' ≠ i := fun heq => hc' (congrArg Nat.succ heq)
          rw [classQueue, classQueue, hothers c' hne]
    · rename_i hlayers
      split at h
      · rename_i x rest hother
        obtain ⟨rfl, rfl⟩ := Prod.mk.inj (Option.some.inj h)
        refine ⟨maxLayers + 1, fun c' hc' => ?_, ?_, fun c' hc' => ?_⟩
        · cases c' with
          | zero => exact hleaf
          | succ c' =>
            rw [classQueue, if_neg (by omega)]
            exact popLayers_none_getElem? hlayers c'
        · rw [classQueue, if_pos rfl, hother, classQueue, if_pos rfl]
        · cases c' with
          | zero => rfl
          | succ c' =>
            have hne : ¬ c' = maxLayers := fun heq => hc' (congrArg Nat.succ heq)
            rw [classQueue, if_neg hne, classQueue, if_neg hne]
      · simp at h

private theorem classQueue_of_pop_none (h : q.pop = none) (c : Nat) : q.classQueue c = [] := by
  have hitems := items_of_pop_none h
  simp only [items, List.append_eq_nil_iff, List.flatten_eq_nil_iff] at hitems
  obtain ⟨⟨hleaf, hlayers⟩, hother⟩ := hitems
  cases c with
  | zero => exact hleaf
  | succ c =>
    rw [classQueue]
    split
    · exact hother
    · cases hget : q.layerQueues[c]? with
      | none => rfl
      | some queue => exact hlayers queue (List.mem_of_getElem? hget)

end PriorityWorkQueue

/-- The code's queue after these operations, the latest first. -/
def queueAfter : List QueueOp → PriorityWorkQueue
  | [] => .new
  | op :: earlier => (queueAfter earlier).exec op

/-- The abstract queue: what waits, in the order of its latest enqueue. -/
def waitingAfter : List QueueOp → Waiting EdgeWorkItem
  | [] => .empty
  | .push item :: earlier | .requeue item :: earlier => (waitingAfter earlier).enqueue item
  | .pop :: earlier => (waitingAfter earlier).dequeue PriorityWorkQueue.rank

def pushedItems : List QueueOp → Multiset EdgeWorkItem
  | [] => 0
  | .push item :: earlier => item ::ₘ pushedItems earlier
  | .pop :: earlier | .requeue _ :: earlier => pushedItems earlier

def requeuedItems : List QueueOp → Multiset EdgeWorkItem
  | [] => 0
  | .requeue item :: earlier => item ::ₘ requeuedItems earlier
  | .pop :: earlier | .push _ :: earlier => requeuedItems earlier

def poppedItems : List QueueOp → Multiset EdgeWorkItem
  | [] => 0
  | .pop :: earlier => ((queueAfter earlier).pop.map Prod.fst).toList + poppedItems earlier
  | .push _ :: earlier | .requeue _ :: earlier => poppedItems earlier

/-- The code's queue holds what waits, class by class in the order of the enqueues. -/
def Holds (q : PriorityWorkQueue) (w : Waiting EdgeWorkItem) : Prop :=
  (q.items : Multiset EdgeWorkItem) = w.items ∧ ∀ c, w.fifo PriorityWorkQueue.rank c = q.classQueue c

section
variable {q q' : PriorityWorkQueue} {w : Waiting EdgeWorkItem} {item : EdgeWorkItem}

theorem Holds.push (h : Holds q w) (item : EdgeWorkItem) : Holds (q.push item) (w.enqueue item) := by
  refine ⟨?_, fun c => ?_⟩
  · rw [Waiting.items_enqueue, ← h.1]
    exact Multiset.coe_eq_coe.mpr (q.items_push item)
  · rw [Waiting.fifo_enqueue, q.classQueue_push, h.2 c]

private theorem Holds.next_none (h : Holds q w) (hpop : q.pop = none) : w.next PriorityWorkQueue.rank = none :=
  Waiting.next_eq_none fun c => (h.2 c).trans (PriorityWorkQueue.classQueue_of_pop_none hpop c)

/-- The code pops the item that the abstract queue takes, and both hold the same afterwards. -/
theorem Holds.pop (h : Holds q w) (hpop : q.pop = some (item, q')) :
    ∃ t, w.next PriorityWorkQueue.rank = some (t, item) ∧ Holds q' (w.dequeue PriorityWorkQueue.rank) := by
  obtain ⟨c, hbelow, hhead, hothers⟩ := PriorityWorkQueue.classQueue_pop hpop
  obtain ⟨t, hnext, hrest, hkeep⟩ := Waiting.dequeue_of_fifo (fun c' hc' => (h.2 c').trans (hbelow c' hc'))
    ((h.2 c).trans hhead)
  have hdequeue : w.dequeue PriorityWorkQueue.rank = w.remove (t, item) := by rw [Waiting.dequeue, hnext]
  refine ⟨t, hnext, ?_, fun c' => ?_⟩
  · have hitems := h.1
    rw [Waiting.items_dequeue hnext, PriorityWorkQueue.items_pop hpop, ← Multiset.cons_coe] at hitems
    exact (Multiset.cons_inj_right item).mp hitems
  · rw [hdequeue]
    by_cases hc' : c' = c
    · rw [hc', hrest]
    · rw [hkeep c' hc', hothers c' hc', h.2 c']

end

private theorem holds_after (history : List QueueOp) : Holds (queueAfter history) (waitingAfter history) := by
  induction history with
  | nil => exact ⟨rfl, fun c => (PriorityWorkQueue.classQueue_new c).symm⟩
  | cons op earlier ih =>
    cases op with
    | push item => exact ih.push item
    | requeue item => exact ih.push item
    | pop =>
      simp only [queueAfter, waitingAfter, PriorityWorkQueue.exec]
      cases hpop : (queueAfter earlier).pop with
      | none =>
        rw [Waiting.dequeue, ih.next_none hpop]
        exact ih
      | some popped =>
        have hsome : (queueAfter earlier).pop = some (popped.1, popped.2) := hpop
        obtain ⟨t, -, hholds⟩ := ih.pop hsome
        exact hholds

/-- Pushes and requeues put in what comes out or is still held. -/
theorem conserved (history : List QueueOp) : pushedItems history + requeuedItems history =
    poppedItems history + ((queueAfter history).items : Multiset EdgeWorkItem) := by
  induction history with
  | nil => rfl
  | cons op earlier ih =>
    cases op with
    | push item =>
      have hitems := Multiset.coe_eq_coe.mpr ((queueAfter earlier).items_push item)
      simp only [pushedItems, requeuedItems, poppedItems, queueAfter, PriorityWorkQueue.exec]
      rw [hitems, ← Multiset.cons_coe, Multiset.cons_add, ih, Multiset.add_cons]
    | requeue item =>
      have hitems := Multiset.coe_eq_coe.mpr ((queueAfter earlier).items_requeue item)
      simp only [pushedItems, requeuedItems, poppedItems, queueAfter, PriorityWorkQueue.exec]
      rw [hitems, ← Multiset.cons_coe, Multiset.add_cons, ih, Multiset.add_cons]
    | pop =>
      simp only [pushedItems, requeuedItems, poppedItems, queueAfter, PriorityWorkQueue.exec]
      cases hpop : (queueAfter earlier).pop with
      | none => simpa using ih
      | some popped =>
        have hsome : (queueAfter earlier).pop = some (popped.1, popped.2) := hpop
        have hitems := PriorityWorkQueue.items_pop hsome
        rw [ih, hitems, ← Multiset.cons_coe, Multiset.add_cons]
        simp

/-- After every history of pushes, pops and requeues: what was put in came out and was not put back, or is held; and
the next pop returns the held item of the most urgent class that was enqueued before the others of its class. -/
theorem stable_priority_queue (history : List QueueOp) :
    pushedItems history + requeuedItems history =
      poppedItems history + ((queueAfter history).items : Multiset EdgeWorkItem) ∧
    (requeuedItems history ≤ poppedItems history →
      pushedItems history =
        poppedItems history - requeuedItems history + ((queueAfter history).items : Multiset EdgeWorkItem)) ∧
    ((queueAfter history).items : Multiset EdgeWorkItem) = ((waitingAfter history).items : Multiset EdgeWorkItem) ∧
    ((queueAfter history).pop = none → (queueAfter history).items = []) ∧
    ∀ item rest, (queueAfter history).pop = some (item, rest) →
      ∃ t, (t, item) ∈ (waitingAfter history).entries ∧
        (waitingAfter (.pop :: history)).entries = (waitingAfter history).entries.filter (·.1 ≠ t) ∧
        ∀ other ∈ (waitingAfter history).entries, other ≠ (t, item) →
          PriorityWorkQueue.rank item < PriorityWorkQueue.rank other.2 ∨
            PriorityWorkQueue.rank item = PriorityWorkQueue.rank other.2 ∧ t < other.1 := by
  have hconserved := conserved history
  have hholds := holds_after history
  refine ⟨hconserved, fun hrequeued => ?_, hholds.1, PriorityWorkQueue.items_of_pop_none, fun item rest hpop => ?_⟩
  · rw [← Multiset.sub_add_cancel hrequeued, add_right_comm] at hconserved
    exact add_right_cancel hconserved
  · obtain ⟨t, hnext, -⟩ := hholds.pop hpop
    have hforemost := Waiting.foremost_of_next hnext
    refine ⟨t, hforemost.mem, ?_, hforemost.first⟩
    simp only [waitingAfter, Waiting.dequeue, hnext, Waiting.remove]

end EdgeProver
