import Mathlib.Data.List.Perm.Basic
import EdgeProver.Protocol

/-! The priority queue of pending work: one FIFO for leaf proofs, one for each internal layer, one for
the rest. -/
namespace EdgeProver

structure EdgeWorkItem where
  envelope : MessageEnvelope GeneralProveRequest
  step : Step
  deriving DecidableEq, Repr

def maxLayers : Nat := 10

structure PriorityWorkQueue where
  leafQueue : List EdgeWorkItem
  layerQueues : List (List EdgeWorkItem)
  otherQueue : List EdgeWorkItem
  /-- `layer_queues.last().unwrap()` finds a queue. -/
  length_layerQueues : layerQueues.length = maxLayers

namespace PriorityWorkQueue

def new : PriorityWorkQueue where
  leafQueue := []
  layerQueues := List.replicate maxLayers []
  otherQueue := []
  length_layerQueues := rfl

/-- The queue an internal item of this layer goes to: its own, or the last one. -/
def layerSlot (q : PriorityWorkQueue) (layerIdx : Nat) : Nat :=
  if layerIdx < q.layerQueues.length then layerIdx else q.layerQueues.length - 1

def push (q : PriorityWorkQueue) (item : EdgeWorkItem) : PriorityWorkQueue :=
  match item.envelope.message with
  | .leafProve _ => { q with leafQueue := q.leafQueue ++ [item] }
  | .internalProve req =>
    { q with
      layerQueues := q.layerQueues.modify (q.layerSlot req.layerIdx) (· ++ [item])
      length_layerQueues := (List.length_modify ..).trans q.length_layerQueues }
  | .evmProve _ => { q with otherQueue := q.otherQueue ++ [item] }

/-- The head of the first layer queue that has one. -/
def popLayers : List (List EdgeWorkItem) → Option (EdgeWorkItem × List (List EdgeWorkItem))
  | [] => none
  | (item :: queue) :: rest => some (item, queue :: rest)
  | [] :: rest => (popLayers rest).map fun popped => (popped.1, [] :: popped.2)

private theorem popLayers_length : ∀ {queues : List (List EdgeWorkItem)} {item rest},
    popLayers queues = some (item, rest) → rest.length = queues.length
  | (item :: queue) :: tail, _, _, h => by
    simp only [popLayers, Option.some.injEq, Prod.mk.injEq] at h
    simp [← h.2]
  | [] :: tail, _, _, h => by
    simp only [popLayers, Option.map_eq_some_iff, Prod.mk.injEq] at h
    obtain ⟨⟨item, rest⟩, hpop, rfl, rfl⟩ := h
    simp [popLayers_length hpop]

def pop (q : PriorityWorkQueue) : Option (EdgeWorkItem × PriorityWorkQueue) :=
  match q.leafQueue with
  | item :: rest => some (item, { q with leafQueue := rest })
  | [] =>
    match h : popLayers q.layerQueues with
    | some (item, rest) =>
      some (item, { q with
        layerQueues := rest
        length_layerQueues := (popLayers_length h).trans q.length_layerQueues })
    | none =>
      match q.otherQueue with
      | item :: rest => some (item, { q with otherQueue := rest })
      | [] => none

def requeue (q : PriorityWorkQueue) (item : EdgeWorkItem) : PriorityWorkQueue := q.push item

def isEmpty (q : PriorityWorkQueue) : Bool :=
  q.leafQueue.isEmpty && q.layerQueues.all (·.isEmpty) && q.otherQueue.isEmpty

def items (q : PriorityWorkQueue) : List EdgeWorkItem :=
  q.leafQueue ++ q.layerQueues.flatten ++ q.otherQueue

private theorem flatten_modify {α : Type*} (x : α) :
    ∀ {queues : List (List α)} {i : Nat}, i < queues.length →
      (queues.modify i (· ++ [x])).flatten.Perm (x :: queues.flatten)
  | queue :: rest, 0, _ => by
    simp only [List.modify_zero_cons, List.flatten_cons, List.append_assoc, List.singleton_append]
    exact List.perm_middle
  | queue :: rest, i + 1, h => by
    simp only [List.modify_succ_cons, List.flatten_cons]
    have hi : i < rest.length := by simpa using h
    have ih := flatten_modify x hi
    exact (ih.append_left queue).trans List.perm_middle

theorem layerSlot_lt (q : PriorityWorkQueue) (layerIdx : Nat) :
    q.layerSlot layerIdx < q.layerQueues.length := by
  have hlen : q.layerQueues.length = 10 := q.length_layerQueues
  unfold layerSlot
  split <;> omega

theorem items_push (q : PriorityWorkQueue) (item : EdgeWorkItem) :
    (q.push item).items.Perm (item :: q.items) := by
  unfold push items
  split
  · simp only [List.append_assoc, List.singleton_append]
    exact List.perm_middle
  · have hlayers := flatten_modify item (q.layerSlot_lt ‹InternalProveRequest›.layerIdx)
    refine ((hlayers.append_left q.leafQueue).append_right q.otherQueue).trans ?_
    simp only [List.append_assoc, List.cons_append]
    exact List.perm_middle
  · rw [← List.append_assoc]
    exact List.perm_append_singleton item _

theorem items_requeue (q : PriorityWorkQueue) (item : EdgeWorkItem) :
    (q.requeue item).items.Perm (item :: q.items) := q.items_push item

private theorem popLayers_flatten : ∀ {queues : List (List EdgeWorkItem)} {item rest},
    popLayers queues = some (item, rest) → queues.flatten = item :: rest.flatten
  | (item :: queue) :: tail, _, _, h => by
    simp only [popLayers, Option.some.injEq, Prod.mk.injEq] at h
    obtain ⟨rfl, rfl⟩ := h
    rfl
  | [] :: tail, _, _, h => by
    simp only [popLayers, Option.map_eq_some_iff, Prod.mk.injEq] at h
    obtain ⟨⟨item, rest⟩, hpop, rfl, rfl⟩ := h
    simpa using popLayers_flatten hpop

private theorem popLayers_none : ∀ {queues : List (List EdgeWorkItem)},
    popLayers queues = none → queues.flatten = []
  | [], _ => rfl
  | (_ :: _) :: _, h => by simp [popLayers] at h
  | [] :: tail, h => by
    simp only [popLayers, Option.map_eq_none_iff] at h
    simpa using popLayers_none h

/-- A pop takes the first of the items. -/
theorem items_pop {q q' : PriorityWorkQueue} {item : EdgeWorkItem} (h : q.pop = some (item, q')) :
    q.items = item :: q'.items := by
  unfold pop at h
  split at h
  · rename_i x rest hleaf
    obtain ⟨rfl, rfl⟩ := Prod.mk.inj (Option.some.inj h)
    simp [items, hleaf]
  · rename_i hleaf
    split at h
    · rename_i x rest hlayers
      obtain ⟨rfl, rfl⟩ := Prod.mk.inj (Option.some.inj h)
      simp [items, hleaf, popLayers_flatten hlayers]
    · rename_i hlayers
      split at h
      · rename_i x rest hother
        obtain ⟨rfl, rfl⟩ := Prod.mk.inj (Option.some.inj h)
        simp [items, hleaf, popLayers_none hlayers, hother]
      · simp at h

theorem items_of_pop_none {q : PriorityWorkQueue} (h : q.pop = none) : q.items = [] := by
  unfold pop at h
  split at h
  · simp at h
  · rename_i hleaf
    split at h
    · simp at h
    · rename_i hlayers
      split at h
      · simp at h
      · rename_i hother
        simp [items, hleaf, popLayers_none hlayers, hother]

@[simp] theorem items_new : new.items = [] := rfl

theorem isEmpty_iff {q : PriorityWorkQueue} : q.isEmpty = true ↔ q.items = [] := by
  simp [isEmpty, items, List.flatten_eq_nil_iff, and_assoc]

/-- The class of an item: leaf, then the internal layers with the last queue shared, then the rest. -/
def rank (item : EdgeWorkItem) : Nat :=
  match item.envelope.message with
  | .leafProve _ => 0
  | .internalProve req => 1 + min req.layerIdx (maxLayers - 1)
  | .evmProve _ => 1 + maxLayers

/-- Every item lies in the queue of its class. -/
structure Filed (q : PriorityWorkQueue) : Prop where
  leaf : ∀ item ∈ q.leafQueue, rank item = 0
  layer : ∀ i queue, q.layerQueues[i]? = some queue → ∀ item ∈ queue, rank item = 1 + i
  other : ∀ item ∈ q.otherQueue, rank item = 1 + maxLayers

theorem filed_new : new.Filed := by
  refine ⟨by simp [new], fun i queue hqueue item hitem => ?_, by simp [new]⟩
  have hempty : queue = [] := List.eq_of_mem_replicate (List.mem_of_getElem? hqueue)
  simp [hempty] at hitem

theorem Filed.push {q : PriorityWorkQueue} (h : q.Filed) (item : EdgeWorkItem) : (q.push item).Filed := by
  unfold PriorityWorkQueue.push
  split
  · rename_i req hreq
    refine ⟨fun x hx => ?_, h.layer, h.other⟩
    rcases List.mem_append.mp hx with hx | hx
    · exact h.leaf x hx
    · rw [List.mem_singleton.mp hx, rank, hreq]
  · rename_i req hreq
    refine ⟨h.leaf, fun i queue hqueue x hx => ?_, h.other⟩
    rw [List.getElem?_modify] at hqueue
    obtain ⟨old, hold, rfl⟩ := Option.map_eq_some_iff.mp hqueue
    split at hx
    · rename_i hslot
      rcases List.mem_append.mp hx with hx | hx
      · exact h.layer i old hold x hx
      · have hlen : q.layerQueues.length = 10 := q.length_layerQueues
        rw [List.mem_singleton.mp hx, rank, hreq, ← hslot, layerSlot, hlen]
        simp only [maxLayers]
        split <;> omega
    · exact h.layer i old hold x hx
  · rename_i req hreq
    refine ⟨h.leaf, h.layer, fun x hx => ?_⟩
    rcases List.mem_append.mp hx with hx | hx
    · exact h.other x hx
    · rw [List.mem_singleton.mp hx, rank, hreq]

private theorem popLayers_getElem? : ∀ {queues : List (List EdgeWorkItem)} {item rest},
    popLayers queues = some (item, rest) → ∀ {i : Nat} {queue : List EdgeWorkItem}, rest[i]? = some queue →
      ∃ old : List EdgeWorkItem, queues[i]? = some old ∧ ∀ x ∈ queue, x ∈ old
  | (item :: queue) :: tail, _, _, h, i, _, hqueue => by
    simp only [popLayers, Option.some.injEq, Prod.mk.injEq] at h
    obtain ⟨rfl, rfl⟩ := h
    cases i with
    | zero =>
      obtain rfl := Option.some.inj hqueue
      exact ⟨_, rfl, fun x hx => List.mem_cons_of_mem _ hx⟩
    | succ i => exact ⟨_, hqueue, fun x hx => hx⟩
  | [] :: tail, _, _, h, i, _, hqueue => by
    simp only [popLayers, Option.map_eq_some_iff, Prod.mk.injEq] at h
    obtain ⟨⟨item, rest⟩, hpop, rfl, rfl⟩ := h
    cases i with
    | zero => exact ⟨_, hqueue, fun x hx => hx⟩
    | succ i => exact popLayers_getElem? hpop (i := i) hqueue

theorem Filed.pop {q q' : PriorityWorkQueue} {item : EdgeWorkItem} (h : q.Filed)
    (hpop : q.pop = some (item, q')) : q'.Filed := by
  unfold PriorityWorkQueue.pop at hpop
  split at hpop
  · rename_i x rest hleaf
    obtain ⟨rfl, rfl⟩ := Prod.mk.inj (Option.some.inj hpop)
    exact ⟨fun y hy => h.leaf y (hleaf ▸ List.mem_cons_of_mem _ hy), h.layer, h.other⟩
  · split at hpop
    · rename_i x rest hlayers
      obtain ⟨rfl, rfl⟩ := Prod.mk.inj (Option.some.inj hpop)
      refine ⟨h.leaf, fun i queue hqueue y hy => ?_, h.other⟩
      obtain ⟨old, hold, hmem⟩ := popLayers_getElem? hlayers hqueue
      exact h.layer i old hold y (hmem y hy)
    · split at hpop
      · rename_i x rest hother
        obtain ⟨rfl, rfl⟩ := Prod.mk.inj (Option.some.inj hpop)
        exact ⟨h.leaf, h.layer, fun y hy => h.other y (hother ▸ List.mem_cons_of_mem _ hy)⟩
      · simp at hpop

private theorem mem_layers {q : PriorityWorkQueue} {item : EdgeWorkItem} (hitem : item ∈ q.layerQueues.flatten) :
    ∃ i queue, q.layerQueues[i]? = some queue ∧ item ∈ queue ∧ i < maxLayers := by
  obtain ⟨queue, hqueue, hmem⟩ := List.mem_flatten.mp hitem
  obtain ⟨i, hi, rfl⟩ := List.mem_iff_getElem.mp hqueue
  exact ⟨i, _, List.getElem?_eq_getElem hi, hmem, q.length_layerQueues ▸ hi⟩

/-- An item of the last class comes out only when nothing else is left. -/
theorem Filed.last_class {q q' : PriorityWorkQueue} {item other : EdgeWorkItem} (h : q.Filed)
    (hpop : q.pop = some (item, q')) (hrank : rank item = 1 + maxLayers) (hother : other ∈ q.items) :
    rank other = 1 + maxLayers := by
  have hfront : item ∉ q.leafQueue ++ q.layerQueues.flatten := by
    intro hmem
    rcases List.mem_append.mp hmem with hmem | hmem
    · rw [h.leaf item hmem] at hrank
      omega
    · obtain ⟨i, queue, hqueue, hmem, hi⟩ := mem_layers hmem
      rw [h.layer i queue hqueue item hmem] at hrank
      omega
  have hitems := items_pop hpop
  have hempty : q.leafQueue ++ q.layerQueues.flatten = [] := by
    by_contra hne
    obtain ⟨x, rest, hx⟩ := List.exists_cons_of_ne_nil hne
    rw [items, hx, List.cons_append] at hitems
    exact hfront (by rw [hx, List.head_eq_of_cons_eq hitems]; exact List.mem_cons_self)
  rw [items, hempty, List.nil_append] at hother
  exact h.other other hother

end PriorityWorkQueue
end EdgeProver
