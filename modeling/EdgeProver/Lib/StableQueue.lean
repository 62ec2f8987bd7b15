import Mathlib.Data.List.MinMax
import Mathlib.Data.Multiset.AddSub

/-! A stable priority queue: entries wait in the order of their enqueues, and a dequeue takes the oldest entry of
the least class present. -/
namespace StableQueue

/-- The waiting entries, oldest first, each with the time of its enqueue. -/
structure Waiting (α : Type*) where
  entries : List (Nat × α)
  clock : Nat
  sorted : entries.Pairwise (·.1 < ·.1)
  past : ∀ e ∈ entries, e.1 < clock

variable {α κ : Type*} [LinearOrder κ] {rank : α → κ} {w : Waiting α} {e : Nat × α}

namespace Waiting

def empty : Waiting α := ⟨[], 0, List.Pairwise.nil, List.forall_mem_nil _⟩

def items (w : Waiting α) : List α := w.entries.map Prod.snd

def enqueue (w : Waiting α) (x : α) : Waiting α where
  entries := w.entries ++ [(w.clock, x)]
  clock := w.clock + 1
  sorted := by
    refine List.pairwise_append.mpr ⟨w.sorted, List.pairwise_singleton _ _, fun e he other hother => ?_⟩
    rw [List.mem_singleton.mp hother]
    exact w.past e he
  past := by
    intro e he
    rcases List.mem_append.mp he with he | he
    · exact (w.past e he).trans (Nat.lt_succ_self _)
    · rw [List.mem_singleton.mp he]
      exact Nat.lt_succ_self _

def remove (w : Waiting α) (e : Nat × α) : Waiting α where
  entries := w.entries.filter (·.1 ≠ e.1)
  clock := w.clock
  sorted := w.sorted.filter _
  past := fun other hother => w.past other (List.mem_filter.mp hother).1

/-- The entry that a dequeue takes: `argmin` settles for the first of several. -/
def next (rank : α → κ) (w : Waiting α) : Option (Nat × α) := w.entries.argmin (fun e => rank e.2)

def dequeue (rank : α → κ) (w : Waiting α) : Waiting α :=
  match w.next rank with
  | some e => w.remove e
  | none => w

/-- The waiting items of one class. -/
def fifo (rank : α → κ) (w : Waiting α) (c : κ) : List α := (w.entries.filter (rank ·.2 = c)).map Prod.snd

end Waiting

/-- No waiting entry is more urgent, and none of its class is older. -/
structure Foremost (rank : α → κ) (w : Waiting α) (e : Nat × α) : Prop where
  mem : e ∈ w.entries
  first : ∀ other ∈ w.entries, other ≠ e → rank e.2 < rank other.2 ∨ rank e.2 = rank other.2 ∧ e.1 < other.1

namespace Waiting

/-- The time of its enqueue tells an entry apart. -/
theorem eq_of_time {other : Nat × α} (he : e ∈ w.entries) (hother : other ∈ w.entries) (h : other.1 = e.1) :
    other = e := by
  by_contra hne
  obtain ⟨i, hi, rfl⟩ := List.mem_iff_getElem.mp he
  obtain ⟨j, hj, rfl⟩ := List.mem_iff_getElem.mp hother
  have hsorted := List.pairwise_iff_getElem.mp w.sorted
  rcases Nat.lt_trichotomy i j with hlt | rfl | hlt
  · exact absurd (hsorted i j hi hj hlt) (by omega)
  · exact hne rfl
  · exact absurd (hsorted j i hj hi hlt) (by omega)

private theorem entries_remove (he : e ∈ w.entries) : w.entries.Perm (e :: (w.remove e).entries) := by
  have hnodup : w.entries.Nodup := w.sorted.imp fun h heq => absurd h (by rw [heq]; exact lt_irrefl _)
  have hsame : w.entries.filter (·.1 = e.1) = [e] := by
    have hnodup' := hnodup.filter (·.1 = e.1)
    refine List.perm_singleton.mp ((List.perm_ext_iff_of_nodup hnodup' (List.nodup_singleton e)).mpr fun other => ?_)
    rw [List.mem_filter, decide_eq_true_eq, List.mem_singleton]
    refine ⟨fun h => eq_of_time he h.1 h.2, ?_⟩
    rintro rfl
    exact ⟨he, rfl⟩
  have hsplit := (List.filter_append_perm (fun other : Nat × α => decide (other.1 = e.1)) w.entries).symm
  rw [hsame] at hsplit
  refine hsplit.trans (List.Perm.of_eq ?_)
  simp [remove]

private theorem rel_of_argmin {β : Type*} [DecidableEq β] {f : β → κ} {R : β → β → Prop} {l : List β} {a m : β}
    (hsorted : l.Pairwise R) (hm : m ∈ l.argmin f) (ha : a ∈ l) (hle : f a ≤ f m) (hne : a ≠ m) : R m a := by
  have hlt : l.idxOf m < l.idxOf a := by
    refine lt_of_le_of_ne (List.index_of_argmin hm ha hle) fun hidx => hne ?_
    exact (List.idxOf_inj ha).mp hidx.symm
  have hrel := List.pairwise_iff_getElem.mp hsorted _ _ (List.idxOf_lt_length_of_mem (List.argmin_mem hm))
    (List.idxOf_lt_length_of_mem ha) hlt
  rwa [List.getElem_idxOf, List.getElem_idxOf] at hrel

/-- The entry taken is the foremost one. -/
theorem foremost_of_next (h : w.next rank = some e) : Foremost rank w e := by
  classical
  refine ⟨List.argmin_mem h, fun other hother hne => ?_⟩
  rcases (List.le_of_mem_argmin hother h).lt_or_eq with hlt | heq
  · exact .inl hlt
  · exact .inr ⟨heq, rel_of_argmin (R := fun e other : Nat × α => e.1 < other.1) w.sorted h hother heq.ge hne⟩

/-- There is no other foremost entry. -/
theorem next_of_foremost (h : Foremost rank w e) : w.next rank = some e := by
  cases hnext : w.next rank with
  | none =>
    have hempty : w.entries = [] := List.argmin_eq_none.mp hnext
    have hmem := h.mem
    rw [hempty] at hmem
    exact absurd hmem List.not_mem_nil
  | some other =>
    have hother := foremost_of_next hnext
    by_contra hne
    have hne' : other ≠ e := fun heq => hne (congrArg some heq)
    rcases h.first other hother.mem hne' with hlt | ⟨heq, hlt⟩ <;>
      rcases hother.first e h.mem hne'.symm with hlt' | ⟨heq', hlt'⟩
    · exact lt_asymm hlt hlt'
    · exact absurd heq' hlt.ne'
    · exact absurd heq hlt'.ne'
    · exact lt_asymm hlt hlt'

theorem next_eq_none (h : ∀ c, w.fifo rank c = []) : w.next rank = none := by
  apply List.argmin_eq_none.mpr
  by_contra hne
  obtain ⟨e, rest, hcons⟩ := List.exists_cons_of_ne_nil hne
  have hempty := h (rank e.2)
  rw [fifo, List.map_eq_nil_iff, List.filter_eq_nil_iff] at hempty
  exact hempty e (hcons ▸ List.mem_cons_self) (decide_eq_true rfl)

theorem fifo_enqueue (w : Waiting α) (x : α) (c : κ) :
    (w.enqueue x).fifo rank c = if rank x = c then w.fifo rank c ++ [x] else w.fifo rank c := by
  rw [fifo, enqueue, List.filter_append, List.map_append]
  split
  · rename_i hc
    simp [fifo, hc]
  · rename_i hc
    simp [fifo, hc]

/-- Classes kept apart in first-in-first-out order show the entry taken at the head of the first class that has
one. -/
theorem dequeue_of_fifo {c : κ} {x : α} {rest : List α} (hbelow : ∀ c' < c, w.fifo rank c' = [])
    (hfifo : w.fifo rank c = x :: rest) :
    ∃ t, w.next rank = some (t, x) ∧ (w.remove (t, x)).fifo rank c = rest ∧
      ∀ c', c' ≠ c → (w.remove (t, x)).fifo rank c' = w.fifo rank c' := by
  rw [fifo, List.map_eq_cons_iff] at hfifo
  obtain ⟨⟨t, x⟩, others, hfilter, rfl, rfl⟩ := hfifo
  have hclass := w.sorted.filter (rank ·.2 = c)
  rw [hfilter] at hclass
  obtain ⟨hold, -⟩ := List.pairwise_cons.mp hclass
  obtain ⟨hmem, hrank⟩ := List.mem_filter.mp (hfilter ▸ List.mem_cons_self : (t, x) ∈ w.entries.filter (rank ·.2 = c))
  have hrank : rank x = c := of_decide_eq_true hrank
  have hcut (c' : κ) : (w.remove (t, x)).fifo rank c' =
      ((w.entries.filter (rank ·.2 = c')).filter (·.1 ≠ t)).map Prod.snd := by
    rw [fifo, remove, List.filter_comm]
  refine ⟨t, next_of_foremost ⟨hmem, fun other hother hne => ?_⟩, ?_, fun c' hc' => ?_⟩
  · rcases lt_trichotomy (rank other.2) c with hlt | heq | hlt
    · have hempty := hbelow _ hlt
      rw [fifo, List.map_eq_nil_iff, List.filter_eq_nil_iff] at hempty
      exact absurd (decide_eq_true rfl) (hempty other hother)
    · have hlater : other ∈ (t, x) :: others := hfilter ▸ List.mem_filter.mpr ⟨hother, decide_eq_true heq⟩
      exact .inr ⟨hrank.trans heq.symm, hold other ((List.mem_cons.mp hlater).resolve_left hne)⟩
    · exact .inl (hrank.trans_lt hlt)
  · rw [hcut, hfilter, List.filter_cons_of_neg (by simp), List.filter_eq_self.mpr]
    exact fun other hother => decide_eq_true (hold other hother).ne'
  · rw [hcut, List.filter_eq_self.mpr, fifo]
    intro other hother
    obtain ⟨hother, hrank'⟩ := List.mem_filter.mp hother
    refine decide_eq_true fun ht => hc' ?_
    rw [← of_decide_eq_true hrank', eq_of_time hmem hother ht, hrank]

theorem items_enqueue (w : Waiting α) (x : α) : ((w.enqueue x).items : Multiset α) = x ::ₘ w.items := by
  rw [items, enqueue, List.map_append]
  exact Multiset.coe_eq_coe.mpr (List.perm_append_singleton x _)

theorem items_dequeue (h : w.next rank = some e) : (w.items : Multiset α) = e.2 ::ₘ (w.dequeue rank).items := by
  rw [dequeue, h]
  exact Multiset.coe_eq_coe.mpr ((entries_remove (foremost_of_next h).mem).map Prod.snd)

end Waiting
end StableQueue
