import Mathlib.Logic.Function.Basic
import EdgeProver.Lib.FoldTree
import EdgeProver.Lib.Gather

/-! An event-driven machine that fills a fold tree. Items arrive in any order; the
number of items is learned at some point of the run, possibly after some of them.
A node is ordered when its group is seen to be whole; its product arrives later. -/
namespace FoldMachine
open FoldTree Gather

structure Plan where
  fan : Nat → Nat
  items : Nat
  /-- Level of the root. -/
  top : Nat
  /-- Levels `1 .. learnTop` are searched for partial groups when the item count is learned. -/
  learnTop : Nat

structure Plan.WellFormed (P : Plan) : Prop where
  fan_pos : ∀ v, 0 < P.fan v
  items_pos : 0 < P.items
  top_one : width P.fan P.items P.top = 1
  fan_top : ∀ v, P.top ≤ v → 2 ≤ P.fan v
  learn_le : P.learnTop ≤ P.top

abbrev Plan.width (P : Plan) := FoldTree.width P.fan P.items
abbrev Plan.groupLen (P : Plan) := FoldTree.groupLen P.fan P.items
abbrev Plan.Full (P : Plan) := FoldTree.Full P.fan P.items

/-- The order for node `(level, index)` with the products of its group. -/
structure Order (β : Type) where
  level : Nat
  index : Nat
  children : List β

def Order.node {β : Type} (o : Order β) : Nat × Nat := (o.level, o.index)

structure State (β : Type) where
  /-- Products received so far, by level and index. -/
  got : Nat → Nat → Option β
  /-- What had been received when the item count was learned. -/
  before : Option (Nat → Nat → Option β)
  emitted : List (Order β)

variable {β : Type}

namespace State

def init : State β := ⟨fun _ _ => none, none, []⟩

def known (s : State β) : Bool := s.before.isSome

def put (got : Nat → Nat → Option β) (v i : Nat) (b : β) : Nat → Nat → Option β :=
  Function.update got v (Function.update (got v) i (some b))

/-- How many members the group of `(v + 1, j)` must show: unless the item count is
known, only a full group counts as whole. -/
def wanted (P : Plan) (known : Bool) (v j : Nat) : Nat :=
  if known then P.groupLen v j else P.fan v

def orderFor (P : Plan) (known : Bool) (got : Nat → Nat → Option β) (v j : Nat) : Option (Order β) :=
  (gather (got v) (j * P.fan v) (wanted P known v j)).map fun bs => ⟨v + 1, j, bs⟩

/-- The order for the parent of `(v, i)`, when product `b` makes its group whole. -/
def arriveOrders (P : Plan) (s : State β) (v i : Nat) (b : β) : List (Order β) :=
  if v < P.top then (orderFor P s.known (put s.got v i b) v (i / P.fan v)).toList else []

def arrive (P : Plan) (s : State β) (v i : Nat) (b : β) : State β :=
  { s with got := put s.got v i b, emitted := s.emitted ++ s.arriveOrders P v i b }

/-- The orders found when the item count is learned: one for each searched level
whose last group is partial and already whole. -/
def tailOrders (P : Plan) (got : Nat → Nat → Option β) : List (Order β) :=
  (List.range P.learnTop).filterMap fun v =>
    if P.width v % P.fan v = 0 then none
    else orderFor P true got v (P.width v / P.fan v)

def learn (P : Plan) (s : State β) : State β :=
  { s with before := some s.got, emitted := s.emitted ++ tailOrders P s.got }

/-- An item that exists, or a node that has been ordered. -/
def Awaited (P : Plan) (s : State β) (v i : Nat) : Prop :=
  (v = 0 ∧ i < P.items) ∨ ∃ o ∈ s.emitted, o.level = v ∧ o.index = i

end State

open State

/-- The group of `(v + 1, i)` is whole. -/
def Whole (P : Plan) (got : Nat → Nat → Option β) (v i : Nat) : Prop :=
  ∀ k < P.groupLen v i, got v (i * P.fan v + k) ≠ none

/-- Node `(v + 1, i)` can be ordered. -/
def Due (P : Plan) (s : State β) (v i : Nat) : Prop :=
  v < P.top ∧ i < P.width (v + 1) ∧ Whole P s.got v i ∧ (P.Full v i ∨ s.known = true)

/-- Node `(v + 1, i)` was passed over: its partial group was already whole when the item
count was learned, and its level was not searched then. -/
def Missed (P : Plan) (s : State β) (v i : Nat) : Prop :=
  P.learnTop ≤ v ∧ ¬ P.Full v i ∧ ∃ g, s.before = some g ∧ Whole P g v i

structure Inv (P : Plan) (s : State β) : Prop where
  got_valid : ∀ v i, s.got v i ≠ none → v ≤ P.top ∧ i < P.width v
  got_ordered : ∀ v i, s.got (v + 1) i ≠ none → ∃ o ∈ s.emitted, o.node = (v + 1, i)
  nodup : (s.emitted.map Order.node).Nodup
  level_pos : ∀ o ∈ s.emitted, 0 < o.level
  emitted_iff : ∀ v i, (∃ o ∈ s.emitted, o.node = (v + 1, i)) ↔ Due P s v i ∧ ¬ Missed P s v i
  children : ∀ o ∈ s.emitted, ∀ v, o.level = v + 1 →
    gather (s.got v) (o.index * P.fan v) (P.groupLen v o.index) = some o.children
  before_sub : ∀ g, s.before = some g → ∀ v i, g v i ≠ none → s.got v i = g v i
  before_full : ∀ g, s.before = some g → ∀ v i, g v i ≠ none → (i + 1) * size P.fan v ≤ P.items
  unknown_full : s.before = none → ∀ v i, s.got v i ≠ none → (i + 1) * size P.fan v ≤ P.items

section
variable {P : Plan} {s : State β}

/-- When products are read out of stored records, so are the orders. -/
theorem orderFor_of_slots {σ : Type} {slot : Nat → Option σ} {view : σ → β} {known : Bool}
    {got : Nat → Nat → Option β} {v : Nat} (h : ∀ i, (slot i).map view = got v i) (j : Nat) :
    orderFor P known got v j =
      (gather slot (j * P.fan v) (wanted P known v j)).map fun xs => ⟨v + 1, j, xs.map view⟩ := by
  have hg : got v = fun i => (slot i).map view := funext fun i => (h i).symm
  rw [orderFor, hg, gather_map, Option.map_map]
  rfl

theorem put_self (got : Nat → Nat → Option β) (v i : Nat) (b : β) : put got v i b v i = some b := by
  simp [put]

theorem put_other {got : Nat → Nat → Option β} {v i u j : Nat} {b : β} (h : (u, j) ≠ (v, i)) :
    put got v i b u j = got u j := by
  unfold put
  by_cases hu : u = v
  · subst hu
    have hj : j ≠ i := fun he => h (by rw [he])
    simp [hj]
  · simp [hu]

theorem put_ne_none_iff {got : Nat → Nat → Option β} {v i u j : Nat} {b : β} :
    put got v i b u j ≠ none ↔ (u, j) = (v, i) ∨ got u j ≠ none := by
  by_cases h : (u, j) = (v, i)
  · obtain ⟨rfl, rfl⟩ := Prod.mk.inj h
    simp [put_self]
  · rw [put_other h]
    simp [h]

/-- A fresh arrival leaves every slot that was filled as it was. -/
theorem put_of_got {got : Nat → Nat → Option β} {v i u j : Nat} {b : β} (hnew : got v i = none)
    (h : got u j ≠ none) : put got v i b u j = got u j := by
  apply put_other
  intro he
  obtain ⟨rfl, rfl⟩ := Prod.mk.inj he
  exact h hnew

variable (wf : P.WellFormed)
include wf

theorem full_le_top {v i : Nat} (h : P.Full v i) : v < P.top := by
  by_contra hv
  have hw : P.width v = 1 := width_of_one_le wf.fan_pos wf.top_one (Nat.le_of_not_lt hv)
  have h2 := wf.fan_top v (Nat.le_of_not_lt hv)
  have h1 : (i + 1) * P.fan v ≤ 1 := by simpa [Plan.Full, FoldTree.Full, hw] using h
  rw [Nat.succ_mul] at h1
  omega

omit wf in
private theorem isSome_orderFor {known : Bool} {got : Nat → Nat → Option β} {v j : Nat} :
    (orderFor P known got v j).isSome ↔ ∀ k < wanted P known v j, got v (j * P.fan v + k) ≠ none := by
  rw [orderFor, Option.isSome_map, gather_isSome_iff]

omit wf in
private theorem node_of_orderFor {known : Bool} {got : Nat → Nat → Option β} {v j : Nat} {o : Order β}
    (h : orderFor P known got v j = some o) : o.node = (v + 1, j) := by
  obtain ⟨bs, _, rfl⟩ := Option.map_eq_some_iff.mp h
  rfl

/-- An order is found exactly for a whole group that is full or known to be short. -/
theorem orderFor_isSome_iff {known : Bool} {got : Nat → Nat → Option β} {v j : Nat}
    (hv : ∀ i, got v i ≠ none → i < P.width v) :
    (orderFor P known got v j).isSome ↔ Whole P got v j ∧ (P.Full v j ∨ known = true) := by
  have hp := wf.fan_pos v
  rw [isSome_orderFor]
  cases known with
  | true => simp [wanted, Whole]
  | false =>
    simp only [wanted, Bool.false_eq_true, if_false, or_false]
    constructor
    · intro h
      have hlast := hv _ (h (P.fan v - 1) (by omega))
      have hfull : P.Full v j := by
        simp only [Plan.Full, FoldTree.Full, Nat.succ_mul]
        have : j * P.fan v + (P.fan v - 1) < FoldTree.width P.fan P.items v := hlast
        omega
      refine ⟨fun k hk => h k ?_, hfull⟩
      rwa [Plan.groupLen, (full_iff_groupLen wf.fan_pos).mp hfull] at hk
    · rintro ⟨hw, hfull⟩ k hk
      exact hw k (by rwa [Plan.groupLen, (full_iff_groupLen wf.fan_pos).mp hfull])

private theorem children_of_orderFor {known : Bool} {got : Nat → Nat → Option β} {v j : Nat} {o : Order β}
    (hv : ∀ i, got v i ≠ none → i < P.width v) (h : orderFor P known got v j = some o) :
    gather (got v) (j * P.fan v) (P.groupLen v j) = some o.children := by
  have hs := (orderFor_isSome_iff wf hv).mp (Option.isSome_of_eq_some h)
  obtain ⟨bs, hbs, rfl⟩ := Option.map_eq_some_iff.mp h
  have hlen : wanted P known v j = P.groupLen v j := by
    cases known with
    | true => rfl
    | false =>
      have hfull := hs.2.resolve_right (by simp)
      exact ((full_iff_groupLen wf.fan_pos).mp hfull).symm
  rwa [hlen] at hbs

private theorem parent_valid {v i : Nat} (hi : i < P.width v) : i / P.fan v < P.width (v + 1) :=
  parent_lt wf.fan_pos hi

/-- A product changes the wholeness of its parent's group only. -/
theorem whole_put {got : Nat → Nat → Option β} {v i u j : Nat} {b : β} (hi : i < P.width v)
    (h : (u, j) ≠ (v, i / P.fan v)) : Whole P (put got v i b) u j ↔ Whole P got u j := by
  refine forall₂_congr fun k hk => ?_
  rw [put_ne_none_iff, or_iff_right_iff_imp]
  intro he
  obtain ⟨rfl, hik⟩ := Prod.mk.inj he
  have hj := (parent_eq_iff wf.fan_pos hi).mpr ⟨k, hk, hik.symm⟩
  exact absurd (by rw [hj]) h

private theorem not_whole_of_none {got : Nat → Nat → Option β} {v i : Nat} (hi : i < P.width v)
    (h : got v i = none) : ¬ Whole P got v (i / P.fan v) := by
  obtain ⟨k, hk, he⟩ := (parent_eq_iff wf.fan_pos hi).mp rfl
  intro hw
  exact hw k hk (by rw [← he]; exact h)

theorem inv_init : Inv P (State.init : State β) where
  got_valid v i h := absurd rfl h
  got_ordered v i h := absurd rfl h
  nodup := List.nodup_nil
  level_pos := by simp [State.init]
  emitted_iff := by
    intro v i
    simp only [State.init, List.not_mem_nil, false_and, exists_false, false_iff, not_and]
    rintro ⟨_, hi, hw, _⟩
    exact absurd rfl (hw 0 (groupLen_pos wf.fan_pos hi))
  children := by simp [State.init]
  before_sub := by simp [State.init]
  before_full := by simp [State.init]
  unknown_full _ v i h := absurd rfl h

omit wf in
/-- An awaited product belongs to the tree. -/
theorem awaited_valid (inv : Inv P s) {v i : Nat} (h : s.Awaited P v i) : v ≤ P.top ∧ i < P.width v := by
  rcases h with ⟨rfl, hi⟩ | ⟨o, ho, rfl, rfl⟩
  · exact ⟨Nat.zero_le _, hi⟩
  · obtain ⟨u, hu⟩ := Nat.exists_eq_succ_of_ne_zero (inv.level_pos o ho).ne'
    obtain ⟨⟨ht, hi, _⟩, _⟩ := (inv.emitted_iff u o.index).mp ⟨o, ho, by rw [Order.node, hu]⟩
    rw [hu]
    exact ⟨ht, hi⟩

private theorem not_missed_of_none (inv : Inv P s) {v i : Nat} (hi : i < P.width v) (h : s.got v i = none) :
    ¬ Missed P s v (i / P.fan v) := by
  rintro ⟨_, _, g, hg, hw⟩
  apply not_whole_of_none wf hi h
  intro k hk
  rw [inv.before_sub g hg _ _ (hw k hk)]
  exact hw k hk

/-- Before the item count is known, an ordered node covers only items that exist. -/
theorem ordered_unknown_full (inv : Inv P s) (hb : s.before = none) {v i : Nat}
    (h : ∃ o ∈ s.emitted, o.node = (v + 1, i)) : (i + 1) * size P.fan (v + 1) ≤ P.items := by
  obtain ⟨⟨_, hi, hw, hk⟩, _⟩ := (inv.emitted_iff v i).mp h
  have hfull : P.Full v i := hk.resolve_right (by simp [State.known, hb])
  have hlen := (full_iff_groupLen wf.fan_pos).mp hfull
  have hp := wf.fan_pos v
  have hlast := inv.unknown_full hb v _ (hw (P.fan v - 1) (by rw [Plan.groupLen, hlen]; omega))
  have hidx : i * P.fan v + (P.fan v - 1) + 1 = (i + 1) * P.fan v := by rw [Nat.succ_mul]; omega
  rwa [hidx, Nat.mul_assoc, Nat.mul_comm (P.fan v)] at hlast

/-- Before the item count is known, no short group has a product. -/
theorem got_partial_none (inv : Inv P s) (hb : s.before = none) {v : Nat}
    (h : P.width v % P.fan v ≠ 0) : s.got (v + 1) (P.width v / P.fan v) = none := by
  by_contra hg
  obtain ⟨⟨_, hi, _, hk⟩, _⟩ := (inv.emitted_iff v _).mp (inv.got_ordered v _ hg)
  have hfull : P.Full v _ := hk.resolve_right (by simp [State.known, hb])
  exact (not_full_iff wf.fan_pos hi).mpr ⟨h, rfl⟩ hfull

omit wf in
private theorem node_of_arriveOrders {v i : Nat} {b : β} {o : Order β} (ho : o ∈ s.arriveOrders P v i b) :
    o.node = (v + 1, i / P.fan v) := by
  rw [arriveOrders] at ho
  split at ho
  · exact node_of_orderFor (Option.mem_toList.mp ho)
  · exact absurd ho List.not_mem_nil

/-- The product of a newly ordered node is still to come. -/
theorem got_none_of_arriveOrders (inv : Inv P s) {v i : Nat} {b : β} (hi : i < P.width v)
    (hnew : s.got v i = none) {o : Order β} (ho : o ∈ s.arriveOrders P v i b) :
    (s.arrive P v i b).got o.level o.index = none := by
  have hn := node_of_arriveOrders ho
  simp only [Order.node, Prod.mk.injEq] at hn
  rw [hn.1, hn.2]
  have hput : put s.got v i b (v + 1) (i / P.fan v) = s.got (v + 1) (i / P.fan v) :=
    put_other (by simp)
  show put s.got v i b (v + 1) (i / P.fan v) = none
  rw [hput]
  by_contra hg
  exact not_whole_of_none wf hi hnew ((inv.emitted_iff _ _).mp (inv.got_ordered v _ hg)).1.2.2.1

private theorem not_ordered_of_none (inv : Inv P s) {v i : Nat} (hi : i < P.width v) (hnew : s.got v i = none)
    {o : Order β} (ho : o ∈ s.emitted) : o.node ≠ (v + 1, i / P.fan v) := by
  intro he
  exact not_whole_of_none wf hi hnew ((inv.emitted_iff _ _).mp ⟨o, ho, he⟩).1.2.2.1

private theorem emitted_iff_arrive (inv : Inv P s) {v i : Nat} {b : β} (hi : i < P.width v) (hnew : s.got v i = none)
    (hvalid : ∀ u j, put s.got v i b u j ≠ none → u ≤ P.top ∧ j < P.width u) (u j : Nat) :
    (∃ o ∈ (s.arrive P v i b).emitted, o.node = (u + 1, j)) ↔
      Due P (s.arrive P v i b) u j ∧ ¬ Missed P (s.arrive P v i b) u j := by
  have hold : ∀ o ∈ s.emitted, o.node ≠ (v + 1, i / P.fan v) := fun o ho =>
    not_ordered_of_none wf inv hi hnew ho
  by_cases h : (u, j) = (v, i / P.fan v)
  · obtain ⟨rfl, rfl⟩ := Prod.mk.inj h
    have hm : ¬ Missed P (s.arrive P u i b) u (i / P.fan u) := not_missed_of_none wf inv hi hnew
    have hp := parent_valid wf hi
    have hsome : (orderFor P s.known (put s.got u i b) u (i / P.fan u)).isSome ↔ _ :=
      orderFor_isSome_iff wf (fun j h => (hvalid u j h).2)
    simp only [hm, not_false_eq_true, and_true]
    constructor
    · rintro ⟨o, ho, he⟩
      rcases List.mem_append.mp ho with ho | ho
      · exact absurd he (hold o ho)
      · rw [arriveOrders] at ho
        split at ho
        · rename_i hlt
          exact ⟨hlt, hp, hsome.mp (Option.isSome_of_eq_some (Option.mem_toList.mp ho))⟩
        · exact absurd ho List.not_mem_nil
    · rintro ⟨hlt, _, hw⟩
      obtain ⟨o, ho⟩ := Option.isSome_iff_exists.mp (hsome.mpr hw)
      refine ⟨o, List.mem_append_right _ ?_, node_of_orderFor ho⟩
      rw [arriveOrders, if_pos hlt]
      exact Option.mem_toList.mpr ho
  · have hw : Due P (s.arrive P v i b) u j ↔ Due P s u j :=
      and_congr_right fun _ => and_congr_right fun _ => and_congr_left fun _ => whole_put wf hi h
    rw [hw]
    refine Iff.trans ?_ (inv.emitted_iff u j)
    constructor
    · rintro ⟨o, ho, he⟩
      rcases List.mem_append.mp ho with ho | ho
      · exact ⟨o, ho, he⟩
      · have := (node_of_arriveOrders ho).symm.trans he
        simp only [Prod.mk.injEq, Nat.add_right_cancel_iff] at this
        exact absurd (by rw [← this.1, ← this.2]) h
    · rintro ⟨o, ho, he⟩
      exact ⟨o, List.mem_append_left _ ho, he⟩

theorem inv_arrive (inv : Inv P s) {v i : Nat} {b : β} (hnew : s.got v i = none)
    (haw : s.Awaited P v i) : Inv P (s.arrive P v i b) := by
  obtain ⟨htop, hi⟩ := awaited_valid inv haw
  have hvalid : ∀ u j, put s.got v i b u j ≠ none → u ≤ P.top ∧ j < P.width u := by
    intro u j h
    rcases put_ne_none_iff.mp h with he | h
    · obtain ⟨rfl, rfl⟩ := Prod.mk.inj he
      exact ⟨htop, hi⟩
    · exact inv.got_valid u j h
  have hnode : ∀ o ∈ s.arriveOrders P v i b, o.node = (v + 1, i / P.fan v) := fun o ho =>
    node_of_arriveOrders ho
  constructor
  · exact hvalid
  · -- a product of a node other than an item was ordered before it arrived
    intro u j h
    rcases put_ne_none_iff.mp h with he | h
    · obtain ⟨rfl, rfl⟩ := Prod.mk.inj he
      rcases haw with ⟨h0, _⟩ | ⟨o, ho, hl, hj⟩
      · omega
      · exact ⟨o, List.mem_append_left _ ho, by rw [Order.node, hl, hj]⟩
    · obtain ⟨o, ho, he⟩ := inv.got_ordered u j h
      exact ⟨o, List.mem_append_left _ ho, he⟩
  · show ((s.emitted ++ _).map Order.node).Nodup
    rw [List.map_append, List.nodup_append]
    refine ⟨inv.nodup, ?_, ?_⟩
    · rw [arriveOrders]
      split
      · cases orderFor P s.known (put s.got v i b) v (i / P.fan v) <;> simp
      · simp
    · rintro a ha _ hb rfl
      obtain ⟨o, ho, rfl⟩ := List.mem_map.mp ha
      obtain ⟨o', ho', he⟩ := List.mem_map.mp hb
      exact not_ordered_of_none wf inv hi hnew ho (he.symm.trans (hnode o' ho'))
  · intro o ho
    rcases List.mem_append.mp ho with ho | ho
    · exact inv.level_pos o ho
    · have := congrArg Prod.fst (hnode o ho)
      simp only [Order.node] at this
      omega
  · exact emitted_iff_arrive wf inv hi hnew hvalid
  · intro o ho u hu
    rcases List.mem_append.mp ho with ho | ho
    · rw [← inv.children o ho u hu]
      apply gather_congr
      intro k hk
      apply put_of_got hnew
      exact ((inv.emitted_iff u o.index).mp ⟨o, ho, by rw [Order.node, hu]⟩).1.2.2.1 k hk
    · have he := hnode o ho
      simp only [Order.node, hu, Prod.mk.injEq, Nat.add_right_cancel_iff] at he
      obtain ⟨rfl, he⟩ := he
      rw [arriveOrders] at ho
      split at ho
      · rw [he]
        exact children_of_orderFor wf (fun j h => (hvalid u j h).2) (Option.mem_toList.mp ho)
      · exact absurd ho List.not_mem_nil
  · intro g hg u j h
    rw [← inv.before_sub g hg u j h]
    apply put_of_got hnew
    rw [inv.before_sub g hg u j h]
    exact h
  · exact inv.before_full
  · intro hb u j h
    rcases put_ne_none_iff.mp h with he | h
    · obtain ⟨rfl, rfl⟩ := Prod.mk.inj he
      rcases haw with ⟨rfl, hi⟩ | ⟨o, ho, rfl, rfl⟩
      · have : j + 1 ≤ P.items := hi
        simpa [size] using this
      · obtain ⟨w, hw⟩ := Nat.exists_eq_succ_of_ne_zero (inv.level_pos o ho).ne'
        rw [hw]
        exact ordered_unknown_full wf inv hb ⟨o, ho, by rw [Order.node, hw]⟩
    · exact inv.unknown_full hb u j h

omit wf in
private theorem mem_tailOrders {got : Nat → Nat → Option β} {o : Order β} :
    o ∈ tailOrders P got ↔ ∃ v < P.learnTop, P.width v % P.fan v ≠ 0 ∧
      orderFor P true got v (P.width v / P.fan v) = some o := by
  simp only [tailOrders, List.mem_filterMap, List.mem_range]
  refine exists_congr fun v => and_congr_right fun _ => ?_
  by_cases h : P.width v % P.fan v = 0 <;> simp [h]

omit wf in
private theorem nodup_tailOrders (got : Nat → Nat → Option β) :
    ((tailOrders P got).map Order.node).Nodup := by
  have hl : ((tailOrders P got).map Order.level).Nodup := by
    have hs : ((tailOrders P got).map Order.level).Sublist ((List.range P.learnTop).map (· + 1)) := by
      unfold tailOrders
      generalize List.range P.learnTop = l
      induction l with
      | nil => exact .slnil
      | cons v l ih =>
        rw [List.filterMap_cons]
        split
        · exact ih.cons _
        · rename_i o ho
          split at ho
          · simp at ho
          · have := congrArg Prod.fst (node_of_orderFor ho)
            simp only [Order.node] at this
            rw [List.map_cons, List.map_cons, this]
            exact ih.cons_cons _
    exact hs.nodup (List.nodup_range.map (fun a b h => Nat.succ.inj h))
  refine .of_map Prod.fst ?_
  rw [List.map_map]
  exact hl

/-- The product of a node that the search orders is still to come. -/
theorem got_none_of_tailOrders (inv : Inv P s) (hb : s.before = none) {o : Order β}
    (ho : o ∈ tailOrders P s.got) : s.got o.level o.index = none := by
  obtain ⟨v, _, hm, ho⟩ := mem_tailOrders.mp ho
  have hn := node_of_orderFor ho
  simp only [Order.node, Prod.mk.injEq] at hn
  rw [hn.1, hn.2]
  exact got_partial_none wf inv hb hm

private theorem partial_group_lt {v : Nat} (hm : P.width v % P.fan v ≠ 0) :
    P.width v / P.fan v < P.width (v + 1) := by
  rw [Plan.width, lt_width_succ (wf.fan_pos v)]
  have := Nat.div_add_mod' (FoldTree.width P.fan P.items v) (P.fan v)
  simp only [Plan.width] at hm
  omega

private theorem exists_tailOrders_iff {got : Nat → Nat → Option β} (hvalid : ∀ v i, got v i ≠ none → i < P.width v)
    (v i : Nat) : (∃ o ∈ tailOrders P got, o.node = (v + 1, i)) ↔
      v < P.learnTop ∧ i < P.width (v + 1) ∧ ¬ P.Full v i ∧ Whole P got v i := by
  constructor
  · rintro ⟨o, ho, he⟩
    obtain ⟨u, hu, hm, ho⟩ := mem_tailOrders.mp ho
    have := (node_of_orderFor ho).symm.trans he
    simp only [Prod.mk.injEq, Nat.add_right_cancel_iff] at this
    obtain ⟨rfl, rfl⟩ := this
    have hi := partial_group_lt wf hm
    exact ⟨hu, hi, (not_full_iff wf.fan_pos hi).mpr ⟨hm, rfl⟩,
      ((orderFor_isSome_iff wf (hvalid u)).mp (Option.isSome_of_eq_some ho)).1⟩
  · rintro ⟨hv, hi, hf, hw⟩
    obtain ⟨hm, rfl⟩ := (not_full_iff wf.fan_pos hi).mp hf
    have hsome : (orderFor P true got v (P.width v / P.fan v)).isSome :=
      (orderFor_isSome_iff wf (hvalid v)).mpr ⟨hw, .inr rfl⟩
    obtain ⟨o, ho⟩ := Option.isSome_iff_exists.mp hsome
    exact ⟨o, mem_tailOrders.mpr ⟨v, hv, hm, ho⟩, node_of_orderFor ho⟩

omit wf in
private theorem level_pos_of_tailOrders {got : Nat → Nat → Option β} {o : Order β} (ho : o ∈ tailOrders P got) :
    0 < o.level := by
  obtain ⟨u, _, _, ho⟩ := mem_tailOrders.mp ho
  have := congrArg Prod.fst (node_of_orderFor ho)
  simp only [Order.node] at this
  omega

theorem inv_learn (inv : Inv P s) (hb : s.before = none) : Inv P (s.learn P) := by
  have hk : s.known = false := by simp [State.known, hb]
  have hvalid : ∀ v i, s.got v i ≠ none → i < P.width v := fun v i h => (inv.got_valid v i h).2
  have hmissed : ∀ v i, ¬ Missed P s v i := by
    rintro v i ⟨_, _, g, hg, _⟩
    simp [hb] at hg
  have htail := exists_tailOrders_iff wf hvalid
  constructor
  · exact inv.got_valid
  · intro v i h
    obtain ⟨o, ho, he⟩ := inv.got_ordered v i h
    exact ⟨o, List.mem_append_left _ ho, he⟩
  · show ((s.emitted ++ _).map Order.node).Nodup
    rw [List.map_append, List.nodup_append]
    refine ⟨inv.nodup, nodup_tailOrders _, ?_⟩
    -- an order emitted so far is for a full group, a tail order never is
    rintro a ha _ hb' rfl
    obtain ⟨o, ho, rfl⟩ := List.mem_map.mp ha
    obtain ⟨o', ho', he⟩ := List.mem_map.mp hb'
    obtain ⟨v, hv⟩ := Nat.exists_eq_succ_of_ne_zero (inv.level_pos o ho).ne'
    have hn : o.node = (v + 1, o.index) := by rw [Order.node, hv]
    have h1 := ((inv.emitted_iff _ _).mp ⟨o, ho, hn⟩).1.2.2.2.resolve_right (by simp [hk])
    exact ((htail _ _).mp ⟨o', ho', he.trans hn⟩).2.2.1 h1
  · intro o ho
    rcases List.mem_append.mp ho with ho | ho
    · exact inv.level_pos o ho
    · exact level_pos_of_tailOrders ho
  · intro v i
    have hsplit : (∃ o ∈ (s.learn P).emitted, o.node = (v + 1, i)) ↔
        (∃ o ∈ s.emitted, o.node = (v + 1, i)) ∨ ∃ o ∈ tailOrders P s.got, o.node = (v + 1, i) := by
      simp only [State.learn, List.mem_append, or_and_right, exists_or]
    have hm : Missed P (s.learn P) v i ↔ P.learnTop ≤ v ∧ ¬ P.Full v i ∧ Whole P s.got v i := by
      simp [Missed, State.learn]
    rw [hsplit, htail, inv.emitted_iff, hm]
    have hk' : (s.learn P).known = true := rfl
    simp only [Due, hk, hk', hmissed, Bool.false_eq_true, or_false, not_false_eq_true, and_true]
    have hle := wf.learn_le
    constructor
    · rintro (⟨ht, hi, hw, hf⟩ | ⟨hv, hi, hf, hw⟩)
      · exact ⟨⟨ht, hi, hw, .inr trivial⟩, fun h => h.2.1 hf⟩
      · exact ⟨⟨by omega, hi, hw, .inr trivial⟩, fun h => by omega⟩
    · rintro ⟨⟨ht, hi, hw, _⟩, hn⟩
      by_cases hf : P.Full v i
      · exact .inl ⟨ht, hi, hw, hf⟩
      · refine .inr ⟨?_, hi, hf, hw⟩
        by_contra hv
        exact hn ⟨Nat.le_of_not_lt hv, hf, hw⟩
  · intro o ho v hv
    rcases List.mem_append.mp ho with ho | ho
    · exact inv.children o ho v hv
    · obtain ⟨u, _, _, ho⟩ := mem_tailOrders.mp ho
      have hn := node_of_orderFor ho
      simp only [Order.node, hv, Prod.mk.injEq, Nat.add_right_cancel_iff] at hn
      obtain ⟨rfl, hi⟩ := hn
      rw [hi]
      exact children_of_orderFor wf (hvalid v) ho
  · rintro g hg v i h
    obtain rfl : s.got = g := by simpa [State.learn] using hg
    rfl
  · rintro g hg v i h
    obtain rfl : s.got = g := by simpa [State.learn] using hg
    exact inv.unknown_full hb v i h
  · intro h
    simp [State.learn] at h

/-- Below every product its whole group is there. -/
def Closed (P : Plan) (got : Nat → Nat → Option β) : Prop :=
  ∀ v i, got (v + 1) i ≠ none → Whole P got v i

omit wf in
theorem closed_got (inv : Inv P s) : Closed P s.got := fun v i h =>
  ((inv.emitted_iff v i).mp (inv.got_ordered v i h)).1.2.2.1

/-- Below a whole group that covers a level everything is there. -/
theorem all_got_of_whole {got : Nat → Nat → Option β} (hc : Closed P got) {u : Nat}
    (hw : P.width (u + 1) = 1) (h : Whole P got u 0) {v i : Nat} (hv : v ≤ u) (hi : i < P.width v) :
    got v i ≠ none := by
  induction hv using Nat.decreasingInduction generalizing i with
  | self =>
    have h0 : i / P.fan u = 0 := Nat.lt_one_iff.mp (hw ▸ parent_valid wf hi)
    obtain ⟨k, hk, he⟩ := (parent_eq_iff wf.fan_pos hi).mp h0
    rw [he]
    exact h k hk
  | of_succ v _ ih =>
    obtain ⟨k, hk, he⟩ := (parent_eq_iff wf.fan_pos hi).mp rfl
    rw [he]
    exact hc v _ (ih (parent_valid wf hi)) k hk

/-- Below a product that covers a level everything is there. -/
theorem all_got_of_got {got : Nat → Nat → Option β} (hc : Closed P got) {u : Nat} (hw : P.width u = 1)
    (h : got u 0 ≠ none) {v i : Nat} (hv : v ≤ u) (hi : i < P.width v) : got v i ≠ none := by
  rcases hv.lt_or_eq with hlt | rfl
  · obtain ⟨w, rfl⟩ := Nat.exists_eq_succ_of_ne_zero (Nat.zero_lt_of_lt hlt).ne'
    exact all_got_of_whole wf hc hw (hc w 0 h) (Nat.le_of_lt_succ hlt) hi
  · obtain rfl : i = 0 := by omega
    exact h

/-- Nothing is outstanding: the items are all in and every order has been answered. -/
def Quiet (P : Plan) (s : State β) : Prop :=
  (∀ i < P.items, s.got 0 i ≠ none) ∧ ∀ o ∈ s.emitted, s.got o.level o.index ≠ none

/-- A quiet run that knows the item count has built the whole tree, unless it missed a node. -/
theorem all_got_of_quiet (inv : Inv P s) (hq : Quiet P s) (hk : s.known = true)
    (hm : ∀ v < P.top, ∀ i < P.width (v + 1), ¬ Missed P s v i) {v i : Nat} (hv : v ≤ P.top)
    (hi : i < P.width v) :
    s.got v i ≠ none := by
  induction v generalizing i with
  | zero => exact hq.1 i hi
  | succ v ih =>
    have hmiss := hm v hv i hi
    have hw : Whole P s.got v i := by
      intro k hk'
      apply ih (by omega)
      rw [Plan.width, lt_width_succ (wf.fan_pos v)] at hi
      simp only [Plan.groupLen, FoldTree.groupLen] at hk'
      show _ < FoldTree.width P.fan P.items v
      omega
    obtain ⟨o, ho, he⟩ := (inv.emitted_iff v i).mpr ⟨⟨hv, hi, hw, .inr hk⟩, hmiss⟩
    have := hq.2 o ho
    simp only [Order.node, Prod.mk.injEq] at he
    rwa [he.1, he.2] at this

/-- The nodes of `levels` levels from `low` on. -/
def levelNodes (P : Plan) (low levels : Nat) : List (Nat × Nat) :=
  (List.range' low levels).flatMap fun v => (List.range (P.width v)).map (Prod.mk v)

omit wf in
theorem mem_levelNodes {low levels v i : Nat} :
    (v, i) ∈ levelNodes P low levels ↔ (low ≤ v ∧ v < low + levels) ∧ i < P.width v := by
  simp only [levelNodes, List.mem_flatMap, List.mem_range'_1, List.mem_map, List.mem_range, Prod.mk.injEq]
  constructor
  · rintro ⟨u, hu, j, hj, rfl, rfl⟩
    exact ⟨hu, hj⟩
  · rintro ⟨hv, hi⟩
    exact ⟨v, hv, i, hi, rfl, rfl⟩

omit wf in
private theorem nodup_levelNodes (low levels : Nat) : (levelNodes P low levels).Nodup := by
  rw [levelNodes, List.nodup_flatMap]
  constructor
  · intro v _
    exact List.nodup_range.map fun _ _ h => (Prod.mk.inj h).2
  · refine List.Pairwise.imp (fun {v u} hne => ?_) (List.nodup_range' (s := low) (n := levels))
    change List.Disjoint _ _
    rw [List.disjoint_left]
    intro a hv hu
    obtain ⟨i, -, rfl⟩ := List.mem_map.mp hv
    obtain ⟨j, -, hj⟩ := List.mem_map.mp hu
    exact hne (Prod.mk.inj hj).1.symm

omit wf in
theorem length_levelNodes (low levels : Nat) :
    (levelNodes P low levels).length = ((List.range' low levels).map P.width).sum := by
  simp only [levelNodes, List.length_flatMap, List.length_map, List.length_range]

/-- Once the root is ordered every node is. -/
theorem ordered_of_root (inv : Inv P s) (hroot : ∃ o ∈ s.emitted, o.node = (P.top, 0)) {v i : Nat}
    (hv : v + 1 ≤ P.top) (hi : i < P.width (v + 1)) : ∃ o ∈ s.emitted, o.node = (v + 1, i) := by
  rcases hv.lt_or_eq with hlt | htop
  · obtain ⟨u, hu⟩ := Nat.exists_eq_succ_of_ne_zero (Nat.zero_lt_of_lt hlt).ne'
    have hone : P.width P.top = 1 := wf.top_one
    rw [hu] at hroot hlt hone
    have hwhole := ((inv.emitted_iff u 0).mp hroot).1.2.2.1
    exact inv.got_ordered v i (all_got_of_whole wf (closed_got inv) hone hwhole (Nat.le_of_lt_succ hlt) hi)
  · rw [htop] at hi ⊢
    obtain rfl : i = 0 := Nat.lt_one_iff.mp (wf.top_one ▸ hi)
    exact hroot

/-- Once the root is ordered the orders from a level on are as many as the nodes there. -/
theorem countP_of_root (inv : Inv P s) (hroot : ∃ o ∈ s.emitted, o.node = (P.top, 0)) {low levels : Nat}
    (hlow : 0 < low) (htop : P.top + 1 = low + levels) :
    s.emitted.countP (fun o => decide (low ≤ o.level)) = ((List.range' low levels).map P.width).sum := by
  let ordered := s.emitted.filter fun o => decide (low ≤ o.level)
  have hsub : (ordered.map Order.node).Sublist (s.emitted.map Order.node) := List.filter_sublist.map _
  have hnodes : (ordered.map Order.node).Perm (levelNodes P low levels) := by
    have hnodup := hsub.nodup inv.nodup
    refine (List.perm_ext_iff_of_nodup hnodup (nodup_levelNodes low levels)).mpr ?_
    rintro ⟨v, i⟩
    rw [mem_levelNodes]
    simp only [ordered, List.mem_map, List.mem_filter, decide_eq_true_eq]
    constructor
    · rintro ⟨o, ⟨ho, hle⟩, hnode⟩
      obtain ⟨rfl, rfl⟩ := Prod.mk.inj hnode
      obtain ⟨hv, hi⟩ := awaited_valid inv (.inr ⟨o, ho, rfl, rfl⟩)
      exact ⟨⟨hle, by omega⟩, hi⟩
    · rintro ⟨⟨hle, hlt⟩, hi⟩
      obtain ⟨u, rfl⟩ := Nat.exists_eq_succ_of_ne_zero (hlow.trans_le hle).ne'
      obtain ⟨o, ho, hnode⟩ := ordered_of_root wf inv hroot (by omega) hi
      exact ⟨o, ⟨ho, hle.trans_eq (congrArg Prod.fst hnode).symm⟩, hnode⟩
  rw [List.countP_eq_length_filter, ← length_levelNodes, ← hnodes.length_eq, List.length_map]

def arrived (P : Plan) (got : Nat → Nat → Option β) : Nat :=
  (levelNodes P 0 (P.top + 1)).countP fun node => (got node.1 node.2).isSome

omit wf in
/-- A new product is one more. -/
theorem arrived_put {got : Nat → Nat → Option β} {v i : Nat} (b : β) (hnew : got v i = none) (hv : v ≤ P.top)
    (hi : i < P.width v) : arrived P (put got v i b) = arrived P got + 1 := by
  have hmem : (v, i) ∈ levelNodes P 0 (P.top + 1) := by
    rw [mem_levelNodes]
    exact ⟨⟨Nat.zero_le v, by omega⟩, hi⟩
  have hnodup := nodup_levelNodes (P := P) 0 (P.top + 1)
  obtain ⟨before, after, hsplit⟩ := List.append_of_mem hmem
  rw [hsplit, List.nodup_append, List.nodup_cons] at hnodup
  obtain ⟨-, ⟨hafter, -⟩, hbefore⟩ := hnodup
  have hkept : ∀ node : Nat × Nat, node ≠ (v, i) → (put got v i b node.1 node.2).isSome =
    (got node.1 node.2).isSome := by
    intro node hne
    rw [put_other hne]
  have hleft : before.countP (fun node => (put got v i b node.1 node.2).isSome) =
      before.countP fun node => (got node.1 node.2).isSome := by
    refine List.countP_congr fun node hnode => ?_
    rw [hkept node (hbefore node hnode _ List.mem_cons_self)]
  have hright : after.countP (fun node => (put got v i b node.1 node.2).isSome) =
      after.countP fun node => (got node.1 node.2).isSome := by
    refine List.countP_congr fun node hnode => ?_
    rw [hkept node fun he => hafter (he ▸ hnode)]
  rw [arrived, arrived, hsplit]
  simp only [List.countP_append, List.countP_cons, hleft, hright, put_self, hnew, Option.isSome_some,
    Option.isSome_none,
    if_true, Bool.false_eq_true, if_false]
  omega

omit wf in
theorem arrived_le (got : Nat → Nat → Option β) : arrived P got ≤ ((List.range' 0 (P.top + 1)).map P.width).sum :=
  length_levelNodes (P := P) 0 (P.top + 1) ▸ List.countP_le_length

end
end FoldMachine
