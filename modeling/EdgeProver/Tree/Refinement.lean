import EdgeProver.Lib.FoldMachine
import EdgeProver.Tree.Run

/-! The recursion tree of a `ProofState` is a fold machine: every handler is one of its steps. -/
namespace EdgeProver
open FoldMachine FoldMachine.State Gather ProofState

namespace TreeParams

def numLayers (p : TreeParams) (n : Nat) : Nat :=
  numInternalLayersForLeafCount (divCeil n p.leafArity) p.internalArity

def finalLayer (p : TreeParams) (n : Nat) : Nat := max (p.numLayers n) 2 - 1

def plan (p : TreeParams) (n : Nat) : Plan where
  fan := treeFan p.leafArity p.internalArity
  items := n
  top := p.finalLayer n + 2
  learnTop := p.numLayers n + 1

end TreeParams

/-- The request for a node of the fold tree, as a state that knows the tree would send it. -/
def ProofState.requestOf (ps : ProofState) (n : Nat) (o : Order ProofBytes) : GeneralProveRequest :=
  let fan := treeFan ps.leafArity ps.internalArity
  let segmentStart := FoldTree.first fan o.level o.index
  let segmentEnd := FoldTree.last fan n o.level o.index
  match o.level with
  | layerIdx + 2 => ps.internalRequest layerIdx o.children segmentStart segmentEnd
      (ps.numSegments.any fun n => layerIdx == ps.effectiveFinalLayer n)
  | _ => ps.leafRequest o.children segmentStart segmentEnd

/-- What is stored for node `i` of a level: proof bytes and segment range. -/
def ProofState.nodeSlot (ps : ProofState) : Nat → Nat → Option (ProofBytes × Nat × Nat)
  | 0, i => (ps.appProofs i).map fun a => (unwrapProof a.proof, i, i)
  | 1, i => (ps.leafProofs (i * ps.leafArity)).map fun a =>
      (unwrapProof a.proof, a.segmentStart, a.segmentEnd)
  | l + 2, i => (ps.internalProofs ⟨l, i⟩).map fun a =>
      (unwrapProof a.proof, a.segmentStart, a.segmentEnd)

/-- `ps` stores what the fold machine has got, with the segment ranges of the nodes. -/
structure Mirrors (p : TreeParams) (n : Nat) (ps : ProofState) (m : State ProofBytes) : Prop where
  inv : Inv (p.plan n) m
  status : ps.status = .inProgress
  context : ps.context = p.context
  leafArity : ps.leafArity = p.leafArity
  internalArity : ps.internalArity = p.internalArity
  costLimit : ps.costLimit = p.costLimit
  deferralCircuitCount : ps.deferralCircuitCount = p.deferralCircuitCount
  numSegments : ps.numSegments = if m.known then some n else none
  executeE2 : ps.executeE2State.isSome = m.known
  slots : ∀ v i, ps.nodeSlot v i = (m.got v i).map fun b =>
    (b, FoldTree.first (p.plan n).fan v i, FoldTree.last (p.plan n).fan n v i)
  app_proof : ∀ i a, ps.appProofs i = some a → a.proof.isSome

theorem plan_fan_pos {p : TreeParams} (ha : Arities p.leafArity p.internalArity) (n v : Nat) :
    0 < (p.plan n).fan v := treeFan_pos ha v

section
variable {p : TreeParams} {n : Nat} (ha : Arities p.leafArity p.internalArity) (hn : 0 < n)
include ha hn

theorem width_layers : FoldTree.width (p.plan n).fan n (p.numLayers n + 1) = 1 :=
  (numInternalLayers_spec ha hn).2.1

theorem numLayers_pos : 0 < p.numLayers n := (numInternalLayers_spec ha hn).1

theorem width_top : FoldTree.width (p.plan n).fan n (p.finalLayer n + 2) = 1 := by
  apply FoldTree.width_of_one_le (treeFan_pos ha) (width_layers ha hn)
  simp only [TreeParams.finalLayer]
  omega

theorem plan_wellFormed : (p.plan n).WellFormed where
  fan_pos := treeFan_pos ha
  items_pos := hn
  top_one := width_top ha hn
  fan_top v hv := by
    cases v with
    | zero => simp [TreeParams.plan] at hv
    | succ v => exact ha.two_le_internal
  learn_le := by
    simp only [TreeParams.plan, TreeParams.finalLayer]
    omega

/-- Below the final layer every level above the leaves holds several nodes, except in a
one-layer tree. -/
theorem one_lt_width {l : Nat} (hl : l < p.finalLayer n) (h1 : p.numLayers n ≠ 1) :
    1 < FoldTree.width (p.plan n).fan n (l + 1) := by
  obtain ⟨hpos, _, hw, hleaf⟩ := numInternalLayers_spec ha hn
  simp only [TreeParams.finalLayer] at hl
  have hL : 1 < p.numLayers n := by have := numLayers_pos ha hn; omega
  rcases Nat.eq_zero_or_pos l with rfl | h0
  · exact hleaf hL
  · exact hw l (by simp only [TreeParams.numLayers] at hl; omega) h0

end

def IsGroup (p : TreeParams) (n v j : Nat) (ts : List (ProofBytes × Nat × Nat)) : Prop :=
  ts.length = (p.plan n).groupLen v j ∧ ∀ k t, ts[k]? = some t →
    t.2.1 = FoldTree.first (p.plan n).fan v (j * (p.plan n).fan v + k) ∧
    t.2.2 = FoldTree.last (p.plan n).fan n v (j * (p.plan n).fan v + k)

private theorem foldl_min_eq {α : Type} {f : α → Nat} {a : Nat} {l : List α} (h : ∀ x ∈ l, a ≤ f x) :
    l.foldl (fun m x => min m (f x)) a = a := by
  induction l with
  | nil => rfl
  | cons x l ih =>
    rw [List.foldl_cons, min_eq_left (h x List.mem_cons_self)]
    exact ih fun y hy => h y (List.mem_cons_of_mem x hy)

private theorem foldl_max_eq {α : Type} {f : α → Nat} {a b : Nat} {l : List α} (hab : a ≤ b)
    (h : ∀ x ∈ l, f x ≤ b) (hb : a = b ∨ ∃ x ∈ l, f x = b) :
    l.foldl (fun m x => max m (f x)) a = b := by
  induction l generalizing a with
  | nil => simpa using hb
  | cons x l ih =>
    rw [List.foldl_cons]
    apply ih (max_le hab (h x List.mem_cons_self)) fun y hy => h y (List.mem_cons_of_mem x hy)
    rcases hb with rfl | ⟨y, hy, rfl⟩
    · exact .inl (max_eq_left (h x List.mem_cons_self))
    · rcases List.mem_cons.mp hy with rfl | hy
      · exact .inl (max_eq_right hab)
      · exact .inr ⟨y, hy, rfl⟩

section
variable {p : TreeParams} {n : Nat} (ha : Arities p.leafArity p.internalArity)
  {v j : Nat} (hj : j < (p.plan n).width (v + 1))
include ha hj

/-- The last record of a group ends where the node ends. -/
theorem getLast_of_isGroup {ts : List (ProofBytes × Nat × Nat)} (h : IsGroup p n v j ts) :
    ts.getLast?.map (·.2.2) = some (FoldTree.last (p.plan n).fan n (v + 1) j) := by
  have hp : 0 < (p.plan n).groupLen v j := FoldTree.groupLen_pos (plan_fan_pos ha n) hj
  rw [List.getLast?_eq_getElem?, h.1]
  have hlt : (p.plan n).groupLen v j - 1 < ts.length := by rw [h.1]; omega
  rw [List.getElem?_eq_getElem hlt, Option.map_some,
    (h.2 _ _ (List.getElem?_eq_getElem hlt)).2]
  exact congrArg some (FoldTree.last_child (n := n) (plan_fan_pos ha n) hj)

/-- The bounds that `handle_internal_result` folds out of the children are the node's own. -/
theorem bounds_of_isGroup {states : List InternalProofState} {view : InternalProofState → ProofBytes}
    (h : IsGroup p n v j (states.map fun a => (view a, a.segmentStart, a.segmentEnd))) :
    minSegmentStart states = FoldTree.first (p.plan n).fan (v + 1) j ∧
      maxSegmentEnd states = FoldTree.last (p.plan n).fan n (v + 1) j := by
  have hp : 0 < (p.plan n).groupLen v j := FoldTree.groupLen_pos (plan_fan_pos ha n) hj
  have hlen : states.length = (p.plan n).groupLen v j := by simpa using h.1
  have hget : ∀ k a, states[k]? = some a →
      a.segmentStart = FoldTree.first (p.plan n).fan v (j * (p.plan n).fan v + k) ∧
      a.segmentEnd = FoldTree.last (p.plan n).fan n v (j * (p.plan n).fan v + k) := by
    intro k a hk
    exact h.2 k (view a, a.segmentStart, a.segmentEnd) (by simp [hk])
  constructor
  · cases states with
    | nil => simp at hlen; omega
    | cons a rest =>
      have h0 := (hget 0 a rfl).1
      rw [minSegmentStart, foldl_min_eq, h0, Nat.add_zero]
      · exact FoldTree.first_child _ _
      · intro q hq
        obtain ⟨k, hk⟩ := List.mem_iff_getElem?.mp hq
        rw [h0, (hget (k + 1) q (by simpa using hk)).1]
        exact FoldTree.first_mono (by omega)
  · have hlast := FoldTree.last_child (n := n) (plan_fan_pos ha n) hj
    rw [maxSegmentEnd]
    apply foldl_max_eq (Nat.zero_le _)
    · intro q hq
      obtain ⟨k, hk⟩ := List.mem_iff_getElem?.mp hq
      have hlt := (List.getElem?_eq_some_iff.mp hk).1
      rw [(hget k q hk).2, ← hlast]
      apply FoldTree.last_mono
      have he : (p.plan n).groupLen v j = FoldTree.groupLen (p.plan n).fan n v j := rfl
      omega
    · have hlt : (p.plan n).groupLen v j - 1 < states.length := by omega
      refine .inr ⟨states[(p.plan n).groupLen v j - 1], List.getElem_mem hlt, ?_⟩
      rw [(hget _ _ (List.getElem?_eq_getElem hlt)).2]
      exact hlast

end

namespace Mirrors
variable {p : TreeParams} {n : Nat} {ps : ProofState} {m : State ProofBytes} (hm : Mirrors p n ps m)
include hm

theorem proof_of_slot (v i : Nat) : (ps.nodeSlot v i).map (·.1) = m.got v i := by
  rw [hm.slots, Option.map_map]
  exact Option.map_id'

/-- The machine's order for a group, read out of the stored records. -/
theorem orderFor_eq (known : Bool) (v j : Nat) : orderFor (p.plan n) known m.got v j =
    (gather (ps.nodeSlot v) (j * (p.plan n).fan v) (wanted (p.plan n) known v j)).map
      fun ts => ⟨v + 1, j, ts.map (·.1)⟩ :=
  orderFor_of_slots (hm.proof_of_slot v) j

private theorem isGroup_of_gather {v j : Nat} {ts : List (ProofBytes × Nat × Nat)}
    (h : gather (ps.nodeSlot v) (j * (p.plan n).fan v) ((p.plan n).groupLen v j) = some ts) :
    IsGroup p n v j ts := by
  have hlen := length_of_gather h
  refine ⟨hlen, fun k t hk => ?_⟩
  have hlt := (List.getElem?_eq_some_iff.mp hk).1
  rw [getElem?_of_gather h (by omega), hm.slots] at hk
  obtain ⟨b, _, rfl⟩ := Option.map_eq_some_iff.mp hk
  exact ⟨rfl, rfl⟩

/-- Whatever a handler collects for an order is the group of that order. -/
theorem isGroup_of_wanted (ha : Arities p.leafArity p.internalArity) (hn : 0 < n) {known : Bool}
    {v j : Nat} {ts : List (ProofBytes × Nat × Nat)}
    (h : gather (ps.nodeSlot v) (j * (p.plan n).fan v) (wanted (p.plan n) known v j) = some ts) :
    IsGroup p n v j ts ∧ (j < (p.plan n).width (v + 1) ∨ known = true) := by
  have hv : ∀ i, m.got v i ≠ none → i < (p.plan n).width v := fun i hi => (hm.inv.got_valid v i hi).2
  have ho : orderFor (p.plan n) known m.got v j = some ⟨v + 1, j, ts.map (·.1)⟩ := by
    rw [hm.orderFor_eq, h]
    rfl
  obtain ⟨_, hf⟩ := (orderFor_isSome_iff (plan_wellFormed ha hn) hv).mp (Option.isSome_of_eq_some ho)
  cases known with
  | true => exact ⟨hm.isGroup_of_gather h, .inr rfl⟩
  | false =>
    have hfull := hf.resolve_right (by simp)
    have hlen := (FoldTree.full_iff_groupLen (plan_fan_pos ha n)).mp hfull
    refine ⟨hm.isGroup_of_gather ?_, .inl ?_⟩
    · rw [← h, Plan.groupLen, hlen]
      rfl
    · rw [Plan.width, FoldTree.lt_width_succ (plan_fan_pos ha n _)]
      have h1 : (j + 1) * (p.plan n).fan v ≤ FoldTree.width (p.plan n).fan (p.plan n).items v := hfull
      have h2 := plan_fan_pos ha n v
      rw [Nat.succ_mul] at h1
      omega

end Mirrors

/-- Equal up to what results store, apart from the deferral payloads. -/
structure SameShape (ps ps' : ProofState) : Prop where
  status : ps'.status = ps.status
  context : ps'.context = ps.context
  leafArity : ps'.leafArity = ps.leafArity
  internalArity : ps'.internalArity = ps.internalArity
  costLimit : ps'.costLimit = ps.costLimit
  deferralCircuitCount : ps'.deferralCircuitCount = ps.deferralCircuitCount
  numSegments : ps'.numSegments = ps.numSegments
  executeE2 : ps'.executeE2State = ps.executeE2State

namespace ProofState

def storeApp (ps : ProofState) (st : AppProofState) : ProofState :=
  { ps with
    appProofs := Function.update ps.appProofs st.segmentIdx (some st)
    deferralFinalMerklePathBytes := keepFirst ps.deferralFinalMerklePathBytes st.finalMerklePathBytes
    deferralDepth0MerkleProofsBytes :=
      keepFirst ps.deferralDepth0MerkleProofsBytes st.deferralMerkleProofsBytes }

def storeLeaf (ps : ProofState) (st : LeafProofState) : ProofState :=
  { ps with leafProofs := Function.update ps.leafProofs st.segmentStart (some st) }

def storeInternal (ps : ProofState) (idx : Nat) (st : InternalProofState) : ProofState :=
  { ps with internalProofs := Function.update ps.internalProofs ⟨st.layerIdx, idx⟩ (some st) }

def storeE2 (ps : ProofState) (st : ExecuteE2State) : ProofState :=
  { ps with numSegments := some st.numSegments, executeE2State := some st }

theorem nodeSlot_storeApp (ps : ProofState) (st : AppProofState) (v i : Nat) :
    (ps.storeApp st).nodeSlot v i =
      if v = 0 ∧ i = st.segmentIdx then some (unwrapProof st.proof, i, i) else ps.nodeSlot v i := by
  cases v with
  | zero => by_cases h : i = st.segmentIdx <;> simp [nodeSlot, storeApp, h]
  | succ v => cases v <;> simp [nodeSlot, storeApp]

theorem nodeSlot_storeLeaf (ps : ProofState) (st : LeafProofState) (hla : 0 < ps.leafArity) {k : Nat}
    (hk : st.segmentStart = k * ps.leafArity) (v i : Nat) :
    (ps.storeLeaf st).nodeSlot v i =
      if v = 1 ∧ i = k then some (unwrapProof st.proof, st.segmentStart, st.segmentEnd)
      else ps.nodeSlot v i := by
  cases v with
  | zero => simp [nodeSlot, storeLeaf]
  | succ v =>
    cases v with
    | zero =>
      have he : i * ps.leafArity = k * ps.leafArity ↔ i = k := Nat.mul_left_inj hla.ne'
      by_cases h : i = k <;> simp [nodeSlot, storeLeaf, hk, h, he]
    | succ l => simp [nodeSlot, storeLeaf]

theorem nodeSlot_storeInternal (ps : ProofState) (idx : Nat) (st : InternalProofState) (v i : Nat) :
    (ps.storeInternal idx st).nodeSlot v i =
      if v = st.layerIdx + 2 ∧ i = idx then
        some (unwrapProof st.proof, st.segmentStart, st.segmentEnd)
      else ps.nodeSlot v i := by
  cases v with
  | zero => simp [nodeSlot, storeInternal]
  | succ v =>
    cases v with
    | zero => simp [nodeSlot, storeInternal]
    | succ l =>
      by_cases h : l = st.layerIdx ∧ i = idx
      · simp [nodeSlot, storeInternal, h]
      · have hne : (⟨l, i⟩ : InternalProofIndex) ≠ ⟨st.layerIdx, idx⟩ := by
          simpa using h
        simp [nodeSlot, storeInternal, hne, h]

end ProofState

namespace Mirrors
variable {p : TreeParams} {n : Nat} {ps ps' : ProofState} {m : State ProofBytes}
  (hm : Mirrors p n ps m)
include hm

/-- Storing the product of an awaited node is an arrival of the machine. -/
theorem arrive (ha : Arities p.leafArity p.internalArity) (hn : 0 < n) {v i : Nat} {b : ProofBytes}
    (hnew : m.got v i = none) (haw : m.Awaited (p.plan n) v i) (hs : SameShape ps ps')
    (hslot : ∀ u j, ps'.nodeSlot u j = if u = v ∧ j = i then
      some (b, FoldTree.first (p.plan n).fan v i, FoldTree.last (p.plan n).fan n v i)
      else ps.nodeSlot u j)
    (happ : ∀ j a, ps'.appProofs j = some a → a.proof.isSome) :
    Mirrors p n ps' (m.arrive (p.plan n) v i b) where
  inv := inv_arrive (plan_wellFormed ha hn) hm.inv hnew haw
  status := hs.status.trans hm.status
  context := hs.context.trans hm.context
  leafArity := hs.leafArity.trans hm.leafArity
  internalArity := hs.internalArity.trans hm.internalArity
  costLimit := hs.costLimit.trans hm.costLimit
  deferralCircuitCount := hs.deferralCircuitCount.trans hm.deferralCircuitCount
  numSegments := hs.numSegments.trans hm.numSegments
  executeE2 := (congrArg Option.isSome hs.executeE2).trans hm.executeE2
  slots u j := by
    rw [hslot]
    by_cases h : u = v ∧ j = i
    · obtain ⟨rfl, rfl⟩ := h
      have hp : (m.arrive (p.plan n) u j b).got u j = some b := put_self m.got u j b
      simp [hp]
    · have hp : (m.arrive (p.plan n) v i b).got u j = m.got u j := put_other (by simpa using h)
      rw [if_neg h, hp, hm.slots]
  app_proof := happ

/-- Storing the ExecuteE2 result is the machine learning its item count. -/
theorem storeE2 (ha : Arities p.leafArity p.internalArity) (hn : 0 < n) {st : ExecuteE2State}
    (hb : m.before = none) (hst : st.numSegments = n) :
    Mirrors p n (ps.storeE2 st) (m.learn (p.plan n)) where
  inv := inv_learn (plan_wellFormed ha hn) hm.inv hb
  status := hm.status
  context := hm.context
  leafArity := hm.leafArity
  internalArity := hm.internalArity
  costLimit := hm.costLimit
  deferralCircuitCount := hm.deferralCircuitCount
  numSegments := congrArg some hst
  executeE2 := rfl
  slots v i := by
    have h : (ps.storeE2 st).nodeSlot v i = ps.nodeSlot v i := by
      cases v with
      | zero => rfl
      | succ v => cases v <;> rfl
    rw [h, hm.slots]
    rfl
  app_proof := hm.app_proof

theorem slot_none {v i : Nat} (h : m.got v i = none) : ps.nodeSlot v i = none := by
  rw [hm.slots, h]
  rfl

end Mirrors
end EdgeProver
