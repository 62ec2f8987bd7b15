import EdgeProver.Tree.Refinement

/-! Each result handler, run on a state that mirrors the fold machine, stores the result and
sends the requests of the machine's new orders. -/
namespace EdgeProver
open FoldMachine FoldMachine.State Gather ProofState

namespace Mirrors
variable {p : TreeParams} {n : Nat} {ps : ProofState} {m : State ProofBytes}
  (hm : Mirrors p n ps m) (ha : Arities p.leafArity p.internalArity) (hn : 0 < n)
include hm

private theorem appBytes_eq (i : Nat) : ps.appBytes i = m.got 0 i := by
  rw [← hm.proof_of_slot, nodeSlot, Option.map_map, appBytes]
  cases h : ps.appProofs i with
  | none => rfl
  | some a =>
    obtain ⟨b, hb⟩ := Option.isSome_iff_exists.mp (hm.app_proof i a h)
    simp [unwrapProof, hb]

theorem numSegments_of_known (h : m.known = true) : ps.numSegments = some n := by
  rw [hm.numSegments, if_pos h]

theorem numSegments_of_unknown (h : m.known = false) : ps.numSegments = none := by
  rw [hm.numSegments, h]
  rfl

theorem effectiveFinalLayer_eq : ps.effectiveFinalLayer n = p.finalLayer n := by
  rw [effectiveFinalLayer, hm.leafArity, hm.internalArity]
  rfl

include ha hn

/-- An order that is found while the segment count is unknown is for a full group. -/
theorem full_of_orderFor {v j : Nat} (h : (orderFor (p.plan n) m.known m.got v j).isSome)
    (hk : m.known = false) : (p.plan n).Full v j := by
  have hv : ∀ i, m.got v i ≠ none → i < (p.plan n).width v := fun i hi => (hm.inv.got_valid v i hi).2
  have hf := ((orderFor_isSome_iff (plan_wellFormed ha hn) hv).mp h).2
  rw [hk] at hf
  exact hf.resolve_right Bool.false_ne_true

/-- The batch end of `handle_app_result` cuts the group of leaf `j`, and is the leaf's last
segment whenever that group is ordered. -/
private theorem actualBatchEnd_spec {j : Nat} (hj : j * p.leafArity < n) :
    j * p.leafArity ≤ ps.actualBatchEnd (j * p.leafArity) ∧
      ps.actualBatchEnd (j * p.leafArity) + 1 - j * p.leafArity = wanted (p.plan n) m.known 0 j ∧
      ((orderFor (p.plan n) m.known m.got 0 j).isSome →
        ps.actualBatchEnd (j * p.leafArity) = FoldTree.last (p.plan n).fan n 1 j) := by
  have hla := ha.leaf_pos
  have hlast : FoldTree.last (p.plan n).fan n 1 j = min (j * p.leafArity + p.leafArity) n - 1 := by
    rw [FoldTree.last, TreeParams.plan, size_leaf, Nat.succ_mul]
  cases hk : m.known with
  | true =>
    have he : ps.actualBatchEnd (j * p.leafArity) = min (j * p.leafArity + p.leafArity - 1) (n - 1) := by
      rw [actualBatchEnd, hm.numSegments_of_known hk, hm.leafArity]
    have hw : wanted (p.plan n) true 0 j = min p.leafArity (n - j * p.leafArity) := rfl
    rw [he, hw, hlast]
    refine ⟨by omega, by omega, fun _ => by omega⟩
  | false =>
    have he : ps.actualBatchEnd (j * p.leafArity) = j * p.leafArity + p.leafArity - 1 := by
      rw [actualBatchEnd, hm.numSegments_of_unknown hk, hm.leafArity]
    have hw : wanted (p.plan n) false 0 j = p.leafArity := rfl
    rw [he, hw, hlast]
    refine ⟨by omega, by omega, fun ho => ?_⟩
    have hfull : (p.plan n).Full 0 j := hm.full_of_orderFor ha hn (by rwa [hk]) hk
    have hf : (j + 1) * p.leafArity ≤ n := hfull
    rw [Nat.succ_mul] at hf
    omega

private theorem collectLeafBatch_eq {j : Nat} (hj : j * p.leafArity < n) :
    ps.collectLeafBatch (j * p.leafArity) =
      (orderFor (p.plan n) m.known m.got 0 j).toList.map (ps.requestOf n) := by
  obtain ⟨hle, hlen, hend⟩ := hm.actualBatchEnd_spec ha hn hj
  have hbytes : ps.appBytes = m.got 0 := funext hm.appBytes_eq
  have hfirst : FoldTree.first (p.plan n).fan 1 j = j * p.leafArity := by
    rw [FoldTree.first, TreeParams.plan, size_leaf]
  rw [collectLeafBatch, if_neg (by omega), hlen, hbytes]
  have hfan : (p.plan n).fan 0 = p.leafArity := rfl
  rw [orderFor, hfan] at hend ⊢
  cases h : gather (m.got 0) (j * p.leafArity) (wanted (p.plan n) m.known 0 j) with
  | none => rfl
  | some bs =>
    rw [hend (by rw [h]; rfl), ← hfirst]
    simp only [Option.map_some, Option.toList_some, List.map_cons, List.map_nil, requestOf,
      hm.leafArity, hm.internalArity]
    rfl

omit ha in
/-- Storing the App result of a segment that has none yet. -/
theorem storeApp (ha : Arities p.leafArity p.internalArity) {st : AppProofState} {b : ProofBytes}
    (hlt : st.segmentIdx < n) (hb : st.proof = some b) (hnew : m.got 0 st.segmentIdx = none) :
    Mirrors p n (ps.storeApp st) (m.arrive (p.plan n) 0 st.segmentIdx b) := by
  refine hm.arrive ha hn hnew (.inl ⟨rfl, hlt⟩) ⟨rfl, rfl, rfl, rfl, rfl, rfl, rfl, rfl⟩ ?_ ?_
  · intro u j
    rw [nodeSlot_storeApp]
    by_cases h : u = 0 ∧ j = st.segmentIdx
    · have hlast : FoldTree.last (p.plan n).fan n 0 st.segmentIdx = st.segmentIdx := by
        simp only [FoldTree.last, FoldTree.size]
        omega
      simp [h, unwrapProof, hb, hlast, FoldTree.first, FoldTree.size]
    · rw [if_neg h, if_neg h]
  · intro j a hj
    simp only [ProofState.storeApp, Function.update_apply] at hj
    split at hj
    · obtain rfl := Option.some.inj hj
      rw [hb]
      rfl
    · exact hm.app_proof j a hj

omit ha in
theorem numSegments_ne_zero : ps.numSegments ≠ some 0 := by
  rw [hm.numSegments]
  split <;> simp [hn.ne']

/-- `handle_app_result` is an arrival on level 0. -/
theorem handleAppResult_eq {r : AppProof} {b : ProofBytes} (hlt : r.state.segmentIdx < n)
    (hb : r.state.proof = some b) (hnew : m.got 0 r.state.segmentIdx = none) :
    ps.handleAppResult r = (ps.storeApp r.state, .ok
      ((m.arriveOrders (p.plan n) 0 r.state.segmentIdx b).map ((ps.storeApp r.state).requestOf n))) := by
  have hm1 := hm.storeApp hn ha hlt hb hnew
  have hold : ps.appProofs r.state.segmentIdx = none := by
    simpa [nodeSlot] using hm.slot_none hnew
  have hrange : ps.numSegments.any (fun numSegments => decide (r.state.segmentIdx ≥ numSegments)) = false := by
    rw [hm.numSegments]
    split <;> simp [hlt]
  have hj := (Nat.div_mul_le_self r.state.segmentIdx p.leafArity).trans_lt hlt
  have hcollect := hm1.collectLeafBatch_eq ha hn hj
  have hstore : ps.handleAppResult r = (ps.storeApp r.state,
      .ok ((ps.storeApp r.state).collectLeafBatch (r.state.segmentIdx / p.leafArity * p.leafArity))) := by
    have hzero := hm.numSegments_ne_zero hn
    rw [← hm.leafArity]
    simp only [handleAppResult, hb, Option.isNone_some, hrange, hold, Option.isSome_none, hzero,
      Bool.false_eq_true, if_false]
    rfl
  rw [hstore, hcollect, arriveOrders, if_pos (show 0 < (p.plan n).top from Nat.succ_pos _)]
  rfl

omit ha hn in
private theorem isFinal_eq (layerIdx : Nat) :
    (ps.numSegments.any fun n => layerIdx == ps.effectiveFinalLayer n) =
      (m.known && layerIdx == p.finalLayer n) := by
  rw [hm.numSegments]
  cases m.known with
  | true => simp [hm.effectiveFinalLayer_eq]
  | false => rfl

omit ha hn in
theorem requestOf_internal (layerIdx j : Nat) (children : List ProofBytes) :
    ps.requestOf n ⟨layerIdx + 1 + 1, j, children⟩ =
      ps.internalRequest layerIdx children (FoldTree.first (p.plan n).fan (layerIdx + 2) j)
        (FoldTree.last (p.plan n).fan n (layerIdx + 2) j) (m.known && layerIdx == p.finalLayer n) := by
  simp only [requestOf, hm.leafArity, hm.internalArity, hm.isFinal_eq]
  rfl

omit hn in
private theorem groupEndLeafIdx_spec {j : Nat} (hj : j * p.internalArity < (p.plan n).width 1) :
    ps.groupEndLeafIdx (j * p.internalArity) + 1 - j * p.internalArity =
      wanted (p.plan n) m.known 1 j := by
  have hia := ha.two_le_internal
  have hw : divCeil n p.leafArity = (p.plan n).width 1 := leafCount_eq ha
  cases hk : m.known with
  | true =>
    have hlen : wanted (p.plan n) true 1 j =
      min p.internalArity ((p.plan n).width 1 - j * p.internalArity) := rfl
    rw [groupEndLeafIdx, hm.numSegments_of_known hk, hm.internalArity, hm.leafArity, hlen]
    simp only [hw]
    omega
  | false =>
    have hlen : wanted (p.plan n) false 1 j = p.internalArity := rfl
    rw [groupEndLeafIdx, hm.numSegments_of_unknown hk, hm.internalArity, hlen]
    show j * p.internalArity + p.internalArity - 1 + 1 - j * p.internalArity = _
    omega

private theorem collectLeafGroup_eq {j : Nat} (hj : j * p.internalArity < (p.plan n).width 1) :
    ps.collectLeafGroup (j * p.internalArity) =
      (orderFor (p.plan n) m.known m.got 1 j).toList.map (ps.requestOf n) := by
  have hj2 : j < (p.plan n).width 2 := (FoldTree.lt_width_succ (plan_fan_pos ha n 1)).mpr hj
  have hfirst : FoldTree.first (p.plan n).fan 2 j = j * p.internalArity * ps.leafArity := by
    simp only [FoldTree.first, FoldTree.size, TreeParams.plan, treeFan, hm.leafArity]
    ring
  have hslot : ps.nodeSlot 1 = fun i => (ps.leafProofs (i * ps.leafArity)).map fun a =>
      (unwrapProof a.proof, a.segmentStart, a.segmentEnd) := rfl
  have hgather := gather_map (fun a : LeafProofState => (unwrapProof a.proof, a.segmentStart, a.segmentEnd))
    (fun i => ps.leafProofs (i * ps.leafArity)) (j * p.internalArity) (wanted (p.plan n) m.known 1 j)
  rw [← hslot] at hgather
  rw [collectLeafGroup, hm.groupEndLeafIdx_spec ha hj, hm.orderFor_eq]
  change _ = ((gather (ps.nodeSlot 1) (j * p.internalArity) _).map _).toList.map _
  rw [hgather]
  cases h : gather (fun i => ps.leafProofs (i * ps.leafArity)) (j * p.internalArity)
      (wanted (p.plan n) m.known 1 j) with
  | none => rfl
  | some leaves =>
    rw [h] at hgather
    have hg := getLast_of_isGroup ha hj2 (hm.isGroup_of_wanted ha hn hgather).1
    rw [List.getLast?_map, Option.map_map] at hg
    have hend : leaves.getLast?.map (·.segmentEnd) = some (FoldTree.last (p.plan n).fan n 2 j) := hg
    have hfin : (m.known && 0 == p.finalLayer n) = false := by
      have : (0 == p.finalLayer n) = false := by
        simp only [TreeParams.finalLayer, beq_eq_false_iff_ne]
        omega
      rw [this, Bool.and_false]
    simp only [Option.map_some, Option.toList_some, List.map_cons, List.map_nil, List.map_map, hend,
      Option.getD_some, hm.requestOf_internal 0, hfin, hfirst]
    rfl

theorem storeLeaf {st : LeafProofState} {i : Nat} {b : ProofBytes}
    (hstart : st.segmentStart = FoldTree.first (p.plan n).fan 1 i)
    (hend : st.segmentEnd = FoldTree.last (p.plan n).fan n 1 i) (hb : st.proof = some b)
    (hnew : m.got 1 i = none) (haw : m.Awaited (p.plan n) 1 i) :
    Mirrors p n (ps.storeLeaf st) (m.arrive (p.plan n) 1 i b) := by
  have hk : st.segmentStart = i * ps.leafArity := by
    rw [hstart, hm.leafArity, FoldTree.first, TreeParams.plan, size_leaf]
  refine hm.arrive ha hn hnew haw ⟨rfl, rfl, rfl, rfl, rfl, rfl, rfl, rfl⟩ ?_ hm.app_proof
  intro u j
  rw [nodeSlot_storeLeaf ps st (by rw [hm.leafArity]; exact ha.leaf_pos) hk, hb, hstart, hend]
  by_cases h : u = 1 ∧ j = i <;> simp [h, unwrapProof]

omit ha in
private theorem in_bounds (ha : Arities p.leafArity p.internalArity) {v i a b : Nat} (hi : i < (p.plan n).width v)
    (hstart : a = FoldTree.first (p.plan n).fan v i) (hend : b = FoldTree.last (p.plan n).fan n v i) :
    ps.numSegments.any (fun numSegments => decide (a ≥ numSegments) || decide (b ≥ numSegments)) = false := by
  have h1 : a < n := by rw [hstart]; exact (FoldTree.lt_width (plan_fan_pos ha n)).mp hi
  have h2 : b < n := by rw [hend]; exact FoldTree.last_lt hn
  rw [hm.numSegments]
  split <;> simp [h1, h2]

/-- `handle_leaf_result` is an arrival on level 1. -/
theorem handleLeafResult_eq {r : LeafProof} {i : Nat} {b : ProofBytes}
    (hstart : r.state.segmentStart = FoldTree.first (p.plan n).fan 1 i)
    (hend : r.state.segmentEnd = FoldTree.last (p.plan n).fan n 1 i) (hb : r.state.proof = some b)
    (hnew : m.got 1 i = none) (haw : m.Awaited (p.plan n) 1 i) :
    ps.handleLeafResult r = (ps.storeLeaf r.state, .ok
      ((m.arriveOrders (p.plan n) 1 i b).map ((ps.storeLeaf r.state).requestOf n))) := by
  have hm1 := hm.storeLeaf ha hn hstart hend hb hnew haw
  have hi : i < (p.plan n).width 1 := (awaited_valid hm.inv haw).2
  have hk : r.state.segmentStart = i * ps.leafArity := by
    rw [hstart, hm.leafArity, FoldTree.first, TreeParams.plan, size_leaf]
  have hold : ps.leafProofs r.state.segmentStart = none := by
    rw [hk]
    simpa [nodeSlot] using hm.slot_none hnew
  have hrange := hm.in_bounds hn ha hi hstart hend
  have hzero := hm.numSegments_ne_zero hn
  have hdiv : r.state.segmentStart / ps.leafArity = i := by
    rw [hk]
    exact Nat.mul_div_cancel _ (by rw [hm.leafArity]; exact ha.leaf_pos)
  have hcollect := hm1.collectLeafGroup_eq ha hn
    ((Nat.div_mul_le_self i p.internalArity).trans_lt hi)
  have hstore : ps.handleLeafResult r = (ps.storeLeaf r.state,
      .ok ((ps.storeLeaf r.state).collectLeafGroup (i / p.internalArity * p.internalArity))) := by
    rw [← hm.internalArity, ← hdiv]
    simp only [handleLeafResult, hb, Option.isNone_some, hrange, hold, Option.isSome_none, hzero,
      Bool.false_eq_true, if_false]
    rfl
  rw [hstore, hcollect, arriveOrders, if_pos (show 1 < (p.plan n).top from Nat.succ_lt_succ (Nat.succ_pos _))]
  rfl

/-- `handle_internal_result` collects a group and sends the parent's request. -/
theorem collectInternalGroup_eq {l i idxEnd : Nat} {final : Bool} (hi : i < (p.plan n).width (l + 2))
    (hlen : idxEnd + 1 - i / p.internalArity * p.internalArity =
      wanted (p.plan n) m.known (l + 2) (i / p.internalArity))
    (hfin : final = (m.known && l + 1 == p.finalLayer n)) :
    ps.collectInternalGroup l i idxEnd final =
      (orderFor (p.plan n) m.known m.got (l + 2) (i / p.internalArity)).toList.map (ps.requestOf n) := by
  have hj : i / p.internalArity < (p.plan n).width (l + 3) := FoldTree.parent_lt (plan_fan_pos ha n) hi
  have hslot : ps.nodeSlot (l + 2) = fun i => (ps.internalProofs ⟨l, i⟩).map fun a =>
      (unwrapProof a.proof, a.segmentStart, a.segmentEnd) := rfl
  have hgather := gather_map (fun a : InternalProofState => (unwrapProof a.proof, a.segmentStart, a.segmentEnd))
    (fun i => ps.internalProofs ⟨l, i⟩) (i / p.internalArity * p.internalArity)
    (wanted (p.plan n) m.known (l + 2) (i / p.internalArity))
  rw [← hslot] at hgather
  rw [collectInternalGroup, hm.internalArity, hlen, hm.orderFor_eq]
  change _ = ((gather (ps.nodeSlot (l + 2)) (i / p.internalArity * p.internalArity) _).map _).toList.map _
  rw [hgather]
  cases h : gather (fun i => ps.internalProofs ⟨l, i⟩) (i / p.internalArity * p.internalArity)
      (wanted (p.plan n) m.known (l + 2) (i / p.internalArity)) with
  | none => rfl
  | some states =>
    rw [h] at hgather
    obtain ⟨hmin, hmax⟩ := bounds_of_isGroup ha hj (hm.isGroup_of_wanted ha hn hgather).1
    simp only [Option.map_some, Option.toList_some, List.map_cons, List.map_nil, List.map_map,
      hm.requestOf_internal (l + 1), hfin, hmin, hmax]
    rfl

theorem storeInternal {st : InternalProofState} {l i : Nat} {b : ProofBytes} (hl : st.layerIdx = l)
    (hstart : st.segmentStart = FoldTree.first (p.plan n).fan (l + 2) i)
    (hend : st.segmentEnd = FoldTree.last (p.plan n).fan n (l + 2) i) (hb : st.proof = some b)
    (hnew : m.got (l + 2) i = none) (haw : m.Awaited (p.plan n) (l + 2) i) :
    Mirrors p n (ps.storeInternal i st) (m.arrive (p.plan n) (l + 2) i b) := by
  refine hm.arrive ha hn hnew haw ⟨rfl, rfl, rfl, rfl, rfl, rfl, rfl, rfl⟩ ?_ hm.app_proof
  intro u j
  rw [nodeSlot_storeInternal, hl, hb, hstart, hend]
  by_cases h : u = l + 2 ∧ j = i <;> simp [h, unwrapProof]

section
variable {st : InternalProofState} {i : Nat}

private theorem afterInternalInsert_unknown (hi : i < (p.plan n).width (st.layerIdx + 2))
    (hk : m.known = false) : ps.afterInternalInsert st i = .ok ((orderFor (p.plan n) m.known m.got
      (st.layerIdx + 2) (i / p.internalArity)).toList.map (ps.requestOf n)) := by
  have hia := ha.two_le_internal
  have hlen : i / p.internalArity * p.internalArity + p.internalArity - 1 + 1 -
      i / p.internalArity * p.internalArity =
      wanted (p.plan n) m.known (st.layerIdx + 2) (i / p.internalArity) := by
    rw [hk]
    show _ = p.internalArity
    omega
  have hfin : false = (m.known && st.layerIdx + 1 == p.finalLayer n) := by
    rw [hk, Bool.false_and]
  rw [← hm.collectInternalGroup_eq ha hn hi hlen hfin, ← hm.internalArity]
  simp only [afterInternalInsert, hm.numSegments_of_unknown hk]

private theorem afterInternalInsert_wrap {b : ProofBytes} (hi : i < (p.plan n).width (st.layerIdx + 2))
    (hl : st.layerIdx < p.finalLayer n)
    (hstart : st.segmentStart = FoldTree.first (p.plan n).fan (st.layerIdx + 2) i)
    (hend : st.segmentEnd = FoldTree.last (p.plan n).fan n (st.layerIdx + 2) i)
    (hb : st.proof = some b) (hgot : m.got (st.layerIdx + 2) i = some b) (hk : m.known = true)
    (h1 : p.numLayers n = 1) : ps.afterInternalInsert st i = .ok ((orderFor (p.plan n) m.known m.got
      (st.layerIdx + 2) (i / p.internalArity)).toList.map (ps.requestOf n)) := by
  have hia := ha.two_le_internal
  have hF : p.finalLayer n = 1 := by rw [TreeParams.finalLayer, h1]; rfl
  have h0 : st.layerIdx = 0 := by omega
  have hwidth : (p.plan n).width 2 = 1 := by
    have := width_layers ha hn
    rwa [h1] at this
  rw [h0] at hi hgot hstart hend
  change i < (p.plan n).width 2 at hi
  obtain rfl : i = 0 := by omega
  have hlen : wanted (p.plan n) true 2 0 = 1 := by
    show min p.internalArity ((p.plan n).width 2 - 0 * p.internalArity) = 1
    omega
  have horder : orderFor (p.plan n) true m.got 2 (0 / p.internalArity) = some ⟨3, 0, [b]⟩ := by
    rw [Nat.zero_div, orderFor, hlen, Nat.zero_mul]
    simp only [gather, hgot, Option.map_some]
  have hfirst : st.segmentStart = FoldTree.first (p.plan n).fan 3 0 := by
    rw [hstart, FoldTree.first, FoldTree.first, Nat.zero_mul, Nat.zero_mul]
  have hlast : st.segmentEnd = FoldTree.last (p.plan n).fan n 3 0 := by
    have h2 := FoldTree.last_of_width_one (n := n) (plan_fan_pos ha n) hwidth
    have h3 := FoldTree.last_of_width_one (n := n) (plan_fan_pos ha n)
      (FoldTree.width_succ_of_one (plan_fan_pos ha n) hwidth)
    exact hend.trans (h2.trans h3.symm)
  have hnum : numInternalLayersForLeafCount (divCeil n p.leafArity) p.internalArity = 1 := h1
  simp only [afterInternalInsert, hm.numSegments_of_known hk, hm.effectiveFinalLayer_eq, h0, hF, hnum, hk,
    hm.leafArity, hm.internalArity, horder, hb, hfirst, hlast, Nat.zero_ne_one, if_false, Nat.zero_add,
    and_self, if_true, Option.toList_some, List.map_cons, List.map_nil, hm.requestOf_internal 1]
  rfl

private theorem afterInternalInsert_tall (hi : i < (p.plan n).width (st.layerIdx + 2))
    (hl : st.layerIdx < p.finalLayer n) (hk : m.known = true) (h1 : p.numLayers n ≠ 1) :
    ps.afterInternalInsert st i = .ok ((orderFor (p.plan n) m.known m.got
      (st.layerIdx + 2) (i / p.internalArity)).toList.map (ps.requestOf n)) := by
  have hia := ha.two_le_internal
  have hdiv := Nat.div_mul_le_self i p.internalArity
  have hgt := one_lt_width ha hn hl h1
  have hne : st.layerIdx ≠ p.finalLayer n := by omega
  have hcond : ¬ (numInternalLayersForLeafCount (divCeil n p.leafArity) p.internalArity = st.layerIdx + 1 ∧
      numInternalLayersForLeafCount (divCeil n p.leafArity) p.internalArity = 1) := fun h => h1 h.2
  have hcount : numProofsAtInternalLayerForLeafCount (divCeil n p.leafArity) st.layerIdx p.internalArity =
      (p.plan n).width (st.layerIdx + 2) := by
    rw [numProofsAtInternalLayer_eq ha]
    exact if_neg hgt.ne'
  have hpos : (p.plan n).width (st.layerIdx + 2) ≠ 0 := by omega
  have hlen : min (i / p.internalArity * p.internalArity + p.internalArity - 1)
      ((p.plan n).width (st.layerIdx + 2) - 1) + 1 - i / p.internalArity * p.internalArity =
      wanted (p.plan n) m.known (st.layerIdx + 2) (i / p.internalArity) := by
    rw [hk]
    show _ = min p.internalArity ((p.plan n).width (st.layerIdx + 2) - i / p.internalArity * p.internalArity)
    omega
  have hfin : (st.layerIdx + 1 == p.finalLayer n) = (m.known && st.layerIdx + 1 == p.finalLayer n) := by
    rw [hk, Bool.true_and]
  simp only [afterInternalInsert, hm.numSegments_of_known hk, hm.effectiveFinalLayer_eq, hne, if_false,
    hm.leafArity, hm.internalArity, hcount, hpos]
  rw [if_neg hcond, hm.collectInternalGroup_eq ha hn hi hlen hfin]

end

omit ha hn in
private theorem afterInternalInsert_final {st : InternalProofState} {i : Nat} (hk : m.known = true)
    (hl : st.layerIdx = p.finalLayer n) : ps.afterInternalInsert st i = ps.finalInternalFollowUp st := by
  simp only [afterInternalInsert, hm.numSegments_of_known hk, hm.effectiveFinalLayer_eq, hl, if_true]

omit hm ha hn in
/-- The final level has no parent to order. -/
theorem arriveOrders_of_top {v i : Nat} {b : ProofBytes} (h : v = (p.plan n).top) :
    m.arriveOrders (p.plan n) v i b = [] := by
  rw [arriveOrders, if_neg (by omega)]

/-- `handle_internal_result` is an arrival on the level of the layer. -/
theorem handleInternalResult_eq {r : InternalProof} {i : Nat} {b : ProofBytes}
    (hstart : r.state.segmentStart = FoldTree.first (p.plan n).fan (r.state.layerIdx + 2) i)
    (hend : r.state.segmentEnd = FoldTree.last (p.plan n).fan n (r.state.layerIdx + 2) i)
    (hb : r.state.proof = some b) (hnew : m.got (r.state.layerIdx + 2) i = none)
    (haw : m.Awaited (p.plan n) (r.state.layerIdx + 2) i) :
    ps.handleInternalResult r = (ps.storeInternal i r.state,
      if m.known = true ∧ r.state.layerIdx = p.finalLayer n then
        (ps.storeInternal i r.state).finalInternalFollowUp r.state
      else .ok ((m.arriveOrders (p.plan n) (r.state.layerIdx + 2) i b).map
        ((ps.storeInternal i r.state).requestOf n))) := by
  have hm1 := hm.storeInternal ha hn rfl hstart hend hb hnew haw
  obtain ⟨htop, hi⟩ := awaited_valid hm.inv haw
  have hidx : segmentStartToInternalIdxWithBatch r.state.segmentStart r.state.layerIdx ps.leafArity
      ps.internalArity = i := by
    rw [hstart, hm.leafArity, hm.internalArity]
    exact segmentStartToInternalIdx_first ha _ i
  have hold : ps.internalProofs ⟨r.state.layerIdx, i⟩ = none := by
    simpa [nodeSlot] using hm.slot_none hnew
  have hrange := hm.in_bounds hn ha hi hstart hend
  have hstore : ps.handleInternalResult r = (ps.storeInternal i r.state,
      (ps.storeInternal i r.state).afterInternalInsert r.state i) := by
    simp only [handleInternalResult, hb, Option.isNone_some, hrange, hidx, hold, Option.isSome_none,
      Bool.false_eq_true, if_false]
    rfl
  rw [hstore]
  refine congrArg _ ?_
  have hgot : (m.arrive (p.plan n) (r.state.layerIdx + 2) i b).got (r.state.layerIdx + 2) i = some b :=
    put_self _ _ _ _
  have hle : r.state.layerIdx ≤ p.finalLayer n := Nat.le_of_add_le_add_right htop
  rcases hle.lt_or_eq with hlt | heq
  · rw [if_neg (fun h => hlt.ne h.2), arriveOrders,
      if_pos (show r.state.layerIdx + 2 < (p.plan n).top from Nat.add_lt_add_right hlt 2)]
    rcases Bool.eq_false_or_eq_true m.known with hk | hk
    · by_cases h1 : p.numLayers n = 1
      · exact hm1.afterInternalInsert_wrap ha hn hi hlt hstart hend hb hgot hk h1
      · exact hm1.afterInternalInsert_tall ha hn hi hlt hk h1
    · exact hm1.afterInternalInsert_unknown ha hn hi hk
  · cases hk : m.known with
    | false =>
      rw [if_neg (fun h => Bool.false_ne_true h.1), arriveOrders_of_top (by rw [heq]; rfl),
        hm1.afterInternalInsert_unknown ha hn hi hk]
      have hnone : (orderFor (p.plan n) (m.arrive (p.plan n) (r.state.layerIdx + 2) i b).known
          (m.arrive (p.plan n) (r.state.layerIdx + 2) i b).got (r.state.layerIdx + 2)
          (i / p.internalArity)) = none := by
        rw [← Option.not_isSome_iff_eq_none]
        intro hs
        have := full_le_top (plan_wellFormed ha hn) (hm1.full_of_orderFor ha hn hs hk)
        simp only [TreeParams.plan] at this
        omega
      rw [hnone]
      rfl
    | true =>
      rw [if_pos ⟨rfl, heq⟩]
      exact hm1.afterInternalInsert_final hk heq

omit hm ha hn in
private theorem tailChild_eq (layerIdx idx : Nat) :
    ps.tailChild layerIdx idx = (ps.nodeSlot (layerIdx + 1) idx).map fun t => (t.1, t.2.2) := by
  cases layerIdx <;> simp [tailChild, nodeSlot, Option.map_map, Function.comp_def]

omit hm in
private theorem tail_numProofs {layerIdx : Nat} (hl : layerIdx < p.numLayers n) :
    (if layerIdx = 0 then divCeil n p.leafArity
      else numProofsAtInternalLayerForLeafCount (divCeil n p.leafArity) (layerIdx - 1) p.internalArity) =
      (p.plan n).width (layerIdx + 1) := by
  cases layerIdx with
  | zero => exact leafCount_eq ha
  | succ l =>
    have hgt : 1 < FoldTree.width (p.plan n).fan n (l + 1) :=
      one_lt_width ha hn (by simp only [TreeParams.finalLayer]; omega) (by omega)
    rw [if_neg (Nat.succ_ne_zero l), Nat.add_sub_cancel, numProofsAtInternalLayer_eq ha]
    exact if_neg hgt.ne'

omit hm ha hn in
private theorem tail_segmentStart (layerIdx j : Nat) :
    (if layerIdx = 0 then j * p.internalArity * p.leafArity
      else segmentStartOfInternalProofForLeafCount p.leafArity p.internalArity (layerIdx - 1)
        (j * p.internalArity)) = FoldTree.first (p.plan n).fan (layerIdx + 2) j := by
  rw [← FoldTree.first_child]
  cases layerIdx with
  | zero =>
    simp only [if_true, FoldTree.first, FoldTree.size, TreeParams.plan, treeFan, Nat.one_mul]
  | succ l =>
    rw [if_neg (Nat.succ_ne_zero l), Nat.add_sub_cancel, segmentStartOfInternalProof_eq]
    rfl

private theorem triggerTailProof_eq (hk : m.known = true) {layerIdx : Nat} (hl : layerIdx < p.numLayers n)
    (hpart : ∀ v, (p.plan n).width v % (p.plan n).fan v ≠ 0 →
      m.got (v + 1) ((p.plan n).width v / (p.plan n).fan v) = none) :
    ps.triggerTailProof (divCeil n p.leafArity) (p.finalLayer n) layerIdx =
      (if (p.plan n).width (layerIdx + 1) % (p.plan n).fan (layerIdx + 1) = 0 then none
        else orderFor (p.plan n) true m.got (layerIdx + 1)
          ((p.plan n).width (layerIdx + 1) / (p.plan n).fan (layerIdx + 1))).map (ps.requestOf n) := by
  have hnum := tail_numProofs ha hn hl
  have hfan : (p.plan n).fan (layerIdx + 1) = p.internalArity := rfl
  have hdiv := Nat.div_add_mod' ((p.plan n).width (layerIdx + 1)) p.internalArity
  rw [triggerTailProof, hm.leafArity, hm.internalArity, hnum, hfan]
  by_cases hmod : (p.plan n).width (layerIdx + 1) % p.internalArity = 0
  · simp [hmod]
  · generalize hj : (p.plan n).width (layerIdx + 1) / p.internalArity = j at *
    have hstart : (p.plan n).width (layerIdx + 1) - (p.plan n).width (layerIdx + 1) % p.internalArity =
        j * p.internalArity := by omega
    have hold : ps.internalProofs ⟨layerIdx, j⟩ = none := by
      have hnew : m.got (layerIdx + 2) j = none := by
        rw [← hj]
        exact hpart (layerIdx + 1) hmod
      simpa [nodeSlot] using hm.slot_none hnew
    have hlen : (p.plan n).width (layerIdx + 1) % p.internalArity =
        wanted (p.plan n) true (layerIdx + 1) j := by
      rw [← hj]
      exact (FoldTree.groupLen_partial (plan_fan_pos ha n)).symm
    have hj2 : j < (p.plan n).width (layerIdx + 2) := by
      rw [Plan.width, FoldTree.lt_width_succ (plan_fan_pos ha n _)]
      show j * p.internalArity < (p.plan n).width (layerIdx + 1)
      omega
    have hslot : ps.tailChild layerIdx = fun idx =>
        (ps.nodeSlot (layerIdx + 1) idx).map fun t => (t.1, t.2.2) := funext fun idx => tailChild_eq layerIdx idx
    have hseg := tail_segmentStart (p := p) (n := n) layerIdx j
    rw [if_pos (Nat.pos_of_ne_zero hmod), if_neg hmod, hm.orderFor_eq, ← hlen]
    simp only [hold, Option.isSome_none, Bool.false_eq_true, if_false, hstart, hseg, hslot, gather_map]
    show _ = Option.map _ (Option.map _ (gather (ps.nodeSlot (layerIdx + 1)) (j * p.internalArity) _))
    cases h : gather (ps.nodeSlot (layerIdx + 1)) (j * p.internalArity)
        ((p.plan n).width (layerIdx + 1) % p.internalArity) with
    | none => rfl
    | some ts =>
      rw [hlen] at h
      have hg := getLast_of_isGroup ha hj2 (hm.isGroup_of_wanted ha hn h).1
      have hend : ((ts.map fun t => (t.1, t.2.2)).getLast?.map (·.2)) =
          some (FoldTree.last (p.plan n).fan n (layerIdx + 2) j) := by
        rw [List.getLast?_map, Option.map_map]
        exact hg
      simp only [Option.map_some, hend, Option.getD_some, hm.requestOf_internal, hk, Bool.true_and,
        List.map_map]
      rfl

private theorem flushPendingLeafBatches_eq (hk : m.known = true)
    (hpart : ∀ v, (p.plan n).width v % (p.plan n).fan v ≠ 0 →
      m.got (v + 1) ((p.plan n).width v / (p.plan n).fan v) = none) :
    ps.flushPendingLeafBatches = ((if (p.plan n).width 0 % (p.plan n).fan 0 = 0 then none
      else orderFor (p.plan n) true m.got 0 ((p.plan n).width 0 / (p.plan n).fan 0)).map
        (ps.requestOf n)).toList := by
  have hw : (p.plan n).width 0 = n := rfl
  have hfan : (p.plan n).fan 0 = p.leafArity := rfl
  have hdiv := Nat.div_add_mod' n p.leafArity
  have hlt := Nat.mod_lt n ha.leaf_pos
  simp only [flushPendingLeafBatches, hm.numSegments_of_known hk, hm.leafArity, hw, hfan]
  by_cases hmod : n % p.leafArity = 0
  · simp [hmod]
  · have hold : ps.leafProofs (n / p.leafArity * p.leafArity) = none := by
      have hnew : m.got 1 (n / p.leafArity) = none := hpart 0 hmod
      simpa [nodeSlot, hm.leafArity] using hm.slot_none hnew
    have hlen : n - 1 + 1 - n / p.leafArity * p.leafArity = n % p.leafArity := by omega
    have hwant : wanted (p.plan n) true 0 (n / p.leafArity) = n % p.leafArity :=
      FoldTree.groupLen_partial (plan_fan_pos ha n)
    have hbytes : ps.appBytes = m.got 0 := funext hm.appBytes_eq
    have hfirst : FoldTree.first (treeFan p.leafArity p.internalArity) 1 (n / p.leafArity) =
        n / p.leafArity * p.leafArity := by
      rw [FoldTree.first, size_leaf]
    have hlast : FoldTree.last (treeFan p.leafArity p.internalArity) n 1 (n / p.leafArity) = n - 1 := by
      rw [FoldTree.last, size_leaf, Nat.succ_mul]
      omega
    rw [if_pos (Nat.pos_of_ne_zero hmod), if_neg hmod, orderFor, hwant, hold, hlen, hbytes, hfan]
    cases h : gather (m.got 0) (n / p.leafArity * p.leafArity) (n % p.leafArity) with
    | none => rfl
    | some bs =>
      have hne : bs.isEmpty = false := by
        have := length_of_gather h
        cases bs with
        | nil => exact absurd this.symm hmod
        | cons b bs => rfl
      simp only [Option.isSome_none, hne, Bool.false_eq_true, if_false, Option.map_some, Option.toList_some,
        requestOf, hm.leafArity, hm.internalArity, hfirst, hlast]

omit hm ha hn in
private theorem filterMap_range_succ {α : Type} (f : Nat → Option α) (k : Nat) :
    (List.range (k + 1)).filterMap f = (f 0).toList ++ (List.range k).filterMap fun l => f (l + 1) := by
  rw [List.range_succ_eq_map, List.filterMap_cons, List.filterMap_map]
  cases f 0 <;> rfl

/-- `handle_execute_e2_result` is the machine learning its item count. -/
theorem handleExecuteE2Result_eq {r : ExecuteE2Result} (hb : m.before = none)
    (hst : r.state.numSegments = n) :
    ps.handleExecuteE2Result r = (ps.storeE2 r.state,
      .ok ((tailOrders (p.plan n) m.got).map ((ps.storeE2 r.state).requestOf n))) := by
  have hm1 := hm.storeE2 ha hn hb hst
  have hpart := fun v h => got_partial_none (v := v) (plan_wellFormed ha hn) hm.inv hb h
  have hold : ps.executeE2State.isSome = false := by
    rw [hm.executeE2, known, hb]
    rfl
  have hflush := hm1.flushPendingLeafBatches_eq ha hn rfl hpart
  have htail : (ps.storeE2 r.state).triggerTailProofs n = (List.range (p.numLayers n)).filterMap fun l =>
      (if (p.plan n).width (l + 1) % (p.plan n).fan (l + 1) = 0 then none
        else orderFor (p.plan n) true m.got (l + 1) ((p.plan n).width (l + 1) / (p.plan n).fan (l + 1))).map
          ((ps.storeE2 r.state).requestOf n) := by
    rw [triggerTailProofs, hm1.effectiveFinalLayer_eq, hm1.leafArity, hm1.internalArity]
    apply List.filterMap_congr
    intro l hl
    exact hm1.triggerTailProof_eq ha hn rfl (List.mem_range.mp hl) hpart
  have hstore : ps.handleExecuteE2Result r = (ps.storeE2 r.state,
      .ok ((ps.storeE2 r.state).flushPendingLeafBatches ++ (ps.storeE2 r.state).triggerTailProofs n)) := by
    simp only [handleExecuteE2Result, hold, hst, hn.ne', Bool.false_eq_true, if_false]
    rw [ProofState.storeE2, hst]
  rw [hstore, hflush, htail, tailOrders]
  show _ = (ps.storeE2 r.state, Except.ok (List.map _ (List.filterMap _ (List.range (p.numLayers n + 1)))))
  rw [List.map_filterMap, filterMap_range_succ]
  rfl

end Mirrors
end EdgeProver
