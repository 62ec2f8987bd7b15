import EdgeProver.Tree.Handlers

/-! A run of the tree tracks a run of the fold machine: what was emitted, what is
outstanding and which proofs were delivered. -/
namespace EdgeProver
open FoldMachine FoldMachine.State Gather ProofState

def GeneralProveRequest.isEvm : GeneralProveRequest → Bool
  | .evmProve _ => true
  | _ => false

def orderOf (p : TreeParams) : GeneralProveRequest → Option (Order ProofBytes)
  | .leafProve q => some ⟨1, q.segmentStart / p.leafArity, q.appProofs⟩
  | .internalProve q => some ⟨q.layerIdx + 2,
      segmentStartToInternalIdxWithBatch q.segmentStart q.layerIdx p.leafArity p.internalArity,
      q.childProofs⟩
  | .evmProve _ => none

/-- The request covers exactly the segments of its node. -/
def InRange (p : TreeParams) (n : Nat) : GeneralProveRequest → Prop
  | .leafProve q => ∃ j, q.segmentStart = FoldTree.first (p.plan n).fan 1 j ∧
      q.segmentEnd = FoldTree.last (p.plan n).fan n 1 j
  | .internalProve q => ∃ j, q.segmentStart = FoldTree.first (p.plan n).fan (q.layerIdx + 2) j ∧
      q.segmentEnd = FoldTree.last (p.plan n).fan n (q.layerIdx + 2) j
  | .evmProve _ => True

def nodeProofOf (p : TreeParams) (rs : List ProofResult) : Nat → Nat → Option ProofBytes
  | 0, i => appProofOf rs i
  | v + 1, i => childProofOf p rs v i

def evmRequest (p : TreeParams) (st : InternalProofState) : GeneralProveRequest :=
  .evmProve {
    context := p.context
    internalProofBytes := st.proof.getD []
    deferralMerkleProofsBytes := st.deferralMerkleProofsBytes
    proofHasDeferral := p.deferralCircuitCount > 0 }

/-- The EVM steps sent so far: one, when the final proof came after the segment count. -/
def evmOrders (p : TreeParams) (n : Nat) (ps : ProofState) (m : State ProofBytes) :
    List GeneralProveRequest :=
  match ps.internalProofs ⟨p.finalLayer n, 0⟩ with
  | some st =>
    if p.context.proofType = .evm ∧ m.before.any (fun g => (g (p.plan n).top 0).isNone) ∧ st.readyForEvm
    then [evmRequest p st] else []
  | none => []

structure Tracks (p : TreeParams) (n : Nat) (s : TreeState) (m : State ProofBytes) : Prop where
  mirrors : Mirrors p n s.ps m
  orders : s.emitted.filterMap (orderOf p) = m.emitted
  ranged : ∀ q ∈ s.emitted, InRange p n q
  proofs : ∀ v i, nodeProofOf p s.delivered v i = m.got v i
  outstanding_sub : s.outstanding.Sublist s.emitted
  outstanding_iff : ∀ o, o ∈ s.outstanding.filterMap (orderOf p) ↔
    o ∈ m.emitted ∧ m.got o.level o.index = none
  executeE2 : (∃ q ∈ s.delivered, q.isExecuteE2 = true) ↔ m.known = true
  apps : ∀ i, (∃ q ∈ s.delivered, q.appSegment = some i) ↔ m.got 0 i ≠ none
  finalMerklePath : s.ps.deferralFinalMerklePathBytes = shippedBytes (·.finalMerklePathBytes) s.delivered
  depth0 : s.ps.deferralDepth0MerkleProofsBytes = shippedBytes (·.deferralMerkleProofsBytes) s.delivered
  stored : ∀ l i st, s.ps.internalProofs ⟨l, i⟩ = some st →
    st.layerIdx = l ∧ st.proof.isSome ∧ ∃ r, .internal r ∈ s.delivered ∧ r.state = st
  evms : s.emitted.filter (·.isEvm) = evmOrders p n s.ps m
  evm_outstanding : s.outstanding.filter (·.isEvm) =
    if s.ps.evmProof.isSome then [] else s.emitted.filter (·.isEvm)
  evm_proof : ∀ e, s.ps.evmProof = some e → e.proof.isSome ∧ s.emitted.filter (·.isEvm) ≠ []

section
variable {p : TreeParams} {n : Nat} {ps : ProofState} {m : State ProofBytes}
  (hm : Mirrors p n ps m) (ha : Arities p.leafArity p.internalArity)
include hm ha

private theorem orderOf_requestOf {o : Order ProofBytes} (ho : 0 < o.level) :
    orderOf p (ps.requestOf n o) = some o := by
  obtain ⟨level, index, children⟩ := o
  match level, ho with
  | 1, _ =>
    have hdiv := Nat.mul_div_cancel index ha.leaf_pos
    simp only [requestOf, leafRequest, orderOf, hm.leafArity, hm.internalArity, FoldTree.first, size_leaf, hdiv]
  | l + 2, _ =>
    have hidx := segmentStartToInternalIdx_first ha l index
    simp only [requestOf, internalRequest, orderOf, hm.leafArity, hm.internalArity, hidx]

private theorem filterMap_requestOf {os : List (Order ProofBytes)} (h : ∀ o ∈ os, 0 < o.level) :
    (os.map (ps.requestOf n)).filterMap (orderOf p) = os := by
  rw [List.filterMap_map]
  have he : ∀ o ∈ os, (orderOf p ∘ ps.requestOf n) o = some o := fun o ho =>
    orderOf_requestOf hm ha (h o ho)
  rw [List.filterMap_congr he, List.filterMap_some]

omit ha in
private theorem inRange_requestOf {o : Order ProofBytes} (ho : 0 < o.level) : InRange p n (ps.requestOf n o) := by
  obtain ⟨level, index, children⟩ := o
  match level, ho with
  | 1, _ =>
    refine ⟨index, ?_⟩
    simp only [hm.leafArity, hm.internalArity]
    exact ⟨rfl, rfl⟩
  | l + 2, _ =>
    refine ⟨index, ?_⟩
    simp only [hm.leafArity, hm.internalArity]
    exact ⟨rfl, rfl⟩

omit hm ha in
theorem isEvm_requestOf (o : Order ProofBytes) : (ps.requestOf n o).isEvm = false := by
  unfold requestOf
  split <;> rfl

omit hm ha in
private theorem orderOf_of_isEvm {q : GeneralProveRequest} (h : q.isEvm = true) : orderOf p q = none := by
  cases q with
  | evmProve q => rfl
  | leafProve q => exact absurd h Bool.false_ne_true
  | internalProve q => exact absurd h Bool.false_ne_true

omit hm ha in
private theorem inRange_of_isEvm {q : GeneralProveRequest} (h : q.isEvm = true) : InRange p n q := by
  cases q with
  | evmProve q => trivial
  | leafProve q => exact absurd h Bool.false_ne_true
  | internalProve q => exact absurd h Bool.false_ne_true

omit hm ha in
private theorem filter_isEvm_requestOf (os : List (Order ProofBytes)) :
    (os.map (ps.requestOf n)).filter (·.isEvm) = [] := by
  rw [List.filter_eq_nil_iff]
  intro q hq
  obtain ⟨o, _, rfl⟩ := List.mem_map.mp hq
  simp [isEvm_requestOf]

end

theorem nodeProofOf_append (p : TreeParams) (rs rs' : List ProofResult) (v i : Nat) :
    nodeProofOf p (rs ++ rs') v i = (nodeProofOf p rs v i).or (nodeProofOf p rs' v i) := by
  match v with
  | 0 => exact List.findSome?_append
  | 1 => exact List.findSome?_append
  | l + 2 => exact List.findSome?_append

/-- A result without the proof of a node. -/
theorem nodeProofOf_skip (p : TreeParams) (rs : List ProofResult) {r : ProofResult}
    (hr : (∃ q, r = .executeE2 q) ∨ ∃ q, r = .evm q) (v i : Nat) :
    nodeProofOf p (rs ++ [r]) v i = nodeProofOf p rs v i := by
  have hnone : nodeProofOf p [r] v i = none := by
    rcases hr with ⟨q, rfl⟩ | ⟨q, rfl⟩ <;> match v with
      | 0 => rfl
      | 1 => rfl
      | l + 2 => rfl
  rw [nodeProofOf_append, hnone, Option.or_none]

private theorem appSegment_skip (rs : List ProofResult) {r : ProofResult} (hr : r.appSegment = none) (j : Nat) :
    (∃ q ∈ rs ++ [r], q.appSegment = some j) ↔ ∃ q ∈ rs, q.appSegment = some j := by
  simp only [List.mem_append, List.mem_singleton, or_and_right, exists_or, exists_eq_left, hr, reduceCtorEq, or_false]

theorem shippedBytes_append (field : AppProofState → Option Bytes) (rs rs' : List ProofResult) :
    shippedBytes field (rs ++ rs') = (shippedBytes field rs).or (shippedBytes field rs') :=
  List.findSome?_append

theorem keepFirst_eq (buffered shipped : Option Bytes) : keepFirst buffered shipped = buffered.or shipped := by
  cases buffered <;> cases shipped <;> rfl

/-- The result carries the proof of node `(v, i)`. -/
def Carries (p : TreeParams) (r : ProofResult) (v i : Nat) (b : ProofBytes) : Prop :=
  match v, r with
  | 0, .app r => r.state.segmentIdx = i ∧ r.state.proof = some b
  | 1, .leaf r => r.state.segmentStart = i * p.leafArity ∧ r.state.proof = some b
  | l + 2, .internal r => r.state.layerIdx = l ∧ r.state.proof = some b ∧
      r.state.segmentStart = segmentStartOfInternalProofForLeafCount p.leafArity p.internalArity l i
  | _, _ => False

private theorem nodeProofOf_of_carries {p : TreeParams} (ha : Arities p.leafArity p.internalArity)
    {r : ProofResult} {v i : Nat} {b : ProofBytes} (h : Carries p r v i b) (u j : Nat) :
    nodeProofOf p [r] u j = if u = v ∧ j = i then some b else none := by
  match v, r, h with
  | 0, .app r, ⟨hi, hb⟩ =>
    match u with
    | 0 => by_cases hj : j = i <;> simp [nodeProofOf, appProofOf, hi, hb, hj, eq_comm]
    | 1 => simp [nodeProofOf, childProofOf, leafProofOf]
    | l + 2 => simp [nodeProofOf, childProofOf, internalProofOf]
  | 1, .leaf r, ⟨hi, hb⟩ =>
    match u with
    | 0 => simp [nodeProofOf, appProofOf]
    | 1 =>
      have he : i * p.leafArity = j * p.leafArity ↔ j = i := by
        rw [Nat.mul_left_inj ha.leaf_pos.ne', eq_comm]
      simp [nodeProofOf, childProofOf, leafProofOf, hi, hb, he]
    | l + 2 => simp [nodeProofOf, childProofOf, internalProofOf]
  | l + 2, .internal r, ⟨hl, hb, hi⟩ =>
    match u with
    | 0 => simp [nodeProofOf, appProofOf]
    | 1 => simp [nodeProofOf, childProofOf, leafProofOf]
    | k + 2 =>
      have he : (l = k ∧ segmentStartOfInternalProofForLeafCount p.leafArity p.internalArity l i =
          segmentStartOfInternalProofForLeafCount p.leafArity p.internalArity k j) ↔ k = l ∧ j = i := by
        constructor
        · rintro ⟨rfl, h⟩
          rw [segmentStartOfInternalProof_eq, segmentStartOfInternalProof_eq] at h
          exact ⟨rfl, (Nat.eq_of_mul_eq_mul_right (FoldTree.size_pos (treeFan_pos ha) _) h).symm⟩
        · rintro ⟨rfl, rfl⟩
          exact ⟨rfl, rfl⟩
      simp [nodeProofOf, childProofOf, internalProofOf, hl, hb, hi, he]

/-- Only an App result names a segment, and it carries a node of level 0. -/
theorem appSegment_of_carries {p : TreeParams} {r : ProofResult} {v i j : Nat} {b : ProofBytes}
    (h : Carries p r v i b) : r.appSegment = some j ↔ v = 0 ∧ j = i := by
  match v, r, h with
  | 0, .app r, ⟨hi, _⟩ => simp [ProofResult.appSegment, hi, eq_comm]
  | 1, .leaf r, _ => simp [ProofResult.appSegment]
  | l + 2, .internal r, _ => simp [ProofResult.appSegment]

theorem isExecuteE2_of_carries {p : TreeParams} {r : ProofResult} {v i : Nat} {b : ProofBytes}
    (h : Carries p r v i b) : r.isExecuteE2 = false := by
  match v, r, h with
  | 0, .app r, _ => rfl
  | 1, .leaf r, _ => rfl
  | l + 2, .internal r, _ => rfl

private theorem proof_of_carries_internal {p : TreeParams} {r : InternalProof} {v i : Nat} {b : ProofBytes}
    (h : Carries p (.internal r) v i b) : r.state.proof = some b := by
  match v, h with
  | l + 2, ⟨_, hb, _⟩ => exact hb

/-- What storing a tree result leaves alone and what it takes from the result. -/
structure Stores (ps ps' : ProofState) (r : ProofResult) : Prop where
  evmProof : ps'.evmProof = ps.evmProof
  finalMerklePath : ps'.deferralFinalMerklePathBytes =
    ps.deferralFinalMerklePathBytes.or (shippedBytes (·.finalMerklePathBytes) [r])
  depth0 : ps'.deferralDepth0MerkleProofsBytes =
    ps.deferralDepth0MerkleProofsBytes.or (shippedBytes (·.deferralMerkleProofsBytes) [r])
  internalProofs : ∀ l i st, ps'.internalProofs ⟨l, i⟩ = some st →
    ps.internalProofs ⟨l, i⟩ = some st ∨ st.layerIdx = l ∧ ∃ q, r = .internal q ∧ q.state = st

/-- Removing the request of one node leaves the requests of the others. -/
theorem mem_filterMap_remove {α β γ : Type} {f : α → Option β} {g : β → γ} {before after : List α}
    {x : α} {y z : β} (hx : f x = some y) (hnd : (((before ++ x :: after).filterMap f).map g).Nodup) :
    z ∈ (before ++ after).filterMap f ↔ z ∈ (before ++ x :: after).filterMap f ∧ g z ≠ g y := by
  simp only [List.filterMap_append, List.filterMap_cons, hx, List.map_append, List.map_cons] at hnd
  have hmid : ((before.filterMap f).map g ++ g y :: (after.filterMap f).map g).Perm
      (g y :: ((before.filterMap f).map g ++ (after.filterMap f).map g)) := List.perm_middle
  have hperm := hmid.nodup_iff.mp hnd
  rw [List.nodup_cons, ← List.map_append] at hperm
  simp only [List.filterMap_append, List.filterMap_cons, hx, List.mem_append, List.mem_cons]
  constructor
  · intro h
    refine ⟨h.imp_right .inr, fun he => hperm.1 ?_⟩
    rw [← he]
    exact List.mem_map_of_mem (List.mem_append.mpr h)
  · rintro ⟨h | rfl | h, hne⟩
    · exact .inl h
    · exact absurd rfl hne
    · exact .inr h

namespace Tracks
variable {p : TreeParams} {n : Nat} {s : TreeState} {m : State ProofBytes} (ht : Tracks p n s m)
  (ha : Arities p.leafArity p.internalArity) (hn : 0 < n)
include ht

theorem outstanding_nodup : ((s.outstanding.filterMap (orderOf p)).map Order.node).Nodup := by
  have hsub := (ht.outstanding_sub.filterMap (orderOf p)).map Order.node
  rw [ht.orders] at hsub
  exact hsub.nodup ht.mirrors.inv.nodup

include ha hn in
/-- Delivering the proof of an awaited node keeps the run in step with the machine. -/
theorem arrive {v i : Nat} {b : ProofBytes} {ps' : ProofState} {extra rest : List GeneralProveRequest}
    {r : ProofResult} (hm' : Mirrors p n ps' (m.arrive (p.plan n) v i b)) (hst : Stores s.ps ps' r)
    (hcarries : Carries p r v i b) (hi : i < (p.plan n).width v) (hnew : m.got v i = none)
    (hextra : ∀ q ∈ extra, q.isEvm = true) (hfirst : extra ≠ [] → evmOrders p n s.ps m = [])
    (hevms : evmOrders p n s.ps m ++ extra = evmOrders p n ps' (m.arrive (p.plan n) v i b))
    (hrest : rest.Sublist s.outstanding)
    (hrest_iff : ∀ o, o ∈ rest.filterMap (orderOf p) ↔
      o ∈ s.outstanding.filterMap (orderOf p) ∧ o.node ≠ (v, i))
    (hrest_evm : rest.filter (·.isEvm) = s.outstanding.filter (·.isEvm)) :
    let reqs := (m.arriveOrders (p.plan n) v i b).map (ps'.requestOf n) ++ extra
    Tracks p n ⟨ps', s.emitted ++ reqs, rest ++ reqs, s.delivered ++ [r]⟩ (m.arrive (p.plan n) v i b) := by
  intro reqs
  have hpos : ∀ o ∈ m.arriveOrders (p.plan n) v i b, 0 < o.level := fun o ho =>
    hm'.inv.level_pos o (List.mem_append_right _ ho)
  have hfresh : ∀ o ∈ m.arriveOrders (p.plan n) v i b,
      (m.arrive (p.plan n) v i b).got o.level o.index = none := fun o ho =>
    got_none_of_arriveOrders (plan_wellFormed ha hn) ht.mirrors.inv hi hnew ho
  have hextra_none : extra.filterMap (orderOf p) = [] :=
    List.filterMap_eq_nil_iff.mpr fun q hq => orderOf_of_isEvm (hextra q hq)
  have hreqs : reqs.filterMap (orderOf p) = m.arriveOrders (p.plan n) v i b := by
    rw [List.filterMap_append, filterMap_requestOf hm' ha hpos, hextra_none, List.append_nil]
  have hreqs_evm : reqs.filter (·.isEvm) = extra := by
    rw [List.filter_append, filter_isEvm_requestOf, List.nil_append, List.filter_eq_self]
    exact hextra
  have hrange : ∀ q ∈ reqs, InRange p n q := by
    intro q hq
    rcases List.mem_append.mp hq with hq | hq
    · obtain ⟨o, ho, rfl⟩ := List.mem_map.mp hq
      exact inRange_requestOf hm' (hpos o ho)
    · exact inRange_of_isEvm (hextra q hq)
  clear_value reqs
  constructor
  · exact hm'
  · show (s.emitted ++ reqs).filterMap (orderOf p) = m.emitted ++ m.arriveOrders (p.plan n) v i b
    rw [List.filterMap_append, ht.orders, hreqs]
  · intro q hq
    exact (List.mem_append.mp hq).elim (ht.ranged q) (hrange q)
  · intro u j
    rw [nodeProofOf_append, ht.proofs, nodeProofOf_of_carries ha hcarries]
    by_cases h : u = v ∧ j = i
    · obtain ⟨rfl, rfl⟩ := h
      rw [hnew, if_pos ⟨rfl, rfl⟩]
      exact (put_self m.got u j b).symm
    · rw [if_neg h, Option.or_none]
      exact (put_other (by simpa using h)).symm
  · exact (hrest.trans ht.outstanding_sub).append (List.Sublist.refl reqs)
  · intro o
    show o ∈ (rest ++ reqs).filterMap (orderOf p) ↔
      o ∈ m.emitted ++ m.arriveOrders (p.plan n) v i b ∧ put m.got v i b o.level o.index = none
    rw [List.filterMap_append, List.mem_append, hreqs, hrest_iff, ht.outstanding_iff, List.mem_append]
    constructor
    · rintro (⟨⟨ho, hg⟩, hne⟩ | ho)
      · exact ⟨.inl ho, (put_other hne).trans hg⟩
      · exact ⟨.inr ho, hfresh o ho⟩
    · rintro ⟨ho | ho, hg⟩
      · have hne : o.node ≠ (v, i) := by
          intro he
          simp only [Order.node, Prod.mk.injEq] at he
          rw [he.1, he.2, put_self] at hg
          exact Option.some_ne_none b hg
        exact .inl ⟨⟨ho, (put_other hne).symm.trans hg⟩, hne⟩
      · exact .inr ho
  · have hr := isExecuteE2_of_carries hcarries
    simp only [List.mem_append, List.mem_singleton, or_and_right, exists_or, exists_eq_left, hr,
      Bool.false_eq_true, or_false]
    exact ht.executeE2
  · intro j
    show _ ↔ put m.got v i b 0 j ≠ none
    have hseg : r.appSegment = some j ↔ (0, j) = (v, i) := by
      rw [appSegment_of_carries hcarries, Prod.mk.injEq, eq_comm (a := v)]
    rw [put_ne_none_iff, ← ht.apps j, or_comm, ← hseg]
    simp only [List.mem_append, List.mem_singleton, or_and_right, exists_or, exists_eq_left]
  · rw [shippedBytes_append, ← ht.finalMerklePath]
    exact hst.finalMerklePath
  · rw [shippedBytes_append, ← ht.depth0]
    exact hst.depth0
  · intro l k st hget
    rcases hst.internalProofs l k st hget with h | ⟨hl, q, rfl, rfl⟩
    · obtain ⟨hl, hp, q, hq, he⟩ := ht.stored l k st h
      exact ⟨hl, hp, q, List.mem_append_left _ hq, he⟩
    · refine ⟨hl, ?_, q, List.mem_append_right _ (List.mem_singleton_self _), rfl⟩
      rw [proof_of_carries_internal hcarries]
      rfl
  · show (s.emitted ++ reqs).filter (·.isEvm) = _
    rw [List.filter_append, ht.evms, hreqs_evm, hevms]
  · show (rest ++ reqs).filter (·.isEvm) = if ps'.evmProof.isSome then [] else (s.emitted ++ reqs).filter (·.isEvm)
    rw [List.filter_append, List.filter_append, hrest_evm, hreqs_evm, hst.evmProof, ht.evm_outstanding]
    cases he : s.ps.evmProof with
    | none => rfl
    | some e =>
      have hnil : extra = [] := by
        by_contra hne
        exact (ht.evm_proof e he).2 (ht.evms.trans (hfirst hne))
      rw [hnil]
      rfl
  · intro e he
    have he' : s.ps.evmProof = some e := hst.evmProof.symm.trans he
    refine ⟨(ht.evm_proof e he').1, ?_⟩
    show (s.emitted ++ reqs).filter (·.isEvm) ≠ []
    rw [List.filter_append]
    exact List.append_ne_nil_of_left_ne_nil (ht.evm_proof e he').2 _

omit ht in
theorem evmOrders_ne_nil {ps : ProofState} (h : evmOrders p n ps m ≠ []) :
    ∃ st, ps.internalProofs ⟨p.finalLayer n, 0⟩ = some st ∧ evmOrders p n ps m = [evmRequest p st] ∧
      p.context.proofType = .evm ∧ m.known = true := by
  rw [evmOrders] at h ⊢
  cases hst : ps.internalProofs ⟨p.finalLayer n, 0⟩ with
  | none => exact absurd (by rw [hst]) h
  | some st =>
    simp only [hst] at h ⊢
    split at h
    · rename_i hc
      refine ⟨st, rfl, if_pos hc, hc.1, ?_⟩
      cases hb : m.before with
      | none => simp [hb] at hc
      | some g => rw [known, hb]; rfl
    · exact absurd rfl h

omit ht in
theorem evmOrders_unknown {ps : ProofState} (hb : m.before = none) : evmOrders p n ps m = [] := by
  rw [evmOrders, hb]
  split <;> simp

/-- A final proof that was there before the segment count was learned leads to no EVM step. -/
theorem evmOrders_learn {ps : ProofState} (hps : ps.internalProofs = s.ps.internalProofs) :
    evmOrders p n ps (m.learn (p.plan n)) = [] := by
  rw [evmOrders, hps]
  cases h : s.ps.internalProofs ⟨p.finalLayer n, 0⟩ with
  | none => rfl
  | some st =>
    have hslot := ht.mirrors.slots (p.finalLayer n + 2) 0
    rw [nodeSlot, h] at hslot
    have hgot : (m.got (p.plan n).top 0).isSome := by
      have := congrArg Option.isSome hslot
      rw [Option.isSome_map, Option.isSome_map] at this
      exact this.symm
    have hnone : (m.got (p.plan n).top 0).isNone = false := by
      rw [← Option.not_isSome, hgot]
      rfl
    simp [State.learn, hnone]

include ha hn in
/-- Delivering the ExecuteE2 result makes the machine learn its item count. -/
theorem learn {r : ExecuteE2Result} (hb : m.before = none) (hr : r.state.numSegments = n) :
    let reqs := (tailOrders (p.plan n) m.got).map ((s.ps.storeE2 r.state).requestOf n)
    Tracks p n ⟨s.ps.storeE2 r.state, s.emitted ++ reqs, s.outstanding ++ reqs,
      s.delivered ++ [.executeE2 r]⟩ (m.learn (p.plan n)) := by
  intro reqs
  have hm' := ht.mirrors.storeE2 ha hn hb hr
  have hpos : ∀ o ∈ tailOrders (p.plan n) m.got, 0 < o.level := fun o ho =>
    hm'.inv.level_pos o (List.mem_append_right _ ho)
  have hfresh := fun o ho => got_none_of_tailOrders (o := o) (plan_wellFormed ha hn) ht.mirrors.inv hb ho
  have hreqs : reqs.filterMap (orderOf p) = tailOrders (p.plan n) m.got :=
    filterMap_requestOf hm' ha hpos
  have hreqs_evm : reqs.filter (·.isEvm) = [] := filter_isEvm_requestOf _
  have hrange : ∀ q ∈ reqs, InRange p n q := by
    intro q hq
    obtain ⟨o, ho, rfl⟩ := List.mem_map.mp hq
    exact inRange_requestOf hm' (hpos o ho)
  have hevms := ht.evms.trans (evmOrders_unknown hb)
  clear_value reqs
  constructor
  · exact hm'
  · show (s.emitted ++ reqs).filterMap (orderOf p) = m.emitted ++ tailOrders (p.plan n) m.got
    rw [List.filterMap_append, ht.orders, hreqs]
  · intro q hq
    exact (List.mem_append.mp hq).elim (ht.ranged q) (hrange q)
  · intro u j
    rw [nodeProofOf_skip p s.delivered (.inl ⟨r, rfl⟩), ht.proofs]
    rfl
  · exact ht.outstanding_sub.append (List.Sublist.refl reqs)
  · intro o
    show o ∈ (s.outstanding ++ reqs).filterMap (orderOf p) ↔
      o ∈ m.emitted ++ tailOrders (p.plan n) m.got ∧ m.got o.level o.index = none
    rw [List.filterMap_append, List.mem_append, hreqs, ht.outstanding_iff, List.mem_append, or_and_right]
    exact or_congr_right ⟨fun ho => ⟨ho, hfresh o ho⟩, fun h => h.1⟩
  · refine iff_of_true ⟨_, List.mem_append_right _ (List.mem_singleton_self _), rfl⟩ rfl
  · intro j
    exact (appSegment_skip s.delivered rfl j).trans (ht.apps j)
  · rw [shippedBytes_append, ← ht.finalMerklePath]
    exact (Option.or_none).symm
  · rw [shippedBytes_append, ← ht.depth0]
    exact (Option.or_none).symm
  · intro l k st hget
    obtain ⟨hl, hp, q, hq, he⟩ := ht.stored l k st hget
    exact ⟨hl, hp, q, List.mem_append_left _ hq, he⟩
  · show (s.emitted ++ reqs).filter (·.isEvm) = evmOrders p n _ (m.learn (p.plan n))
    rw [List.filter_append, hevms, hreqs_evm]
    exact (ht.evmOrders_learn rfl).symm
  · show (s.outstanding ++ reqs).filter (·.isEvm) =
      if s.ps.evmProof.isSome then [] else (s.emitted ++ reqs).filter (·.isEvm)
    rw [List.filter_append, List.filter_append, hreqs_evm, List.append_nil, List.append_nil]
    exact ht.evm_outstanding
  · intro e he
    exact absurd hevms (ht.evm_proof e he).2

/-- Delivering the EVM answer only stores it. -/
theorem evmAnswer {r : EvmProof} {q : EvmProveRequest} {before after : List GeneralProveRequest}
    (hr : r.state.proof.isSome) (hout : s.outstanding = before ++ .evmProve q :: after) :
    s.ps.evmProof = none ∧ p.context.proofType = .evm ∧
    Tracks p n ⟨{ s.ps with evmProof := some r.state }, s.emitted, before ++ after,
      s.delivered ++ [.evm r]⟩ m := by
  have hevm := ht.evm_outstanding
  rw [hout, List.filter_append, List.filter_cons_of_pos (by rfl)] at hevm
  have hnone : s.ps.evmProof = none := by
    cases he : s.ps.evmProof with
    | none => rfl
    | some e =>
      rw [he] at hevm
      exact absurd hevm (by simp)
  have hne : s.emitted.filter (·.isEvm) ≠ [] := by
    rw [hnone] at hevm
    exact fun h => by simp [h] at hevm
  obtain ⟨st, _, hone, htype, _⟩ := evmOrders_ne_nil (ht.evms ▸ hne)
  have hx := ht.evms.trans hone
  have hnil : before.filter (·.isEvm) = [] ∧ after.filter (·.isEvm) = [] := by
    rw [hnone, hx] at hevm
    have := congrArg List.length hevm
    simp only [List.length_append, List.length_cons, Option.isSome_none, Bool.false_eq_true, if_false,
      List.length_nil] at this
    exact ⟨List.length_eq_zero_iff.mp (by omega), List.length_eq_zero_iff.mp (by omega)⟩
  refine ⟨hnone, htype, ?_⟩
  have hm := ht.mirrors
  constructor
  · exact ⟨hm.inv, hm.status, hm.context, hm.leafArity, hm.internalArity, hm.costLimit,
      hm.deferralCircuitCount, hm.numSegments, hm.executeE2, hm.slots, hm.app_proof⟩
  · exact ht.orders
  · exact ht.ranged
  · intro u j
    rw [nodeProofOf_skip p s.delivered (.inr ⟨r, rfl⟩), ht.proofs]
  · refine List.Sublist.trans ?_ ht.outstanding_sub
    rw [hout]
    exact (List.Sublist.refl before).append (List.sublist_cons_self _ after)
  · intro o
    rw [← ht.outstanding_iff, hout]
    simp only [List.filterMap_append, List.filterMap_cons, orderOf]
  · simp only [List.mem_append, List.mem_singleton, or_and_right, exists_or, exists_eq_left,
      ProofResult.isExecuteE2, Bool.false_eq_true, or_false]
    exact ht.executeE2
  · intro j
    exact (appSegment_skip s.delivered rfl j).trans (ht.apps j)
  · rw [shippedBytes_append, ← ht.finalMerklePath]
    exact (Option.or_none).symm
  · rw [shippedBytes_append, ← ht.depth0]
    exact (Option.or_none).symm
  · intro l k st hget
    obtain ⟨hl, hp, q, hq, he⟩ := ht.stored l k st hget
    exact ⟨hl, hp, q, List.mem_append_left _ hq, he⟩
  · exact ht.evms
  · show (before ++ after).filter (·.isEvm) = []
    rw [List.filter_append, hnil.1, hnil.2, List.append_nil]
  · intro e he
    obtain rfl := Option.some.inj he
    exact ⟨hr, hne⟩

end Tracks
end EdgeProver
