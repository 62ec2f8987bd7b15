import EdgeProver.Tree.Tracking

/-! Every delivery of an honest run to a proof that still accepts results is a step of the
fold machine, unless the ExecuteE2 cost ends the proof. -/
namespace EdgeProver
open FoldMachine FoldMachine.State Gather ProofState

def requestsOf : Except String (List GeneralProveRequest) → List GeneralProveRequest
  | .ok requests => requests
  | .error _ => []

/-- The proof state as `handle_proof_result` sees it. -/
def ProofState.touch (ps : ProofState) (now : Time) : ProofState := { ps with lastUpdated := now }

theorem deliver_eq {s : TreeState} (hlive : s.ps.isSealedForResults = false) {now : Time}
    {envelope : MessageEnvelope ProofResult} {r : ProofResult} (hmsg : envelope.message = r)
    (rest : List GeneralProveRequest) {ps' : ProofState} {res : Except String (List GeneralProveRequest)}
    (h : (s.ps.touch now).handleProofResult r = (ps', res)) :
    s.deliver rest now envelope =
      ⟨ps', s.emitted ++ requestsOf res, rest ++ requestsOf res, s.delivered ++ [r]⟩ := by
  have ht : ({ s.ps with lastUpdated := now } : ProofState) = s.ps.touch now := rfl
  subst hmsg
  simp only [TreeState.deliver, handleProofResultWithEnvelopeOutcome, hlive, Bool.false_eq_true, if_false, ht, h]
  cases res <;> rfl

private theorem isSealedForResults_touch (ps : ProofState) (now : Time) :
    (ps.touch now).isSealedForResults = ps.isSealedForResults := rfl

/-- The machine's move for an effective delivery of `r`. -/
inductive Move (P : Plan) (m : State ProofBytes) (r : ProofResult) (ps' : ProofState) :
    State ProofBytes → Prop where
  | arrive (v i : Nat) (b : ProofBytes) : r.isExecuteE2 = false → m.got v i = none →
      m.Awaited P v i → Move P m r ps' (m.arrive P v i b)
  | learn : r.isExecuteE2 = true → m.before = none → Move P m r ps' (m.learn P)
  | evm : r.isExecuteE2 = false → ps'.evmProof.isSome → Move P m r ps' m

/-- What an effective delivery of `r` leads to. -/
structure Follows (p : TreeParams) (n : Nat) (s s' : TreeState) (m m' : State ProofBytes)
    (r : ProofResult) : Prop where
  tracks : Tracks p n s' m'
  move : Move (p.plan n) m r s'.ps m'
  delivered : s'.delivered = s.delivered ++ [r]
  requests : ∃ new, m'.emitted = m.emitted ++ new ∧
    s'.emitted.filter (! ·.isEvm) = s.emitted.filter (! ·.isEvm) ++ new.map (s'.ps.requestOf n)

namespace Tracks
variable {p : TreeParams} {n : Nat} {s : TreeState} {m : State ProofBytes} (ht : Tracks p n s m)
include ht

theorem touch (now : Time) : Tracks p n { s with ps := s.ps.touch now } m := by
  have hm := ht.mirrors
  have hm' : Mirrors p n (s.ps.touch now) m := ⟨hm.inv, hm.status, hm.context, hm.leafArity,
    hm.internalArity, hm.costLimit, hm.deferralCircuitCount, hm.numSegments, hm.executeE2, hm.slots,
    hm.app_proof⟩
  exact { ht with mirrors := hm' }

omit ht in
private theorem evmOrders_congr {ps ps' : ProofState} {m' : State ProofBytes} (hb : m'.before = m.before)
    (h : ps'.internalProofs ⟨p.finalLayer n, 0⟩ = ps.internalProofs ⟨p.finalLayer n, 0⟩) :
    evmOrders p n ps' m' = evmOrders p n ps m := by
  rw [evmOrders, evmOrders, hb, h]

omit ht in
private theorem filter_not_isEvm_requestOf (ps : ProofState) (os : List (Order ProofBytes)) :
    (os.map (ps.requestOf n)).filter (! ·.isEvm) = os.map (ps.requestOf n) := by
  rw [List.filter_eq_self]
  intro q hq
  obtain ⟨o, _, rfl⟩ := List.mem_map.mp hq
  simp [isEvm_requestOf]

omit ht in
private theorem requests_of_arrive {emitted extra : List GeneralProveRequest} (ps : ProofState)
    (os : List (Order ProofBytes)) (hextra : ∀ q ∈ extra, q.isEvm = true) :
    (emitted ++ (os.map (ps.requestOf n) ++ extra)).filter (! ·.isEvm) =
      emitted.filter (! ·.isEvm) ++ os.map (ps.requestOf n) := by
  have hnil : extra.filter (! ·.isEvm) = [] := by
    rw [List.filter_eq_nil_iff]
    intro q hq
    simp [hextra q hq]
  rw [List.filter_append, List.filter_append, filter_not_isEvm_requestOf, hnil, List.append_nil]

/-- What stays unanswered when the request of node `(v, i)` is answered. -/
structure Remaining (p : TreeParams) (outstanding rest : List GeneralProveRequest) (v i : Nat) : Prop where
  sub : rest.Sublist outstanding
  mem_iff : ∀ o, o ∈ rest.filterMap (orderOf p) ↔ o ∈ outstanding.filterMap (orderOf p) ∧ o.node ≠ (v, i)
  evm : rest.filter (·.isEvm) = outstanding.filter (·.isEvm)

private theorem remaining_app (i : Nat) : Remaining p s.outstanding s.outstanding 0 i where
  sub := List.Sublist.refl _
  mem_iff o := by
    refine (and_iff_left_of_imp fun ho he => ?_).symm
    have hpos := ht.mirrors.inv.level_pos o ((ht.outstanding_iff o).mp ho).1
    exact hpos.ne' (congrArg Prod.fst he)
  evm := rfl

private theorem remaining_answer {before after : List GeneralProveRequest} {req : GeneralProveRequest}
    {o : Order ProofBytes} (hout : s.outstanding = before ++ req :: after) (ho : orderOf p req = some o) :
    Remaining p s.outstanding (before ++ after) o.level o.index where
  sub := by
    rw [hout]
    exact (List.Sublist.refl before).append (List.sublist_cons_self req after)
  mem_iff z := by
    have hnd := ht.outstanding_nodup
    rw [hout] at hnd ⊢
    exact mem_filterMap_remove ho hnd
  evm := by
    have hreq : req.isEvm = false := by
      cases req with
      | evmProve q => exact absurd ho (by simp [orderOf])
      | leafProve q => rfl
      | internalProve q => rfl
    rw [hout, List.filter_append, List.filter_append, List.filter_cons_of_neg (by simp [hreq])]

theorem awaited_of_outstanding {req : GeneralProveRequest} {o : Order ProofBytes}
    (hq : req ∈ s.outstanding) (ho : orderOf p req = some o) :
    m.Awaited (p.plan n) o.level o.index ∧ m.got o.level o.index = none := by
  have hmem := (ht.outstanding_iff o).mp (List.mem_filterMap.mpr ⟨req, hq, ho⟩)
  exact ⟨.inr ⟨o, hmem.1, rfl, rfl⟩, hmem.2⟩

variable (ha : Arities p.leafArity p.internalArity) (hn : 0 < n)
  (hlive : s.ps.isSealedForResults = false)
include ha hn hlive

private theorem follows_arrive {now : Time} {envelope : MessageEnvelope ProofResult} {r : ProofResult}
    {v i : Nat} {b : ProofBytes} {ps' : ProofState} {res : Except String (List GeneralProveRequest)}
    {extra rest : List GeneralProveRequest} (hmsg : envelope.message = r)
    (hres : (s.ps.touch now).handleProofResult r = (ps', res))
    (hreq : requestsOf res = (m.arriveOrders (p.plan n) v i b).map (ps'.requestOf n) ++ extra)
    (hm' : Mirrors p n ps' (m.arrive (p.plan n) v i b)) (hst : Stores s.ps ps' r)
    (hcarries : Carries p r v i b) (haw : m.Awaited (p.plan n) v i) (hnew : m.got v i = none)
    (hextra : ∀ q ∈ extra, q.isEvm = true) (hfirst : extra ≠ [] → evmOrders p n s.ps m = [])
    (hevms : evmOrders p n s.ps m ++ extra = evmOrders p n ps' (m.arrive (p.plan n) v i b))
    (hrest : Remaining p s.outstanding rest v i) :
    Follows p n s (s.deliver rest now envelope) m (m.arrive (p.plan n) v i b) r := by
  have hi := (awaited_valid ht.mirrors.inv haw).2
  have hstep := ht.arrive ha hn hm' hst hcarries hi hnew hextra hfirst hevms hrest.sub hrest.mem_iff hrest.evm
  rw [deliver_eq hlive hmsg rest hres, hreq]
  refine ⟨hstep, .arrive v i b (isExecuteE2_of_carries hcarries) hnew haw, rfl,
    m.arriveOrders (p.plan n) v i b, rfl, ?_⟩
  exact requests_of_arrive ps' _ hextra

/-- An App result for a segment that has none yet. -/
theorem follows_app {now : Time} {envelope : MessageEnvelope ProofResult} {r : AppProof}
    (hmsg : envelope.message = .app r) (hlt : r.state.segmentIdx < n) (hproof : r.state.proof.isSome)
    (hfresh : ∀ q ∈ s.delivered, q.appSegment ≠ some r.state.segmentIdx) :
    ∃ m', Follows p n s (s.deliver s.outstanding now envelope) m m' (.app r) := by
  obtain ⟨b, hb⟩ := Option.isSome_iff_exists.mp hproof
  have hnew : m.got 0 r.state.segmentIdx = none := by
    by_contra hg
    obtain ⟨q, hq, he⟩ := (ht.apps _).mpr hg
    exact hfresh q hq he
  have hm1 : Mirrors p n (s.ps.touch now) m := (ht.touch now).mirrors
  have hres := (handleProofResult_app ((isSealedForResults_touch s.ps now).trans hlive) r).trans
    (hm1.handleAppResult_eq ha hn hlt hb hnew)
  have hst : Stores s.ps ((s.ps.touch now).storeApp r.state) (.app r) := by
    refine ⟨rfl, ?_, ?_, fun l i st h => .inl h⟩
    · show keepFirst _ _ = _
      rw [keepFirst_eq]
      cases h : r.state.finalMerklePathBytes <;> simp [shippedBytes, h, ProofState.touch]
    · show keepFirst _ _ = _
      rw [keepFirst_eq]
      cases h : r.state.deferralMerkleProofsBytes <;> simp [shippedBytes, h, ProofState.touch]
  refine ⟨_, ht.follows_arrive ha hn hlive hmsg hres (List.append_nil _).symm (hm1.storeApp hn ha hlt hb hnew)
    hst ⟨rfl, hb⟩ (.inl ⟨rfl, hlt⟩) hnew (by simp) (by simp) ?_ (ht.remaining_app _)⟩
  rw [List.append_nil]
  exact (evmOrders_congr rfl rfl).symm

private theorem follows_leaf {now : Time} {envelope : MessageEnvelope ProofResult} {r : LeafProof}
    {q : LeafProveRequest} {before after : List GeneralProveRequest} (hmsg : envelope.message = .leaf r)
    (hout : s.outstanding = before ++ .leafProve q :: after) (hans : Answers (.leafProve q) (.leaf r)) :
    ∃ m', Follows p n s (s.deliver (before ++ after) now envelope) m m' (.leaf r) := by
  obtain ⟨hstart, hend, hproof⟩ := hans
  obtain ⟨b, hb⟩ := Option.isSome_iff_exists.mp hproof
  have hq : .leafProve q ∈ s.outstanding := by rw [hout]; simp
  obtain ⟨j, hfirst, hlast⟩ := ht.ranged _ (ht.outstanding_sub.subset hq)
  have hdiv : q.segmentStart / p.leafArity = j := by
    rw [hfirst, FoldTree.first, TreeParams.plan, size_leaf]
    exact Nat.mul_div_cancel j ha.leaf_pos
  have ho : orderOf p (.leafProve q) = some ⟨1, j, q.appProofs⟩ := by rw [orderOf, hdiv]
  obtain ⟨haw, hnew⟩ := ht.awaited_of_outstanding hq ho
  have hm1 : Mirrors p n (s.ps.touch now) m := (ht.touch now).mirrors
  have hs := hstart.trans hfirst
  have he := hend.trans hlast
  have hres := (handleProofResult_leaf ((isSealedForResults_touch s.ps now).trans hlive) r).trans
    (hm1.handleLeafResult_eq ha hn hs he hb hnew haw)
  have hst : Stores s.ps ((s.ps.touch now).storeLeaf r.state) (.leaf r) :=
    ⟨rfl, Option.or_none.symm, Option.or_none.symm, fun l i st h => .inl h⟩
  have hcarries : Carries p (.leaf r) 1 j b := by
    refine ⟨?_, hb⟩
    rw [hs, FoldTree.first, TreeParams.plan, size_leaf]
  refine ⟨_, ht.follows_arrive ha hn hlive hmsg hres (List.append_nil _).symm
    (hm1.storeLeaf ha hn hs he hb hnew haw) hst hcarries haw hnew (by simp) (by simp) ?_
    (ht.remaining_answer hout ho)⟩
  rw [List.append_nil]
  exact (evmOrders_congr rfl rfl).symm

omit ht ha hn hlive in
private theorem requestsOf_finalInternalFollowUp {ps : ProofState} (hm : Mirrors p n ps m)
    (st : InternalProofState) : requestsOf (ps.finalInternalFollowUp st) =
      if p.context.proofType = .evm ∧ st.readyForEvm = true then [evmRequest p st] else [] := by
  have hreq : ps.buildEvmProveRequest st = evmRequest p st := by
    rw [buildEvmProveRequest, hm.context, hm.deferralCircuitCount]
    rfl
  rw [finalInternalFollowUp, hm.context, hreq]
  by_cases ht : p.context.proofType = .evm
  · cases st.readyForEvm <;> simp [ht, requestsOf]
  · simp [ht, requestsOf]

omit ht ha hn hlive in
private theorem evmOrders_of_none {ps : ProofState} (h : ps.internalProofs ⟨p.finalLayer n, 0⟩ = none) :
    evmOrders p n ps m = [] := by
  rw [evmOrders, h]

omit ht ha hn hlive in
private theorem root_open_before (inv : Inv (p.plan n) m) (hk : m.known = true) (hnew : m.got (p.plan n).top 0 = none) :
    m.before.any (fun g => (g (p.plan n).top 0).isNone) = true := by
  obtain ⟨g, hg⟩ := Option.isSome_iff_exists.mp hk
  rw [hg, Option.any_some, Option.isNone_iff_eq_none]
  by_contra hne
  have := inv.before_sub g hg _ _ hne
  rw [← this] at hne
  exact hne hnew

private theorem follows_internal {now : Time} {envelope : MessageEnvelope ProofResult} {r : InternalProof}
    {q : InternalProveRequest} {before after : List GeneralProveRequest}
    (hmsg : envelope.message = .internal r) (hout : s.outstanding = before ++ .internalProve q :: after)
    (hans : Answers (.internalProve q) (.internal r)) :
    ∃ m', Follows p n s (s.deliver (before ++ after) now envelope) m m' (.internal r) := by
  obtain ⟨hlayer, hstart, hend, hproof⟩ := hans
  obtain ⟨b, hb⟩ := Option.isSome_iff_exists.mp hproof
  have hq : .internalProve q ∈ s.outstanding := by rw [hout]; simp
  obtain ⟨j, hfirst, hlast⟩ := ht.ranged _ (ht.outstanding_sub.subset hq)
  have hidx : segmentStartToInternalIdxWithBatch q.segmentStart q.layerIdx p.leafArity p.internalArity = j := by
    rw [hfirst]
    exact segmentStartToInternalIdx_first ha _ j
  have ho : orderOf p (.internalProve q) = some ⟨r.state.layerIdx + 2, j, q.childProofs⟩ := by
    rw [orderOf, hidx, hlayer]
  obtain ⟨haw, hnew⟩ := ht.awaited_of_outstanding hq ho
  have hm1 : Mirrors p n (s.ps.touch now) m := (ht.touch now).mirrors
  have hs := hstart.trans hfirst
  have he := hend.trans hlast
  rw [← hlayer] at hs he
  have hres := (handleProofResult_internal ((isSealedForResults_touch s.ps now).trans hlive) r).trans
    (hm1.handleInternalResult_eq ha hn hs he hb hnew haw)
  have hm' := hm1.storeInternal ha hn rfl hs he hb hnew haw
  have hst : Stores s.ps ((s.ps.touch now).storeInternal j r.state) (.internal r) := by
    refine ⟨rfl, Option.or_none.symm, Option.or_none.symm, fun l i st h => ?_⟩
    simp only [ProofState.storeInternal, Function.update_apply, InternalProofIndex.mk.injEq] at h
    split at h
    · rename_i hk
      obtain rfl := Option.some.inj h
      exact .inr ⟨hk.1.symm, r, rfl, rfl⟩
    · exact .inl h
  have hcarries : Carries p (.internal r) (r.state.layerIdx + 2) j b := by
    refine ⟨rfl, hb, ?_⟩
    rw [segmentStartOfInternalProof_eq]
    exact hs
  have hrest := ht.remaining_answer hout ho
  obtain ⟨htop, hj⟩ := awaited_valid ht.mirrors.inv haw
  by_cases hfin : r.state.layerIdx = p.finalLayer n
  · -- the final internal proof: no parent, but possibly the EVM step
    obtain rfl : j = 0 := by
      have hw : (p.plan n).width (r.state.layerIdx + 2) = 1 := by rw [hfin]; exact width_top ha hn
      simp only at hj
      omega
    have hnone : s.ps.internalProofs ⟨p.finalLayer n, 0⟩ = none := by
      have := hm1.slot_none hnew
      rw [hfin] at this
      exact Option.map_eq_none_iff.mp this
    have hget : ((s.ps.touch now).storeInternal 0 r.state).internalProofs ⟨p.finalLayer n, 0⟩ =
        some r.state := by
      rw [ProofState.storeInternal, hfin]
      exact Function.update_self _ _ _
    have hold : evmOrders p n s.ps m = [] := evmOrders_of_none hnone
    have harr : ∀ b, m.arriveOrders (p.plan n) (r.state.layerIdx + 2) 0 b = [] := fun b =>
      Mirrors.arriveOrders_of_top (by rw [hfin]; rfl)
    rcases Bool.eq_false_or_eq_true m.known with hk | hk
    · rw [if_pos ⟨hk, hfin⟩] at hres
      have hroot : m.got (p.plan n).top 0 = none := by
        rw [hfin] at hnew
        exact hnew
      have hbefore := root_open_before ht.mirrors.inv hk hroot
      have hreq : requestsOf (((s.ps.touch now).storeInternal 0 r.state).finalInternalFollowUp r.state) =
          (m.arriveOrders (p.plan n) (r.state.layerIdx + 2) 0 b).map
            (((s.ps.touch now).storeInternal 0 r.state).requestOf n) ++
          requestsOf (((s.ps.touch now).storeInternal 0 r.state).finalInternalFollowUp r.state) := by
        rw [harr]
        rfl
      refine ⟨_, ht.follows_arrive ha hn hlive hmsg hres hreq hm' hst hcarries haw
        hnew ?_ (fun _ => hold) ?_ hrest⟩
      · intro x hx
        rw [requestsOf_finalInternalFollowUp hm'] at hx
        split at hx
        · obtain rfl := List.mem_singleton.mp hx
          rfl
        · exact absurd hx List.not_mem_nil
      · have hb' : (m.arrive (p.plan n) (r.state.layerIdx + 2) 0 b).before = m.before := rfl
        rw [hold, List.nil_append, requestsOf_finalInternalFollowUp hm', evmOrders, hget, hb']
        simp only [hbefore, true_and]
    · rw [if_neg (fun h => by rw [hk] at h; exact Bool.false_ne_true h.1)] at hres
      have hb : m.before = none := Option.not_isSome_iff_eq_none.mp (by
        show ¬ m.known = true
        rw [hk]
        exact Bool.false_ne_true)
      refine ⟨_, ht.follows_arrive ha hn hlive hmsg hres (List.append_nil _).symm hm' hst hcarries haw hnew
        (by simp) (by simp) ?_ hrest⟩
      have hb' : (m.arrive (p.plan n) (r.state.layerIdx + 2) 0 b).before = none := hb
      rw [List.append_nil, hold, evmOrders_unknown hb']
  · rw [if_neg (fun h => hfin h.2)] at hres
    refine ⟨_, ht.follows_arrive ha hn hlive hmsg hres (List.append_nil _).symm hm' hst hcarries haw hnew
      (by simp) (by simp) ?_ hrest⟩
    rw [List.append_nil]
    refine (evmOrders_congr rfl ?_).symm
    exact Function.update_of_ne (by simp [Ne.symm hfin]) _ _

omit ha hn in
private theorem follows_evm {now : Time} {envelope : MessageEnvelope ProofResult} {r : EvmProof}
    {q : EvmProveRequest} {before after : List GeneralProveRequest} (hmsg : envelope.message = .evm r)
    (hout : s.outstanding = before ++ .evmProve q :: after) (hproof : r.state.proof.isSome) :
    Follows p n s (s.deliver (before ++ after) now envelope) m m (.evm r) := by
  obtain ⟨hnone, htype, hstep⟩ := (ht.touch now).evmAnswer hproof hout
  have hres : (s.ps.touch now).handleProofResult (.evm r) =
      ({ s.ps.touch now with evmProof := some r.state }, .ok []) := by
    rw [handleProofResult_evm ((isSealedForResults_touch s.ps now).trans hlive), handleHalo2Result]
    have hctx : (s.ps.touch now).context.proofType = .evm := by
      rw [(ht.touch now).mirrors.context, htype]
    obtain ⟨b, hb⟩ := Option.isSome_iff_exists.mp hproof
    simp only at hnone
    simp [hctx, hb, hnone]
  rw [deliver_eq hlive hmsg _ hres]
  refine ⟨by simpa [requestsOf] using hstep, .evm rfl rfl, rfl, [], (List.append_nil _).symm, ?_⟩
  simp [requestsOf]

private theorem follows_executeE2 {now : Time} {envelope : MessageEnvelope ProofResult} {r : ExecuteE2Result}
    (hmsg : envelope.message = .executeE2 r) (hr : r.state.numSegments = n)
    (hcost : r.state.cost ≤ p.costLimit) (hfresh : ∀ q ∈ s.delivered, q.isExecuteE2 = false) :
    ∃ m', Follows p n s (s.deliver s.outstanding now envelope) m m' (.executeE2 r) := by
  have hb : m.before = none := by
    rw [← Option.not_isSome_iff_eq_none]
    intro hk
    obtain ⟨q, hq, he⟩ := ht.executeE2.mpr hk
    exact Bool.false_ne_true ((hfresh q hq).symm.trans he)
  have hm1 : Mirrors p n (s.ps.touch now) m := (ht.touch now).mirrors
  have hres := (handleProofResult_executeE2 ((isSealedForResults_touch s.ps now).trans hlive)
    (hm1.costLimit ▸ hcost)).trans (hm1.handleExecuteE2Result_eq ha hn hb hr)
  refine ⟨m.learn (p.plan n), ?_⟩
  rw [deliver_eq hlive hmsg _ hres]
  refine ⟨(ht.touch now).learn ha hn hb hr, .learn rfl hb, rfl, tailOrders (p.plan n) m.got, rfl, ?_⟩
  exact (List.filter_append _ _).trans (congrArg _ (filter_not_isEvm_requestOf _ _))

omit ha hn in
/-- The ExecuteE2 result, when its cost is over the limit: the proof fails. -/
theorem failing_executeE2 {now : Time} {envelope : MessageEnvelope ProofResult} {r : ExecuteE2Result}
    (hmsg : envelope.message = .executeE2 r) (hcost : p.costLimit < r.state.cost) :
    (s.deliver s.outstanding now envelope).emitted = s.emitted ∧
      (s.deliver s.outstanding now envelope).delivered = s.delivered ++ [.executeE2 r] ∧
      (s.deliver s.outstanding now envelope).ps.status ≠ .inProgress := by
  have hm1 : Mirrors p n (s.ps.touch now) m := (ht.touch now).mirrors
  have hres := handleProofResult_cost ((isSealedForResults_touch s.ps now).trans hlive)
    (hm1.costLimit.symm ▸ hcost)
  rw [deliver_eq hlive hmsg _ hres]
  simp [requestsOf]

/-- A delivery of an honest run to a live proof. -/
theorem step {s' : TreeState} (h : HonestStep n s s') :
    (∃ m' r, Follows p n s s' m m' r) ∨
      s'.emitted = s.emitted ∧ s'.ps.status ≠ .inProgress ∧
        ∃ r, s'.delivered = s.delivered ++ [.executeE2 r] ∧ p.costLimit < r.state.cost := by
  cases h with
  | executeE2 now envelope r hmsg hr hfresh =>
    by_cases hcost : r.state.cost ≤ p.costLimit
    · obtain ⟨m', h⟩ := ht.follows_executeE2 ha hn hlive hmsg hr hcost hfresh
      exact .inl ⟨m', _, h⟩
    · obtain ⟨h1, h2, h3⟩ := ht.failing_executeE2 hlive hmsg (Nat.not_le.mp hcost)
      exact .inr ⟨h1, h3, r, h2, Nat.not_le.mp hcost⟩
  | app now envelope r hmsg hlt hproof hfresh =>
    obtain ⟨m', h⟩ := ht.follows_app ha hn hlive hmsg hlt hproof hfresh
    exact .inl ⟨m', _, h⟩
  | answer now envelope before after req hout hans =>
    cases req with
    | leafProve q =>
      cases hmsg : envelope.message with
      | leaf r =>
        rw [hmsg] at hans
        obtain ⟨m', h⟩ := ht.follows_leaf ha hn hlive hmsg hout hans
        exact .inl ⟨m', _, h⟩
      | _ => simp [hmsg, Answers] at hans
    | internalProve q =>
      cases hmsg : envelope.message with
      | internal r =>
        rw [hmsg] at hans
        obtain ⟨m', h⟩ := ht.follows_internal ha hn hlive hmsg hout hans
        exact .inl ⟨m', _, h⟩
      | _ => simp [hmsg, Answers] at hans
    | evmProve q =>
      cases hmsg : envelope.message with
      | evm r =>
        rw [hmsg] at hans
        exact .inl ⟨m, _, ht.follows_evm hlive hmsg hout hans⟩
      | _ => simp [hmsg, Answers] at hans

end Tracks
end EdgeProver
