import EdgeProver.ProofState.Rejected
import EdgeProver.Tree.Children

/-! Runs none of whose results the manager rejects: the proof stays in progress, and nothing
is left to deliver once its final artifact is recorded. -/
namespace EdgeProver
open FoldMachine FoldMachine.State Gather ProofState

/-- The manager rejects none of the delivered results: the cost is within the limit and the
final internal proofs of an Evm proof are ready for the EVM step. -/
structure Accepted (p : TreeParams) (n : Nat) (rs : List ProofResult) : Prop where
  cost : ∀ r, .executeE2 r ∈ rs → r.state.cost ≤ p.costLimit
  ready : p.context.proofType = .evm → ∀ r, .internal r ∈ rs → r.state.layerIdx = p.finalLayer n →
    r.state.readyForEvm = true

/-- Everything there is to deliver was delivered, up to the EVM step. -/
structure Complete (n : Nat) (s : TreeState) : Prop where
  executeE2 : ∃ q ∈ s.delivered, q.isExecuteE2 = true
  apps : ∀ i < n, ∃ q ∈ s.delivered, q.appSegment = some i
  answered : ∀ q ∈ s.outstanding, q.isEvm = true

section
variable {p : TreeParams} {n : Nat} {s s' : TreeState} {m : State ProofBytes}

theorem Accepted.of_append {rs rs' : List ProofResult} (h : Accepted p n (rs ++ rs')) : Accepted p n rs :=
  ⟨fun r hr => h.cost r (List.mem_append_left _ hr),
    fun ht r hr => h.ready ht r (List.mem_append_left _ hr)⟩

theorem Accepted.append {rs rs' : List ProofResult} (h : Accepted p n rs) (h' : Accepted p n rs') :
    Accepted p n (rs ++ rs') := by
  refine ⟨fun r hr => ?_, fun ht r hr => ?_⟩
  · exact (List.mem_append.mp hr).elim (h.cost r) (h'.cost r)
  · exact (List.mem_append.mp hr).elim (h.ready ht r) (h'.ready ht r)

/-- What `Accepted` asks of one result. -/
def ProofResult.withinLimits (p : TreeParams) : ProofResult → Bool
  | .executeE2 r => r.state.cost ≤ p.costLimit
  | .internal r => r.state.readyForEvm
  | _ => true

theorem accepted_of_withinLimits {rs : List ProofResult} (h : ∀ r ∈ rs, r.withinLimits p = true) :
    Accepted p n rs :=
  ⟨fun _ hr => of_decide_eq_true (h _ hr), fun _ _ hr _ => h _ hr⟩

private theorem orderOf_isSome {q : GeneralProveRequest} (h : q.isEvm = false) : ∃ o, orderOf p q = some o := by
  cases q with
  | leafProve q => exact ⟨_, rfl⟩
  | internalProve q => exact ⟨_, rfl⟩
  | evmProve q => exact absurd h (by simp [GeneralProveRequest.isEvm])

namespace Tracks
variable (ht : Tracks p n s m)
include ht

/-- A stored final internal proof is the root's product. -/
theorem got_top_of_final {st : InternalProofState} (h : s.ps.internalProofs ⟨p.finalLayer n, 0⟩ = some st) :
    m.got (p.plan n).top 0 = some (unwrapProof st.proof) := by
  have hslot := ht.mirrors.proof_of_slot (p.finalLayer n + 2) 0
  rw [nodeSlot, h] at hslot
  exact hslot.symm

/-- The EVM step is requested once. -/
theorem evm_once : s.emitted.countP (·.isEvm) ≤ 1 := by
  rw [List.countP_eq_length_filter, ht.evms]
  by_cases horders : evmOrders p n s.ps m = []
  · simp [horders]
  · obtain ⟨st, -, hone, -⟩ := evmOrders_ne_nil horders
    simp [hone]

/-- No request is emitted twice. -/
theorem emitted_nodup : s.emitted.Nodup := by
  refine List.nodup_iff_sublist.mpr fun q htwice => ?_
  cases hevm : q.isEvm with
  | true =>
    have hcount := htwice.countP_le (p := (·.isEvm))
    have honce := ht.evm_once
    simp only [List.countP_cons, List.countP_nil, hevm, if_true] at hcount
    omega
  | false =>
    obtain ⟨o, ho⟩ := orderOf_isSome (p := p) hevm
    have horders := htwice.filterMap (orderOf p)
    rw [ht.orders] at horders
    have hnodup := (horders.map Order.node).nodup ht.mirrors.inv.nodup
    simp [ho] at hnodup

theorem known_of_ready (h : s.ps.isReadyForFinalization = true) :
    m.known = true ∧ m.got (p.plan n).top 0 ≠ none ∧ s.outstanding.filter (·.isEvm) = [] := by
  rw [isReadyForFinalization, ht.mirrors.context] at h
  cases htype : p.context.proofType with
  | stark =>
    rw [htype] at h
    have hevms : s.emitted.filter (·.isEvm) = [] := by
      by_contra hne
      rw [ht.evms] at hne
      obtain ⟨_, _, _, ht', _⟩ := evmOrders_ne_nil hne
      rw [htype] at ht'
      cases ht'
    simp only [finalInternalProofPresent] at h
    rcases Bool.eq_false_or_eq_true m.known with hk | hk
    · rw [ht.mirrors.numSegments_of_known hk] at h
      simp only [ht.mirrors.effectiveFinalLayer_eq] at h
      obtain ⟨st, hst⟩ := Option.isSome_iff_exists.mp h
      refine ⟨hk, ?_, ?_⟩
      · rw [ht.got_top_of_final hst]
        exact Option.some_ne_none _
      · rw [ht.evm_outstanding, hevms, ite_self]
    · rw [ht.mirrors.numSegments_of_unknown hk] at h
      exact absurd h Bool.false_ne_true
  | evm =>
    rw [htype] at h
    obtain ⟨b, hb⟩ := Option.isSome_iff_exists.mp h
    obtain ⟨e, he, _⟩ := Option.bind_eq_some_iff.mp hb
    have hne := (ht.evm_proof e he).2
    rw [ht.evms] at hne
    obtain ⟨st, hst, _, _, hk⟩ := evmOrders_ne_nil hne
    refine ⟨hk, ?_, ?_⟩
    · rw [ht.got_top_of_final hst]
      exact Option.some_ne_none _
    · rw [ht.evm_outstanding, he]
      rfl

variable (ha : Arities p.leafArity p.internalArity) (hn : 0 < n)
include ha hn

/-- Once the root is there nothing but the EVM step is outstanding. -/
theorem outstanding_of_top (h : m.got (p.plan n).top 0 ≠ none) :
    (∀ i < n, ∃ q ∈ s.delivered, q.appSegment = some i) ∧ ∀ q ∈ s.outstanding, q.isEvm = true := by
  have hall : ∀ {v i}, v ≤ (p.plan n).top → i < (p.plan n).width v → m.got v i ≠ none :=
    all_got_of_got (plan_wellFormed ha hn) (closed_got ht.mirrors.inv) (width_top ha hn) h
  refine ⟨fun i hi => (ht.apps i).mpr (hall (Nat.zero_le _) hi), fun q hq => ?_⟩
  by_contra hne
  obtain ⟨o, ho⟩ := orderOf_isSome (p := p) (Bool.eq_false_iff.mpr hne)
  obtain ⟨haw, hnew⟩ := ht.awaited_of_outstanding hq ho
  obtain ⟨hv, hi⟩ := awaited_valid ht.mirrors.inv haw
  exact hall hv hi hnew

/-- Nothing is left to deliver once the final artifact is recorded. -/
theorem no_step_of_ready (h : s.ps.isReadyForFinalization = true) : ¬ HonestStep n s s' := by
  obtain ⟨hk, htop, hevm⟩ := ht.known_of_ready h
  obtain ⟨happs, hout⟩ := ht.outstanding_of_top ha hn htop
  intro hs
  cases hs with
  | executeE2 now envelope r hmsg hr hfresh =>
    obtain ⟨q, hq, he⟩ := ht.executeE2.mpr hk
    exact Bool.false_ne_true ((hfresh q hq).symm.trans he)
  | app now envelope r hmsg hlt hproof hfresh =>
    obtain ⟨q, hq, he⟩ := happs _ hlt
    exact hfresh q hq he
  | answer now envelope before after req hreq hans =>
    have hmem : req ∈ s.outstanding := by rw [hreq]; simp
    have : req ∈ s.outstanding.filter (·.isEvm) := List.mem_filter.mpr ⟨hmem, hout req hmem⟩
    rw [hevm] at this
    exact absurd this List.not_mem_nil

omit ha hn in
theorem ready_of_sealed (h : s.ps.isSealedForResults = true) : s.ps.isReadyForFinalization = true := by
  by_contra hne
  rw [not_sealed_iff.mpr ⟨ht.mirrors.status, Bool.eq_false_iff.mpr hne⟩] at h
  exact Bool.false_ne_true h

/-- Every delivery of an accepted run is a step of the machine. -/
theorem follows_of_accepted (hacc : Accepted p n s'.delivered) (hs : HonestStep n s s') :
    ∃ m' r, Follows p n s s' m m' r := by
  cases hseal : s.ps.isSealedForResults with
  | true => exact absurd hs (ht.no_step_of_ready ha hn (ht.ready_of_sealed hseal))
  | false =>
    rcases ht.step ha hn hseal hs with h | ⟨_, _, r, hd, hcost⟩
    · exact h
    · have := hacc.cost r (by rw [hd]; simp)
      omega

end Tracks

theorem HonestStep.delivered (h : HonestStep n s s') : ∃ r, s'.delivered = s.delivered ++ [r] := by
  obtain ⟨rest, now, envelope, rfl⟩ := h.deliver
  exact ⟨envelope.message, rfl⟩

/-- An accepted run stays in step with the machine to its end. -/
theorem tracks_of_accepted (ha : Arities p.leafArity p.internalArity) (hn : 0 < n) (h : HonestRun p n s)
    (hacc : Accepted p n s.delivered) : ∃ m, Tracks p n s m := by
  induction h with
  | refl => exact ⟨_, tracks_start ha hn⟩
  | tail _ hs ih =>
    obtain ⟨r, hd⟩ := hs.delivered
    obtain ⟨m, ht⟩ := ih (by rw [hd] at hacc; exact hacc.of_append)
    obtain ⟨m', _, h⟩ := ht.follows_of_accepted ha hn hacc hs
    exact ⟨m', h.tracks⟩

end

/-- A result of an accepted run is processed, and seals the proof exactly when it brings the final artifact. -/
theorem processed_of_accepted {p : TreeParams} {n : Nat} {s : TreeState} {m : State ProofBytes} (ht : Tracks p n s m)
    (hlive : s.ps.isSealedForResults = false) {envelope : MessageEnvelope ProofResult}
    (hacc : Accepted p n [envelope.message]) (rest : List GeneralProveRequest) {now : Time}
    (hstatus : (s.deliver rest now envelope).ps.status = .inProgress) : ∃ requests,
      (s.ps.handleProofResultWithEnvelopeOutcome now envelope).2 =
        .ok (.processed requests (s.deliver rest now envelope).ps.isReadyForFinalization) ∧
      (s.deliver rest now envelope).emitted = s.emitted ++ requests ∧
      (s.deliver rest now envelope).outstanding = rest ++ requests := by
  obtain ⟨⟨ps', result⟩, hhandled⟩ : ∃ handled, (s.ps.touch now).handleProofResult envelope.message = handled :=
    ⟨_, rfl⟩
  rw [deliver_eq hlive rfl rest hhandled] at hstatus ⊢
  cases result with
  | error e =>
    exfalso
    obtain ⟨r, k, hmsg, htype, hk, hlayer, hready⟩ :=
      (handleProofResult_error_iff.mp ⟨e, congrArg Prod.snd hhandled⟩).is_internal
    have hm := (ht.touch now).mirrors
    have hn : k = n := by
      rw [hm.numSegments] at hk
      split at hk
      · exact (Option.some.inj hk).symm
      · simp at hk
    have hfinal : r.state.layerIdx = p.finalLayer n := hlayer.trans (hn ▸ hm.effectiveFinalLayer_eq)
    have hyes := hacc.ready (hm.context ▸ htype) r (by simp [hmsg]) hfinal
    rw [hready] at hyes
    simp at hyes
  | ok requests =>
    refine ⟨requests, ?_, rfl, rfl⟩
    have htouch : ({ s.ps with lastUpdated := now } : ProofState) = s.ps.touch now := rfl
    simp only [handleProofResultWithEnvelopeOutcome, hlive, Bool.false_eq_true, if_false, htouch, hhandled]
    simp [isSealedForResults, show ps'.status = .inProgress from hstatus]

end EdgeProver
