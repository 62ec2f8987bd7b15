import EdgeProver.Tree.Steps

/-! Exactly-the-children safety: in every reachable state of an honest run no node of the
tree was requested twice, and each request carries the proofs of its own children. -/
namespace EdgeProver
open FoldMachine FoldMachine.State Gather ProofState

theorem tracks_start {p : TreeParams} {n : Nat} (ha : Arities p.leafArity p.internalArity) (hn : 0 < n) :
    Tracks p n (.start p) State.init where
  mirrors := {
    inv := inv_init (plan_wellFormed ha hn)
    status := rfl
    context := rfl
    leafArity := rfl
    internalArity := rfl
    costLimit := rfl
    deferralCircuitCount := rfl
    numSegments := rfl
    executeE2 := rfl
    slots := fun v i => by
      match v with
      | 0 => rfl
      | 1 => rfl
      | l + 2 => rfl
    app_proof := fun i a h => absurd h (Option.some_ne_none a).symm }
  orders := rfl
  ranged q hq := absurd hq List.not_mem_nil
  proofs v i := by
    match v with
    | 0 => rfl
    | 1 => rfl
    | l + 2 => rfl
  outstanding_sub := List.Sublist.refl []
  outstanding_iff o := by simp [TreeState.start, State.init]
  executeE2 := by simp [TreeState.start, known, State.init]
  apps i := by simp [TreeState.start, State.init]
  finalMerklePath := rfl
  depth0 := rfl
  stored l i st h := absurd h (Option.some_ne_none st).symm
  evms := rfl
  evm_outstanding := rfl
  evm_proof e h := absurd h (Option.some_ne_none e).symm

theorem deliver_sealed {s : TreeState} (h : s.ps.isSealedForResults = true)
    (rest : List GeneralProveRequest) (now : Time) (envelope : MessageEnvelope ProofResult) :
    s.deliver rest now envelope = ⟨{ s.ps with lateResultNoticeEmitted := true }, s.emitted, rest,
      s.delivered ++ [envelope.message]⟩ := by
  simp [TreeState.deliver, handleProofResultWithEnvelopeOutcome, h, followUps]

theorem HonestStep.deliver {n : Nat} {s s' : TreeState} (h : HonestStep n s s') :
    ∃ rest now envelope, s' = s.deliver rest now envelope := by
  cases h with
  | executeE2 now envelope => exact ⟨_, now, envelope, rfl⟩
  | app now envelope => exact ⟨_, now, envelope, rfl⟩
  | answer now envelope => exact ⟨_, now, envelope, rfl⟩

/-- What was emitted stays in step with the machine, also after the proof is sealed. -/
structure History (p : TreeParams) (n : Nat) (s : TreeState) (m : State ProofBytes) : Prop where
  inv : Inv (p.plan n) m
  orders : s.emitted.filterMap (orderOf p) = m.emitted
  ranged : ∀ q ∈ s.emitted, InRange p n q
  proofs : ∀ v i b, m.got v i = some b → nodeProofOf p s.delivered v i = some b

theorem Tracks.history {p : TreeParams} {n : Nat} {s : TreeState} {m : State ProofBytes}
    (ht : Tracks p n s m) : History p n s m :=
  ⟨ht.mirrors.inv, ht.orders, ht.ranged, fun v i _ h => (ht.proofs v i).trans h⟩

section
variable {p : TreeParams} {n : Nat} {s s' : TreeState} {m : State ProofBytes}

/-- Deliveries that send nothing keep the history. -/
theorem History.delivered (h : History p n s m) (he : s'.emitted = s.emitted) {rs : List ProofResult}
    (hd : s'.delivered = s.delivered ++ rs) : History p n s' m := by
  refine ⟨h.inv, by rw [he]; exact h.orders, by rw [he]; exact h.ranged, fun v i b hb => ?_⟩
  rw [hd, nodeProofOf_append, h.proofs v i b hb]
  rfl

variable (ha : Arities p.leafArity p.internalArity) (hn : 0 < n)
include ha hn

theorem history_of_run (h : HonestRun p n s) :
    ∃ m, History p n s m ∧ (s.ps.isSealedForResults = false → Tracks p n s m) := by
  induction h with
  | refl => exact ⟨_, (tracks_start ha hn).history, fun _ => tracks_start ha hn⟩
  | tail _ hs ih =>
    obtain ⟨m, hist, htracks⟩ := ih
    rename_i s s' _
    cases hseal : s.ps.isSealedForResults with
    | true =>
      obtain ⟨rest, now, envelope, rfl⟩ := hs.deliver
      rw [deliver_sealed hseal]
      refine ⟨m, hist.delivered rfl rfl, fun hlive => ?_⟩
      have hsame : s.ps.isSealedForResults = false := hlive
      rw [hseal] at hsame
      exact absurd hsame.symm Bool.false_ne_true
    | false =>
      rcases (htracks hseal).step ha hn hseal hs with ⟨m', r, h⟩ | ⟨he, hstatus, r, hd, _⟩
      · exact ⟨m', h.tracks.history, fun _ => h.tracks⟩
      · refine ⟨m, hist.delivered he hd, fun hlive => ?_⟩
        exact absurd (not_sealed_iff.mp hlive).1 hstatus

end

/-- Parts (a) to (c) of the safety of the tree. -/
structure ExactChildren (p : TreeParams) (n : Nat) (s : TreeState) : Prop where
  leaf_once : (s.emitted.filterMap leafKey).Nodup
  internal_once : (s.emitted.filterMap (internalKey p)).Nodup
  leaf_children : ∀ q, .leafProve q ∈ s.emitted → ∃ b, b * p.leafArity < n ∧
    q.segmentStart = b * p.leafArity ∧ q.segmentEnd = min ((b + 1) * p.leafArity) n - 1 ∧
    q.appProofs.map some = (List.range' (b * p.leafArity)
      (min ((b + 1) * p.leafArity) n - b * p.leafArity)).map (appProofOf s.delivered)
  internal_children : ∀ q, .internalProve q ∈ s.emitted → ∃ idx,
    internalKey p (.internalProve q) = some (q.layerIdx, idx) ∧
    idx * p.internalArity < childCount p n q.layerIdx ∧
    q.segmentStart = idx * (p.leafArity * p.internalArity ^ (q.layerIdx + 1)) ∧
    q.segmentEnd = min ((idx + 1) * (p.leafArity * p.internalArity ^ (q.layerIdx + 1))) n - 1 ∧
    q.childProofs.map some = (List.range' (idx * p.internalArity)
      (min ((idx + 1) * p.internalArity) (childCount p n q.layerIdx) - idx * p.internalArity)).map
        (childProofOf p s.delivered q.layerIdx)

namespace History
variable {p : TreeParams} {n : Nat} {s : TreeState} {m : State ProofBytes} (h : History p n s m)
include h

/-- The children of a request are the delivered proofs of its group. -/
theorem children_delivered {q : GeneralProveRequest} {o : Order ProofBytes} (hq : q ∈ s.emitted)
    (ho : orderOf p q = some o) {v : Nat} (hv : o.level = v + 1) :
    o.index < (p.plan n).width (v + 1) ∧
      o.children.map some = (List.range' (o.index * (p.plan n).fan v)
        ((p.plan n).groupLen v o.index)).map (nodeProofOf p s.delivered v) := by
  have hmem : o ∈ m.emitted := by
    rw [← h.orders]
    exact List.mem_filterMap.mpr ⟨q, hq, ho⟩
  have hdue := (h.inv.emitted_iff v o.index).mp ⟨o, hmem, by rw [Order.node, hv]⟩
  refine ⟨hdue.1.2.1, ?_⟩
  have hget := gather_eq_some_iff.mp (h.inv.children o hmem v hv)
  rw [← hget]
  apply List.map_congr_left
  intro k hk
  have hsome : m.got v k ∈ o.children.map some := by
    rw [← hget]
    exact List.mem_map_of_mem hk
  obtain ⟨b, _, hb⟩ := List.mem_map.mp hsome
  rw [← hb]
  exact (h.proofs v k b hb.symm).symm

private theorem keys_nodup {κ : Type} {key : GeneralProveRequest → Option κ} (f : Nat × Nat → Option κ)
    (hkey : ∀ q ∈ s.emitted, key q = ((orderOf p q).map Order.node).bind f)
    (hinj : ∀ a b k, f a = some k → f b = some k → a = b) : (s.emitted.filterMap key).Nodup := by
  have heq : s.emitted.filterMap key = (m.emitted.map Order.node).filterMap f := by
    rw [← h.orders, List.map_filterMap, List.filterMap_filterMap]
    exact List.filterMap_congr hkey
  rw [heq]
  exact h.inv.nodup.filterMap fun a b k ha hb => hinj a b k ha hb

variable (ha : Arities p.leafArity p.internalArity)
include ha

private theorem exactChildren : ExactChildren p n s where
  leaf_once := by
    refine h.keys_nodup (fun a => if a.1 = 1 then some (a.2 * p.leafArity) else none) ?_ ?_
    · intro q hq
      cases q with
      | evmProve q => rfl
      | internalProve q => simp [leafKey, orderOf, Order.node]
      | leafProve q =>
        obtain ⟨j, hj, _⟩ := h.ranged _ hq
        have hdiv : q.segmentStart / p.leafArity * p.leafArity = q.segmentStart := by
          rw [hj, FoldTree.first, TreeParams.plan, size_leaf, Nat.mul_div_cancel j ha.leaf_pos]
        simp [leafKey, orderOf, Order.node, hdiv]
    · intro a b k hak hbk
      simp only [Option.ite_none_right_eq_some, Option.some.injEq] at hak hbk
      refine Prod.ext (hak.1.trans hbk.1.symm) ?_
      exact Nat.eq_of_mul_eq_mul_right ha.leaf_pos (hak.2.trans hbk.2.symm)
  internal_once := by
    refine h.keys_nodup (fun a => if 2 ≤ a.1 then some (a.1 - 2, a.2) else none) ?_ ?_
    · intro q _
      cases q <;> simp [internalKey, orderOf, Order.node]
    · intro a b k hak hbk
      simp only [Option.ite_none_right_eq_some, Option.some.injEq] at hak hbk
      have hk := hak.2.trans hbk.2.symm
      simp only [Prod.mk.injEq] at hk
      exact Prod.ext (by omega) hk.2
  leaf_children := by
    intro q hq
    obtain ⟨j, hj, hend⟩ := h.ranged _ hq
    have hdiv : q.segmentStart / p.leafArity = j := by
      rw [hj, FoldTree.first, TreeParams.plan, size_leaf]
      exact Nat.mul_div_cancel j ha.leaf_pos
    have ho : orderOf p (.leafProve q) = some ⟨1, j, q.appProofs⟩ := by rw [orderOf, hdiv]
    obtain ⟨hlt, hch⟩ := h.children_delivered hq ho (v := 0) rfl
    have hlen : (p.plan n).groupLen 0 j = min ((j + 1) * p.leafArity) n - j * p.leafArity := by
      show min p.leafArity (n - j * p.leafArity) = _
      rw [Nat.succ_mul]
      omega
    refine ⟨j, (FoldTree.lt_width_succ (plan_fan_pos ha n 0)).mp hlt, ?_, ?_, ?_⟩
    · rw [hj, FoldTree.first, TreeParams.plan, size_leaf]
    · rw [hend, FoldTree.last, TreeParams.plan, size_leaf]
    · rw [← hlen]
      exact hch
  internal_children := by
    intro q hq
    obtain ⟨j, hj, hend⟩ := h.ranged _ hq
    have hidx : segmentStartToInternalIdxWithBatch q.segmentStart q.layerIdx p.leafArity p.internalArity = j := by
      rw [hj]
      exact segmentStartToInternalIdx_first ha _ j
    have ho : orderOf p (.internalProve q) = some ⟨q.layerIdx + 2, j, q.childProofs⟩ := by
      rw [orderOf, hidx]
    obtain ⟨hlt, hch⟩ := h.children_delivered hq ho (v := q.layerIdx + 1) rfl
    have hlen : (p.plan n).groupLen (q.layerIdx + 1) j =
        min ((j + 1) * p.internalArity) (childCount p n q.layerIdx) - j * p.internalArity := by
      show min p.internalArity (childCount p n q.layerIdx - j * p.internalArity) = _
      rw [Nat.succ_mul]
      omega
    refine ⟨j, ?_, (FoldTree.lt_width_succ (plan_fan_pos ha n (q.layerIdx + 1))).mp hlt, ?_, ?_, ?_⟩
    · rw [internalKey, hidx]
    · rw [hj, FoldTree.first, TreeParams.plan, size_layer]
    · rw [hend, FoldTree.last, TreeParams.plan, size_layer]
    · rw [← hlen]
      exact hch

end History

/-- No request of an honest run is sent twice, and each carries exactly the proofs of its
children, in order, under its own segment range. -/
theorem exactChildren_of_honestRun {p : TreeParams} {n : Nat} (ha : Arities p.leafArity p.internalArity)
    (hn : 0 < n) {s : TreeState} (h : HonestRun p n s) : ExactChildren p n s := by
  obtain ⟨m, hist, _⟩ := history_of_run ha hn h
  exact hist.exactChildren ha

end EdgeProver
