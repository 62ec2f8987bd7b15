import Mathlib.Algebra.BigOperators.Group.List.Basic
import EdgeProver.Tree.FinalProof

/-! The layer metadata that the final internal request carries to the deferral merge. -/
namespace EdgeProver
open FoldMachine FoldMachine.State Gather ProofState

def GeneralProveRequest.isInternal : GeneralProveRequest → Bool
  | .internalProve _ => true
  | _ => false

def TreeParams.internalProofs (p : TreeParams) (n : Nat) : Nat :=
  ((List.range' 2 (p.finalLayer n + 1)).map (p.plan n).width).sum

def TreeParams.tailMetadata (p : TreeParams) (n : Nat) : InternalLayerMetadataWire where
  internalRecursiveLayer := .ofNat (p.finalLayer n)
  internalNodeIdx := .ofNat (p.internalProofs n - 1)
  proofsType := .vm

/-- Every deferral payload of these requests goes to the final layer, with its metadata. -/
def Tailed (p : TreeParams) (n : Nat) (requests : List GeneralProveRequest) : Prop :=
  ∀ q t, .internalProve q ∈ requests → q.deferralTail = some t →
    q.layerIdx = p.finalLayer n ∧ t.layerMetadata = p.tailMetadata n

section
variable {p : TreeParams} {n : Nat} {s s' : TreeState} {m m' : State ProofBytes}
  (ha : Arities p.leafArity p.internalArity) (hn : 0 < n)

section
include ha

private theorem max_numProofs (hn : 0 < n) (layer : Nat) :
    max (numProofsAtInternalLayerForLeafCount (divCeil n p.leafArity) layer p.internalArity) 1 =
      (p.plan n).width (2 + layer) := by
  have hpos : 0 < (p.plan n).width (layer + 2) := FoldTree.width_pos (plan_fan_pos ha n) hn _
  rw [numProofsAtInternalLayer_eq ha, Nat.add_comm 2 layer]
  split
  · rename_i hone
    exact (FoldTree.width_succ_of_one (plan_fan_pos ha n) hone).symm
  · exact max_eq_left hpos

private theorem sum_numProofs (hn : 0 < n) : ((List.range (p.finalLayer n + 1)).map fun layer =>
    max (numProofsAtInternalLayerForLeafCount (divCeil n p.leafArity) layer p.internalArity) 1).sum =
      p.internalProofs n := by
  rw [TreeParams.internalProofs, List.range'_eq_map_range, List.map_map]
  exact congrArg List.sum (List.map_congr_left fun layer _ => max_numProofs ha hn layer)

private theorem finalLayer_lt_internalProofs (hn : 0 < n) : p.finalLayer n < p.internalProofs n := by
  have hone : ∀ width ∈ (List.range' 2 (p.finalLayer n + 1)).map (p.plan n).width, 1 ≤ width := by
    intro width hwidth
    obtain ⟨v, -, rfl⟩ := List.mem_map.mp hwidth
    exact FoldTree.width_pos (plan_fan_pos ha n) hn v
  have hsum := List.length_le_sum_of_one_le _ hone
  rwa [List.length_map, List.length_range'] at hsum

private theorem layerMetadata_of_dispatch {ps : ProofState} (hm : Mirrors p n ps m) (hn : 0 < n) (hk : m.known = true)
    {t : DeferralTailDispatch} (ht : ps.buildDeferralTailDispatch (p.finalLayer n) = some t) :
    t.layerMetadata = p.tailMetadata n := by
  have hlayer : max (p.finalLayer n) 1 = p.finalLayer n := by
    unfold TreeParams.finalLayer
    omega
  rw [buildDeferralTailDispatch, hm.numSegments_of_known hk] at ht
  split at ht
  · cases ht
  · rw [← Option.some.inj ht]
    simp only [hm.effectiveFinalLayer_eq, hm.leafArity, hm.internalArity, sum_numProofs ha hn, hlayer]
    rfl

private theorem tailed_requestOf {ps : ProofState} (hm : Mirrors p n ps m) (hn : 0 < n) {o : Order ProofBytes}
    (hpos : 0 < o.level) {q : InternalProveRequest} (hq : ps.requestOf n o = .internalProve q)
    {t : DeferralTailDispatch} (ht : q.deferralTail = some t) :
    q.layerIdx = p.finalLayer n ∧ t.layerMetadata = p.tailMetadata n := by
  obtain ⟨level, index, children⟩ := o
  match level, hpos with
  | 1, _ => cases hq
  | layer + 2, _ =>
    rw [hm.requestOf_internal] at hq
    obtain rfl := GeneralProveRequest.internalProve.inj hq
    simp only [Option.ite_none_right_eq_some, Bool.and_eq_true, beq_iff_eq] at ht ⊢
    obtain ⟨⟨hk, rfl⟩, ht⟩ := ht
    exact ⟨rfl, layerMetadata_of_dispatch ha hm hn hk ht⟩

end

include ha hn

theorem Tailed.step (h : Tailed p n s.emitted) (hlive : s.ps.isSealedForResults = false → ∃ m, Tracks p n s m)
    (hs : HonestStep n s s') : Tailed p n s'.emitted := by
  cases hseal : s.ps.isSealedForResults with
  | true =>
    obtain ⟨rest, now, envelope, rfl⟩ := hs.deliver
    rw [deliver_sealed hseal]
    exact h
  | false =>
    obtain ⟨m, ht⟩ := hlive hseal
    rcases ht.step ha hn hseal hs with ⟨m', r, hf⟩ | ⟨hsame, -⟩
    · obtain ⟨new, hnew, hrequests⟩ := hf.requests
      intro q t hq htail
      have hmem : .internalProve q ∈ s'.emitted.filter (! ·.isEvm) := List.mem_filter.mpr ⟨hq, rfl⟩
      rw [hrequests, List.mem_append] at hmem
      rcases hmem with hold | hsent
      · exact h q t (List.mem_of_mem_filter hold) htail
      · obtain ⟨o, ho, he⟩ := List.mem_map.mp hsent
        have hpos := hf.tracks.mirrors.inv.level_pos o (hnew ▸ List.mem_append_right _ ho)
        exact tailed_requestOf ha hf.tracks.mirrors hn hpos he htail
    · rw [hsame]
      exact h

theorem tailed_of_run (h : HonestRun p n s) : Tailed p n s.emitted := by
  induction h with
  | refl => exact fun q t hq => absurd hq List.not_mem_nil
  | tail hrun hs ih =>
    obtain ⟨m, -, hlive⟩ := history_of_run ha hn hrun
    exact ih.step ha hn (fun hopen => ⟨m, hlive hopen⟩) hs

omit ha hn in
private theorem History.countP_isInternal (h : History p n s m) :
    s.emitted.countP (·.isInternal) = m.emitted.countP (fun o => decide (2 ≤ o.level)) := by
  rw [← h.orders, List.countP_filterMap]
  refine List.countP_congr fun q _ => ?_
  cases q <;> simp [GeneralProveRequest.isInternal, orderOf]

/-- Once a request of the final layer was sent, so was every other internal request. -/
theorem History.internal_count (h : History p n s m) {q : InternalProveRequest} (hq : .internalProve q ∈ s.emitted)
    (hlayer : q.layerIdx = p.finalLayer n) : s.emitted.countP (·.isInternal) = p.internalProofs n := by
  obtain ⟨o, ho⟩ : ∃ o, orderOf p (.internalProve q) = some o := ⟨_, rfl⟩
  have hmem : o ∈ m.emitted := by
    rw [← h.orders]
    exact List.mem_filterMap.mpr ⟨_, hq, ho⟩
  have hlevel : o.level = (p.plan n).top := by
    rw [← Option.some.inj ho, hlayer]
    rfl
  have hone := width_top ha hn (p := p)
  have hvalid := (awaited_valid h.inv (.inr ⟨o, hmem, rfl, rfl⟩)).2
  rw [hlevel] at hvalid
  have hroot : ∃ o ∈ m.emitted, o.node = ((p.plan n).top, 0) :=
    ⟨o, hmem, Prod.ext hlevel (Nat.lt_one_iff.mp (hone ▸ hvalid))⟩
  rw [h.countP_isInternal]
  exact countP_of_root (plan_wellFormed ha hn) h.inv hroot Nat.two_pos (Nat.add_comm (p.finalLayer n + 1) 2)

end

/-- In every honest run, wherever ExecuteE2 is delivered, the deferral payload of the final request names the last of
all the internal requests and the layer of its own, and a complete run of a deferral proof sends it. -/
theorem deferralTail_of_honestRun {p : TreeParams} {n : Nat} (ha : Arities p.leafArity p.internalArity) (hn : 0 < n)
    {s : TreeState} (h : HonestRun p n s) (hcount : s.emitted.countP (·.isInternal) < 2 ^ 32) :
    (∀ q t, .internalProve q ∈ s.emitted → q.deferralTail = some t →
      t.layerMetadata.internalNodeIdx.toNat + 1 = s.emitted.countP (·.isInternal) ∧
      t.layerMetadata.internalRecursiveLayer.toNat = q.layerIdx) ∧
    (ExecuteE2First s.delivered → Accepted p n s.delivered → Complete n s → 0 < p.deferralCircuitCount →
      ∃ q, .internalProve q ∈ s.emitted ∧ q.isFinalProof = true ∧ q.deferralTail.isSome = true) := by
  constructor
  · intro q t hq htail
    obtain ⟨m, hist, -⟩ := history_of_run ha hn h
    obtain ⟨hlayer, hmeta⟩ := tailed_of_run ha hn h q t hq htail
    have htotal := hist.internal_count ha hn hq hlayer
    have hlt := finalLayer_lt_internalProofs ha hn (p := p)
    rw [hmeta, hlayer, htotal]
    rw [htotal] at hcount
    constructor
    · show (UInt32.ofNat (p.internalProofs n - 1)).toNat + 1 = _
      rw [UInt32.toNat_ofNat_of_lt' (show _ < 2 ^ 32 by omega)]
      omega
    · exact UInt32.toNat_ofNat_of_lt' (show _ < 2 ^ 32 by omega)
  · intro hfirst hacc hc hcircuits
    obtain ⟨m, hd⟩ := disciplined_of_run ha hn h hacc hfirst
    have hm := hd.tracks.mirrors
    have hk := hd.tracks.executeE2.mp hc.executeE2
    have hwidth : 0 < (p.plan n).width (p.plan n).top := FoldTree.width_pos (plan_fan_pos ha n) hn _
    have htop := hd.all_got ha hn hc (le_refl (p.plan n).top) hwidth
    obtain ⟨o, ho, hnode⟩ := hm.inv.got_ordered (p.finalLayer n + 1) 0 htop
    have hmem : s.ps.requestOf n o ∈ s.emitted.filter (·.isFinal) := by
      rw [hd.filter_isFinal ha hn hk ho hnode]
      exact List.mem_singleton_self _
    obtain ⟨level, index, children⟩ := o
    obtain ⟨rfl, rfl⟩ := Prod.mk.inj hnode
    rw [hm.requestOf_internal] at hmem
    obtain ⟨hsent, hfinal⟩ := List.mem_filter.mp hmem
    refine ⟨_, hsent, hfinal, ?_⟩
    simp only [hk, Bool.true_and, beq_self_eq_true, if_true]
    exact (buildDeferralTailDispatch_isSome hm hk _).mpr hcircuits

/-- Within the word every run on the machine takes what comes next, the deferral payload of its final request names
the last of all the internal requests and the layer of its own, and once complete it has sent it. -/
theorem deferralTail_of_wordRun {p : TreeParams} {n : Nat} (ha : Arities p.leafArity p.internalArity) (hn : 0 < n)
    (hw : p.WithinWord n) {overflowChecks : Bool} {s : TreeState} (h : WordRun overflowChecks p n s)
    (hcount : s.emitted.countP (·.isInternal) < 2 ^ 32) :
    TakesAll overflowChecks n s ∧
    (∀ q t, .internalProve q ∈ s.emitted → q.deferralTail = some t →
      t.layerMetadata.internalNodeIdx.toNat + 1 = s.emitted.countP (·.isInternal) ∧
      t.layerMetadata.internalRecursiveLayer.toNat = q.layerIdx) ∧
    (ExecuteE2First s.delivered → Accepted p n s.delivered → Complete n s → 0 < p.deferralCircuitCount →
      ∃ q, .internalProve q ∈ s.emitted ∧ q.isFinalProof = true ∧ q.deferralTail.isSome = true) := by
  have hrun := h.honest ha hn hw
  exact ⟨hrun.takesAll ha hn hw overflowChecks, deferralTail_of_honestRun ha hn hrun hcount⟩

/-- The uneven run sends three internal requests, the last of them on layer 1. -/
theorem deferralTail_unevenRun : ∃ q t, .internalProve q ∈ unevenRun.emitted ∧ q.deferralTail = some t ∧
    t.layerMetadata.internalNodeIdx.toNat = 2 ∧ t.layerMetadata.internalRecursiveLayer.toNat = q.layerIdx := by
  have hrun := wordRun_uneven false
  obtain ⟨-, hmeta, hsent⟩ := deferralTail_of_wordRun ⟨by decide, by decide⟩ (by decide) unevenParams_withinWord hrun
    (by decide)
  obtain ⟨q, hq, -, htail⟩ := hsent executeE2First_uneven (accepted_of_withinLimits (by decide)) complete_uneven
    (by decide)
  obtain ⟨t, ht⟩ := Option.isSome_iff_exists.mp htail
  obtain ⟨hidx, hlayer⟩ := hmeta q t hq ht
  have hthree : unevenRun.emitted.countP (·.isInternal) = 3 := by decide
  exact ⟨q, t, hq, ht, by omega, hlayer⟩

/-- The scale of the first layer wraps to zero, so its answer ends in a division by zero and no final request is
sent. -/
theorem deferralTail_fails : ¬ ∀ (p : TreeParams) (n : Nat) (s : TreeState), Arities p.leafArity p.internalArity →
    0 < n → WordRun false p n s → s.emitted.countP (·.isInternal) < 2 ^ 32 →
    TakesAll false n s ∧
    (∀ q t, .internalProve q ∈ s.emitted → q.deferralTail = some t →
      t.layerMetadata.internalNodeIdx.toNat + 1 = s.emitted.countP (·.isInternal) ∧
      t.layerMetadata.internalRecursiveLayer.toNat = q.layerIdx) ∧
    (ExecuteE2First s.delivered → Accepted p n s.delivered → Complete n s → 0 < p.deferralCircuitCount →
      ∃ q, .internalProve q ∈ s.emitted ∧ q.isFinalProof = true ∧ q.deferralTail.isSome = true) := by
  intro hall
  obtain ⟨s, hplay, hcount, hrest, hfault⟩ : ∃ s, (TreeState.start (halfWordParams (2 ^ 32))).wordPlay 1
      [sampleE2 1, sampleApp 0, sampleLeaf 0] = some s ∧ s.emitted.countP (·.isInternal) = 1 ∧
      s.restAfter 1 (sampleInternal 0 0 0) = some [] ∧
      s.wordDeliver false [] 0 ⟨0, "", sampleInternal 0 0 0⟩ = .error .divisionByZero := ⟨_, rfl, rfl, rfl, rfl⟩
  have h := hall (halfWordParams (2 ^ 32)) 1 s ⟨by decide, by decide⟩ Nat.one_pos
    (TreeState.wordRun_of_play .refl hplay) (by rw [hcount]; decide)
  exact TreeState.not_takesAll hrest hfault h.1

end EdgeProver
