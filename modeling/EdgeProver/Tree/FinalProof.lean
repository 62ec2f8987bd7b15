import EdgeProver.Tree.Accepted
import EdgeProver.Tree.WordRun

/-! The final internal proof and its payloads, in runs that deliver the ExecuteE2 result
before the first leaf or internal result. -/
namespace EdgeProver
open FoldMachine FoldMachine.State Gather ProofState

def ProofResult.isRecursion : ProofResult → Bool
  | .leaf _ | .internal _ => true
  | _ => false

def ExecuteE2First (rs : List ProofResult) : Prop :=
  ∀ before r after, rs = before ++ r :: after → r.isRecursion = true →
    ∃ q ∈ before, q.isExecuteE2 = true

theorem ExecuteE2First.of_append {rs rs' : List ProofResult} (h : ExecuteE2First (rs ++ rs')) :
    ExecuteE2First rs := by
  intro before r after he hr
  refine h before r (after ++ rs') ?_ hr
  rw [he, List.append_assoc, List.cons_append]

theorem executeE2First_of_early {pre post : List ProofResult} (hpre : ∀ r ∈ pre, r.isRecursion = false)
    (hE2 : ∃ q ∈ pre, q.isExecuteE2 = true) : ExecuteE2First (pre ++ post) := by
  intro before r after he hr
  obtain ⟨q, hq, hqE2⟩ := hE2
  refine ⟨q, ?_, hqE2⟩
  rcases List.append_eq_append_iff.mp he with ⟨mid, rfl, _⟩ | ⟨mid, rfl, hmid⟩
  · exact List.mem_append_left mid hq
  · cases mid with
    | nil => simpa using hq
    | cons r' mid =>
      obtain ⟨rfl, _⟩ := List.cons.inj hmid
      have := hpre r (by simp)
      rw [hr] at this
      exact absurd this.symm Bool.false_ne_true

section
variable {p : TreeParams} {n : Nat} {s s' : TreeState} {m m' : State ProofBytes}

private theorem nodeProofOf_none {rs : List ProofResult} (h : ∀ r ∈ rs, r.isRecursion = false) (v i : Nat) :
    nodeProofOf p rs (v + 1) i = none := by
  match v with
  | 0 =>
    refine List.findSome?_eq_none_iff.mpr fun r hr => ?_
    have := h r hr
    cases r <;> simp [ProofResult.isRecursion] at this ⊢
  | l + 1 =>
    refine List.findSome?_eq_none_iff.mpr fun r hr => ?_
    have := h r hr
    cases r <;> simp [ProofResult.isRecursion] at this ⊢

private theorem Tracks.got_none_of_unknown (ht : Tracks p n s m) (hfirst : ExecuteE2First s.delivered)
    (hk : m.known = false) (v i : Nat) : m.got (v + 1) i = none := by
  rw [← ht.proofs]
  apply nodeProofOf_none
  intro r hr
  rw [Bool.eq_false_iff]
  intro hrec
  obtain ⟨before, after, he⟩ := List.append_of_mem hr
  obtain ⟨q, hq, hE2⟩ := hfirst before r after he hrec
  have hknown := ht.executeE2.mp ⟨q, by rw [he]; exact List.mem_append_left _ hq, hE2⟩
  rw [hk] at hknown
  exact Bool.false_ne_true hknown

/-- The request for a node does not depend on when it is sent, once its group is whole. -/
theorem requestOf_congr {ps ps' : ProofState} (hm : Mirrors p n ps m) (hm' : Mirrors p n ps' m')
    {o : Order ProofBytes} (hpos : 0 < o.level)
    (hfinal : o.level = 1 ∨ m.known = m'.known ∧ (o.level = (p.plan n).top →
      ps.deferralFinalMerklePathBytes = ps'.deferralFinalMerklePathBytes ∧
      ps.deferralDepth0MerkleProofsBytes = ps'.deferralDepth0MerkleProofsBytes)) :
    ps.requestOf n o = ps'.requestOf n o := by
  obtain ⟨level, index, children⟩ := o
  match level, hpos with
  | 1, _ =>
    simp only [requestOf, leafRequest, hm.leafArity, hm.internalArity, hm'.leafArity, hm'.internalArity,
      hm.context, hm'.context]
  | l + 2, _ =>
    obtain ⟨hk, hbytes⟩ := hfinal.resolve_left (by simp)
    rw [hm.requestOf_internal, hm'.requestOf_internal, ← hk]
    by_cases hl : (m.known && l == p.finalLayer n) = true
    · have htop : l = p.finalLayer n := by
        rw [Bool.and_eq_true, beq_iff_eq] at hl
        exact hl.2
      obtain ⟨hpath, hdepth⟩ := hbytes (by rw [htop]; rfl)
      have hnum : ps.numSegments = ps'.numSegments := by rw [hm.numSegments, hm'.numSegments, hk]
      rw [hl]
      simp only [internalRequest, if_true, buildDeferralTailDispatch, effectiveFinalLayer, hm.leafArity,
        hm.internalArity, hm'.leafArity, hm'.internalArity, hm.context, hm'.context, hpath, hdepth, hnum,
        hm.deferralCircuitCount, hm'.deferralCircuitCount]
    · rw [Bool.not_eq_true] at hl
      rw [hl]
      simp only [internalRequest, Bool.false_eq_true, if_false, hm.context, hm'.context]

/-- The tree as the final-proof discipline needs it: the requests sent so far are those the
present state would send. -/
structure Disciplined (p : TreeParams) (n : Nat) (s : TreeState) (m : State ProofBytes) : Prop where
  tracks : Tracks p n s m
  requests : s.emitted.filter (! ·.isEvm) = m.emitted.map (s.ps.requestOf n)
  before : ∀ g, m.before = some g → ∀ v i, g (v + 1) i = none

private theorem HonestStep.app_fresh (h : HonestStep n s s') {a : AppProof}
    (hd : s'.delivered = s.delivered ++ [.app a]) :
    a.state.segmentIdx < n ∧ ∀ q ∈ s.delivered, q.appSegment ≠ some a.state.segmentIdx := by
  cases h with
  | executeE2 now envelope r hmsg =>
    have : envelope.message = .app a := List.singleton_injective (List.append_cancel_left hd)
    rw [hmsg] at this
    cases this
  | app now envelope r hmsg hlt hproof hfresh =>
    have : envelope.message = .app a := List.singleton_injective (List.append_cancel_left hd)
    rw [hmsg] at this
    cases this
    exact ⟨hlt, hfresh⟩
  | answer now envelope before after req hout hans =>
    have : envelope.message = .app a := List.singleton_injective (List.append_cancel_left hd)
    rw [this] at hans
    cases req <;> exact absurd hans (by simp [Answers])

section
variable (ha : Arities p.leafArity p.internalArity) (hn : 0 < n)
include ha hn

/-- A delivery leaves the deferral payloads alone once the final request could be sent. -/
theorem Tracks.payloads_of_top (ht : Tracks p n s m) (ht' : Tracks p n s' m') {r : ProofResult}
    (hd : s'.delivered = s.delivered ++ [r]) (hs : HonestStep n s s') {o : Order ProofBytes}
    (ho : o ∈ m.emitted) (htop : o.level = (p.plan n).top) :
    s.ps.deferralFinalMerklePathBytes = s'.ps.deferralFinalMerklePathBytes ∧
      s.ps.deferralDepth0MerkleProofsBytes = s'.ps.deferralDepth0MerkleProofsBytes := by
  have hnone : ∀ field, shippedBytes field [r] = none := by
    intro field
    cases r with
    | app a =>
      obtain ⟨hlt, hfresh⟩ := hs.app_fresh hd
      have hlevel : (p.plan n).top = p.finalLayer n + 1 + 1 := rfl
      have hnode : o.node = (p.finalLayer n + 1 + 1, o.index) := by rw [Order.node, htop, hlevel]
      have hidx := ((ht.mirrors.inv.emitted_iff _ _).mp ⟨o, ho, hnode⟩).1.2.1
      have hw := width_top ha hn (p := p)
      have h0 : o.index = 0 := Nat.lt_one_iff.mp (hw ▸ hidx)
      have hwhole := ((ht.mirrors.inv.emitted_iff _ _).mp ⟨o, ho, h0 ▸ hnode⟩).1.2.2.1
      have hgot := all_got_of_whole (plan_wellFormed ha hn) (closed_got ht.mirrors.inv) hw hwhole
        (Nat.zero_le _) (i := a.state.segmentIdx) hlt
      obtain ⟨q, hq, he⟩ := (ht.apps _).mpr hgot
      exact absurd he (hfresh q hq)
    | _ => rfl
  constructor
  · rw [ht.finalMerklePath, ht'.finalMerklePath, hd, shippedBytes_append, hnone, Option.or_none]
  · rw [ht.depth0, ht'.depth0, hd, shippedBytes_append, hnone, Option.or_none]

theorem Disciplined.step (h : Disciplined p n s m) (hacc : Accepted p n s'.delivered)
    (hfirst : ExecuteE2First s.delivered) (hs : HonestStep n s s') : ∃ m', Disciplined p n s' m' := by
  obtain ⟨m', r, hf⟩ := h.tracks.follows_of_accepted ha hn hacc hs
  obtain ⟨new, hnew, hreq⟩ := hf.requests
  have ht := h.tracks
  have hsame : ∀ o ∈ m.emitted, s.ps.requestOf n o = s'.ps.requestOf n o := by
    intro o ho
    have hpos := ht.mirrors.inv.level_pos o ho
    refine requestOf_congr ht.mirrors hf.tracks.mirrors hpos ?_
    rcases Bool.eq_false_or_eq_true m.known with hk | hk
    · right
      refine ⟨?_, ht.payloads_of_top ha hn hf.tracks hf.delivered hs ho⟩
      cases hf.move with
      | arrive v i b _ _ _ => rfl
      | learn _ hb =>
        rw [known, hb] at hk
        exact absurd hk Bool.false_ne_true
      | evm _ _ => rfl
    · left
      obtain ⟨v, hv⟩ := Nat.exists_eq_succ_of_ne_zero hpos.ne'
      obtain ⟨⟨_, hi, hw, _⟩, _⟩ := (ht.mirrors.inv.emitted_iff v o.index).mp ⟨o, ho, by rw [Order.node, hv]⟩
      have h0 := hw 0 (FoldTree.groupLen_pos (plan_fan_pos ha n) hi)
      cases v with
      | zero => exact hv
      | succ v => exact absurd (ht.got_none_of_unknown hfirst hk v _) h0
  refine ⟨m', hf.tracks, ?_, ?_⟩
  · rw [hreq, h.requests, hnew, List.map_append, List.map_congr_left hsame]
  · intro g hg v i
    cases hf.move with
    | arrive u j b _ _ _ => exact h.before g hg v i
    | learn _ hb =>
      obtain rfl : m.got = g := Option.some.inj hg
      exact ht.got_none_of_unknown hfirst (by rw [known, hb]; rfl) v i
    | evm _ _ => exact h.before g hg v i

theorem disciplined_of_run (h : HonestRun p n s) (hacc : Accepted p n s.delivered)
    (hfirst : ExecuteE2First s.delivered) : ∃ m, Disciplined p n s m := by
  induction h with
  | refl =>
    exact ⟨_, tracks_start ha hn, rfl, fun g hg => absurd hg (Option.some_ne_none g).symm⟩
  | tail _ hs ih =>
    obtain ⟨r, hd⟩ := hs.delivered
    obtain ⟨m, hm⟩ := ih (by rw [hd] at hacc; exact hacc.of_append) (by rw [hd] at hfirst; exact hfirst.of_append)
    exact hm.step ha hn hacc (by rw [hd] at hfirst; exact hfirst.of_append) hs

/-- A complete disciplined run has built the whole tree. -/
theorem Disciplined.all_got (h : Disciplined p n s m) (hc : Complete n s) {v i : Nat}
    (hv : v ≤ (p.plan n).top) (hi : i < (p.plan n).width v) : m.got v i ≠ none := by
  have ht := h.tracks
  refine all_got_of_quiet (plan_wellFormed ha hn) ht.mirrors.inv ⟨?_, ?_⟩ (ht.executeE2.mp hc.executeE2) ?_ hv hi
  · exact fun i hi => (ht.apps i).mp (hc.apps i hi)
  · intro o ho hg
    obtain ⟨q, hq, he⟩ := List.mem_filterMap.mp ((ht.outstanding_iff o).mpr ⟨ho, hg⟩)
    have := hc.answered q hq
    cases q <;> simp [GeneralProveRequest.isEvm, orderOf] at this he
  · rintro v _ i hi' ⟨hle, _, g, hg, hw⟩
    have hpos : 0 < v := Nat.lt_of_lt_of_le (Nat.succ_pos _) hle
    obtain ⟨u, rfl⟩ := Nat.exists_eq_succ_of_ne_zero hpos.ne'
    exact hw 0 (FoldTree.groupLen_pos (plan_fan_pos ha n) hi') (h.before g hg u _)

end

def GeneralProveRequest.isFinal : GeneralProveRequest → Bool
  | .internalProve q => q.isFinalProof
  | _ => false

/-- `q` is the one final request of the run and `st` the answer to it. -/
structure FinalProofDiscipline (p : TreeParams) (n : Nat) (s : TreeState) (q : InternalProveRequest)
    (st : InternalProofState) : Prop where
  final_once : s.emitted.filter (·.isFinal) = [.internalProve q]
  layer : q.layerIdx = max (numInternalLayersForLeafCount (divCeil n p.leafArity) p.internalArity) 2 - 1
  index : internalKey p (.internalProve q) = some (q.layerIdx, 0)
  covers : q.segmentStart = 0 ∧ q.segmentEnd = n - 1
  tail_iff : q.deferralTail.isSome ↔ 0 < p.deferralCircuitCount
  tail_path : ∀ t, q.deferralTail = some t →
    t.finalMerklePathBytes = (shippedBytes (·.finalMerklePathBytes) s.delivered).getD []
  depth0 : q.deferralMerkleProofsBytes = shippedBytes (·.deferralMerkleProofsBytes) s.delivered
  others : ∀ q', .internalProve q' ∈ s.emitted → q' ≠ q →
    q'.deferralTail = none ∧ q'.deferralMerkleProofsBytes = none
  slot : s.ps.finalInternalState = some st
  answer : ∃ r, .internal r ∈ s.delivered ∧ r.state = st ∧ Answers (.internalProve q) (.internal r)
  evm : s.emitted.filter (·.isEvm) = if p.context.proofType = .evm then [evmRequest p st] else []

private theorem filter_eq_singleton {α κ : Type} {f : α → Bool} {g : α → κ} {l : List α} {a : α}
    (hnd : (l.map g).Nodup) (ha : a ∈ l) (hf : f a = true) (h : ∀ x ∈ l, f x = true → g x = g a) :
    l.filter f = [a] := by
  induction l with
  | nil => exact absurd ha List.not_mem_nil
  | cons x l ih =>
    rw [List.map_cons, List.nodup_cons] at hnd
    rcases List.mem_cons.mp ha with rfl | ha
    · rw [List.filter_cons_of_pos hf]
      refine congrArg _ (List.filter_eq_nil_iff.mpr fun y hy hfy => hnd.1 ?_)
      rw [← h y (List.mem_cons_of_mem a hy) hfy]
      exact List.mem_map_of_mem hy
    · have hx : ¬ f x = true := by
        intro hfx
        rw [h x List.mem_cons_self hfx] at hnd
        exact hnd.1 (List.mem_map_of_mem ha)
      rw [List.filter_cons_of_neg hx]
      exact ih hnd.2 ha fun y hy => h y (List.mem_cons_of_mem x hy)

theorem buildDeferralTailDispatch_isSome {ps : ProofState} (hm : Mirrors p n ps m) (hk : m.known = true)
    (l : Nat) : (ps.buildDeferralTailDispatch l).isSome ↔ 0 < p.deferralCircuitCount := by
  rw [buildDeferralTailDispatch, hm.numSegments_of_known hk, hm.deferralCircuitCount]
  by_cases h : p.deferralCircuitCount = 0
  · simp [h]
  · simp [h, Nat.pos_of_ne_zero h]

private theorem finalMerklePath_of_dispatch {ps : ProofState} {l : Nat} {t : DeferralTailDispatch}
    (h : ps.buildDeferralTailDispatch l = some t) :
    t.finalMerklePathBytes = ps.deferralFinalMerklePathBytes.getD [] := by
  rw [buildDeferralTailDispatch] at h
  split at h
  · cases h
  · cases hn : ps.numSegments with
    | none => rw [hn] at h; cases h
    | some k =>
      rw [hn] at h
      rw [← Option.some.inj h]

section
variable (ha : Arities p.leafArity p.internalArity) (hn : 0 < n) (h : Disciplined p n s m)
  (hk : m.known = true)
include ha hn h hk

private theorem Disciplined.isFinal_iff {o : Order ProofBytes} (ho : o ∈ m.emitted) :
    (s.ps.requestOf n o).isFinal = true ↔ o.node = ((p.plan n).top, 0) := by
  have ht := h.tracks
  obtain ⟨level, index, children⟩ := o
  have hpos := ht.mirrors.inv.level_pos _ ho
  match level, hpos with
  | 1, _ => simp [requestOf, leafRequest, GeneralProveRequest.isFinal, Order.node, TreeParams.plan]
  | l + 2, _ =>
    rw [ht.mirrors.requestOf_internal, hk]
    simp only [internalRequest, GeneralProveRequest.isFinal, Bool.true_and, beq_iff_eq, Order.node,
      TreeParams.plan, Prod.mk.injEq, Nat.add_right_cancel_iff]
    refine (and_iff_left_of_imp fun hl => ?_).symm
    have hidx := ((ht.mirrors.inv.emitted_iff (l + 1) index).mp ⟨_, ho, rfl⟩).1.2.1
    have hw := width_top ha hn (p := p)
    rw [← hl] at hw
    exact Nat.lt_one_iff.mp (hw ▸ hidx)

theorem Disciplined.filter_isFinal {o : Order ProofBytes} (ho : o ∈ m.emitted)
    (hnode : o.node = ((p.plan n).top, 0)) :
    s.emitted.filter (·.isFinal) = [s.ps.requestOf n o] := by
  have hsplit : s.emitted.filter (·.isFinal) = (s.emitted.filter (! ·.isEvm)).filter (·.isFinal) := by
    rw [List.filter_filter]
    refine List.filter_congr fun q _ => ?_
    cases q <;> simp [GeneralProveRequest.isFinal, GeneralProveRequest.isEvm]
  have hone : m.emitted.filter ((·.isFinal) ∘ s.ps.requestOf n) = [o] := by
    refine filter_eq_singleton h.tracks.mirrors.inv.nodup ho ((h.isFinal_iff ha hn hk ho).mpr hnode) ?_
    intro x hx hf
    rw [hnode]
    exact (h.isFinal_iff ha hn hk hx).mp hf
  rw [hsplit, h.requests, List.filter_map, hone]
  rfl

omit hk in
private theorem Disciplined.root_stored (htop : m.got (p.finalLayer n + 2) 0 ≠ none) :
    ∃ st, s.ps.internalProofs ⟨p.finalLayer n, 0⟩ = some st ∧ st.segmentStart = 0 ∧ st.segmentEnd = n - 1 := by
  obtain ⟨b, hb⟩ := Option.ne_none_iff_exists'.mp htop
  have hslot := h.tracks.mirrors.slots (p.finalLayer n + 2) 0
  rw [hb, nodeSlot, Option.map_some] at hslot
  obtain ⟨st, hst, he⟩ := Option.map_eq_some_iff.mp hslot
  simp only [Prod.mk.injEq] at he
  refine ⟨st, hst, ?_, ?_⟩
  · rw [he.2.1, FoldTree.first, Nat.zero_mul]
  · rw [he.2.2, FoldTree.last_of_width_one (plan_fan_pos ha n) (width_top ha hn)]

omit ha hn hk in
private theorem Disciplined.payload_of_not_final {q : InternalProveRequest} (hq : .internalProve q ∈ s.emitted)
    (hf : q.isFinalProof = false) : q.deferralTail = none ∧ q.deferralMerkleProofsBytes = none := by
  have hmem : .internalProve q ∈ s.emitted.filter (! ·.isEvm) := List.mem_filter.mpr ⟨hq, rfl⟩
  rw [h.requests] at hmem
  obtain ⟨o, ho, he⟩ := List.mem_map.mp hmem
  obtain ⟨level, index, children⟩ := o
  match level, h.tracks.mirrors.inv.level_pos _ ho with
  | 1, _ => cases he
  | l + 2, _ =>
    rw [h.tracks.mirrors.requestOf_internal] at he
    obtain rfl := GeneralProveRequest.internalProve.inj he
    simp only at hf
    simp [hf]

omit ha hn in
/-- The EVM step of a complete run. -/
theorem Disciplined.evms (hacc : Accepted p n s.delivered) {st : InternalProofState}
    (hst : s.ps.internalProofs ⟨p.finalLayer n, 0⟩ = some st) :
    s.emitted.filter (·.isEvm) = if p.context.proofType = .evm then [evmRequest p st] else [] := by
  obtain ⟨g, hg⟩ := Option.isSome_iff_exists.mp hk
  have hnone : g (p.plan n).top 0 = none := h.before g hg (p.finalLayer n + 1) 0
  rw [h.tracks.evms, evmOrders, hst]
  by_cases ht : p.context.proofType = .evm
  · obtain ⟨hl, _, r, hr, rfl⟩ := h.tracks.stored _ _ st hst
    simp [ht, hg, hnone, hacc.ready ht r hr hl]
  · simp [ht]

end

end

/-- In every complete run that delivers ExecuteE2 before the recursion results, one final
request is sent, for the root; it alone carries the deferral payloads, its answer fills the
slot that finalization reads, and an Evm proof sends one EVM step with that answer. -/
theorem finalProof_of_honestRun {p : TreeParams} {n : Nat} (ha : Arities p.leafArity p.internalArity)
    (hn : 0 < n) {s : TreeState} (h : HonestRun p n s) (hfirst : ExecuteE2First s.delivered)
    (hacc : Accepted p n s.delivered) (hc : Complete n s) : ∃ q st, FinalProofDiscipline p n s q st := by
  obtain ⟨m, hd⟩ := disciplined_of_run ha hn h hacc hfirst
  have ht := hd.tracks
  have hm := ht.mirrors
  have hk := ht.executeE2.mp hc.executeE2
  have htop : m.got (p.finalLayer n + 2) 0 ≠ none :=
    hd.all_got ha hn hc (le_refl (p.plan n).top) (by
      show 0 < FoldTree.width (p.plan n).fan n (p.finalLayer n + 2)
      rw [width_top ha hn]
      exact Nat.one_pos)
  obtain ⟨o, ho, hnode⟩ := hm.inv.got_ordered (p.finalLayer n + 1) 0 htop
  have hfinal := hd.filter_isFinal ha hn hk ho hnode
  obtain ⟨level, index, children⟩ := o
  obtain ⟨rfl, rfl⟩ := Prod.mk.inj hnode
  have hreq : s.ps.requestOf n ⟨p.finalLayer n + 1 + 1, 0, children⟩ =
      s.ps.internalRequest (p.finalLayer n) children 0 (n - 1) true := by
    rw [hm.requestOf_internal, hk, FoldTree.first, Nat.zero_mul,
      FoldTree.last_of_width_one (plan_fan_pos ha n) (width_top ha hn)]
    simp
  rw [hreq] at hfinal
  obtain ⟨st, hst, hstart, hend⟩ := hd.root_stored ha hn htop
  obtain ⟨hl, hproof, r, hr, rfl⟩ := ht.stored _ _ st hst
  refine ⟨_, r.state, hfinal, rfl, ?_, ⟨rfl, rfl⟩, ?_, ?_, ?_, ?_, ?_, ⟨r, hr, rfl, ?_⟩, hd.evms hk hacc hst⟩
  · have hidx : segmentStartToInternalIdxWithBatch (FoldTree.first (p.plan n).fan (p.finalLayer n + 2) 0)
        (p.finalLayer n) p.leafArity p.internalArity = 0 := segmentStartToInternalIdx_first ha _ 0
    rw [FoldTree.first, Nat.zero_mul] at hidx
    rw [internalKey, hidx]
  · exact buildDeferralTailDispatch_isSome hm hk _
  · intro t h
    rw [← ht.finalMerklePath]
    exact finalMerklePath_of_dispatch h
  · exact ht.depth0
  · intro q' hq' hne
    refine hd.payload_of_not_final hq' ?_
    by_contra hf
    have hmem : .internalProve q' ∈ s.emitted.filter (·.isFinal) :=
      List.mem_filter.mpr ⟨hq', Bool.not_eq_false _ ▸ hf⟩
    rw [hfinal] at hmem
    exact hne (GeneralProveRequest.internalProve.inj (List.mem_singleton.mp hmem))
  · rw [finalInternalState, hm.numSegments_of_known hk]
    simp only [hm.effectiveFinalLayer_eq]
    exact hst
  · exact ⟨hl, hstart, hend, hproof⟩

/-- Within the word every run on the machine takes what comes next, and once complete has its final proof. -/
theorem finalProof_of_wordRun {p : TreeParams} {n : Nat} (ha : Arities p.leafArity p.internalArity) (hn : 0 < n)
    (hw : p.WithinWord n) {overflowChecks : Bool} {s : TreeState} (h : WordRun overflowChecks p n s)
    (hfirst : ExecuteE2First s.delivered) (hacc : Accepted p n s.delivered) :
    TakesAll overflowChecks n s ∧ (Complete n s → ∃ q st, FinalProofDiscipline p n s q st) := by
  have hrun := h.honest ha hn hw
  exact ⟨hrun.takesAll ha hn hw overflowChecks, finalProof_of_honestRun ha hn hrun hfirst hacc⟩

theorem executeE2First_uneven : ExecuteE2First unevenRun.delivered :=
  @executeE2First_of_early [sampleApp 0, sampleE2 5, sampleApp 1, sampleApp 2, sampleApp 3, sampleApp 4]
    [sampleLeaves 0 1, sampleLeaves 2 3, sampleLeaves 4 4, sampleInternal 0 0 3, sampleInternal 0 4 4,
      sampleInternal 1 0 4] (by decide) (by decide)

theorem complete_uneven : Complete 5 unevenRun := ⟨by decide, by decide, by decide⟩

/-- The uneven run sends its final request over the full group and the one that is not. -/
theorem finalProof_unevenRun : ∃ q st, FinalProofDiscipline unevenParams 5 unevenRun q st := by
  have hrun := wordRun_uneven false
  exact (finalProof_of_wordRun ⟨by decide, by decide⟩ (by decide) unevenParams_withinWord hrun executeE2First_uneven
    (accepted_of_withinLimits (by decide))).2 complete_uneven

/-- The scale of the final layer wraps to zero, so its answer ends in a division by zero and fills no slot. -/
theorem finalProof_fails : ¬ ∀ (p : TreeParams) (n : Nat) (s : TreeState), Arities p.leafArity p.internalArity →
    0 < n → WordRun false p n s → ExecuteE2First s.delivered → Accepted p n s.delivered →
    TakesAll false n s ∧ (Complete n s → ∃ q st, FinalProofDiscipline p n s q st) := by
  intro hall
  obtain ⟨s, hplay, hdelivered, hrest, hfault⟩ : ∃ s, (TreeState.start (halfWordParams 1)).wordPlay 1
      [sampleE2 1, sampleApp 0, sampleLeaf 0, sampleInternal 0 0 0] = some s ∧
      s.delivered = [sampleE2 1, sampleApp 0] ++ [sampleLeaf 0, sampleInternal 0 0 0] ∧
      s.restAfter 1 (sampleInternal 1 0 0) = some [] ∧
      s.wordDeliver false [] 0 ⟨0, "", sampleInternal 1 0 0⟩ = .error .divisionByZero := ⟨_, rfl, rfl, rfl, rfl⟩
  have h := hall (halfWordParams 1) 1 s ⟨by decide, by decide⟩ Nat.one_pos (TreeState.wordRun_of_play .refl hplay)
    (hdelivered ▸ executeE2First_of_early (by decide) (by decide))
    (hdelivered ▸ accepted_of_withinLimits (by decide))
  exact TreeState.not_takesAll hrest hfault h.1

end EdgeProver
