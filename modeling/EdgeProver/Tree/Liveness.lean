import EdgeProver.Lib.Progress
import EdgeProver.Tree.Completeness
import EdgeProver.Tree.PlainProver

/-! Where the runs of a recursion tree end: after how many results, and with what. -/
namespace EdgeProver
open FoldMachine FoldMachine.State Gather ProofState

/-- The results of a finished run: the ExecuteE2 result, the proof of every segment and of every node, and the EVM
proof. -/
def TreeParams.resultCount (p : TreeParams) (n : Nat) : Nat :=
  1 + n + divCeil n p.leafArity + p.internalProofs n + if p.context.proofType = .evm then 1 else 0

/-- The requests of a finished run: one for every node of the tree, and the EVM step. -/
def TreeParams.requestCount (p : TreeParams) (n : Nat) : Nat :=
  divCeil n p.leafArity + p.internalProofs n + if p.context.proofType = .evm then 1 else 0

def TreeParams.answer (p : TreeParams) : GeneralProveRequest → ProofResult
  | .leafProve q => .leaf ⟨p.context, ⟨some [], q.segmentStart, q.segmentEnd⟩⟩
  | .internalProve q => .internal ⟨p.context, ⟨some [], q.layerIdx, q.segmentStart, q.segmentEnd, none, true⟩⟩
  | .evmProve _ => .evm ⟨p.context, ⟨some []⟩⟩

def AcceptedStep (p : TreeParams) (n : Nat) (s s' : TreeState) : Prop := HonestStep n s s' ∧ Accepted p n s'.delivered

theorem ExecuteE2First.concat {rs : List ProofResult} {r : ProofResult} (h : ExecuteE2First rs)
    (hr : r.isRecursion = true → ∃ q ∈ rs, q.isExecuteE2 = true) : ExecuteE2First (rs ++ [r]) := by
  intro before r' after heq hr'
  rcases List.eq_nil_or_concat after with rfl | ⟨init, last, rfl⟩
  · obtain ⟨rfl, hlast⟩ := List.append_inj' heq rfl
    obtain rfl := List.singleton_inj.mp hlast
    exact hr hr'
  · rw [List.concat_eq_append, ← List.cons_append, ← List.append_assoc] at heq
    obtain ⟨heq, -⟩ := List.append_inj' heq rfl
    exact h before r' init heq hr'

section
variable {p : TreeParams} {n : Nat} {s s' : TreeState} {m m' : State ProofBytes}

/-- What has come in: the products of the tree, the segment count and the EVM proof. -/
def received (p : TreeParams) (n : Nat) (s : TreeState) (m : State ProofBytes) : Nat :=
  arrived (p.plan n) m.got + (if m.known then 1 else 0) + if s.ps.evmProof.isSome then 1 else 0

private theorem Tracks.ready_of_evm (ht : Tracks p n s m) (h : s.ps.evmProof.isSome = true) :
    p.context.proofType = .evm ∧ s.ps.isReadyForFinalization = true := by
  obtain ⟨e, he⟩ := Option.isSome_iff_exists.mp h
  obtain ⟨hproof, hne⟩ := ht.evm_proof e he
  rw [ht.evms] at hne
  obtain ⟨-, -, -, htype, -⟩ := evmOrders_ne_nil hne
  refine ⟨htype, ?_⟩
  rw [isReadyForFinalization, ht.mirrors.context, htype]
  simp only [he, Option.bind_some, hproof]

private theorem Follows.evm_kept (hf : Follows p n s s' m m' r) (hs : HonestStep n s s')
    (hlive : s.ps.isSealedForResults = false) :
    s'.ps.evmProof = s.ps.evmProof ∨ ∃ q, r = .evm q := by
  obtain ⟨rest, now, envelope, rfl⟩ := hs.deliver
  have hr : envelope.message = r := by
    have hdelivered : s.delivered ++ [envelope.message] = s.delivered ++ [r] := hf.delivered
    exact List.singleton_inj.mp (List.append_cancel_left hdelivered)
  have hps : (s.deliver rest now envelope).ps = (s.ps.handleProofResultWithEnvelopeOutcome now envelope).1 := rfl
  rw [hps, handleEnvelope_eq, hlive, if_neg Bool.false_ne_true, hr]
  rcases evmProof_handleProofResult { s.ps with lastUpdated := now } r with hkept | ⟨q, hq, -⟩
  · exact .inl hkept
  · exact .inr ⟨q, hq⟩

variable (ha : Arities p.leafArity p.internalArity) (hn : 0 < n)

private theorem sum_width (ha : Arities p.leafArity p.internalArity) :
    ((List.range' 0 ((p.plan n).top + 1)).map (p.plan n).width).sum =
      n + divCeil n p.leafArity + p.internalProofs n := by
  have hrange : List.range' 0 ((p.plan n).top + 1) = 0 :: 1 :: List.range' 2 (p.finalLayer n + 1) := rfl
  have hitems : (p.plan n).width 0 = n := rfl
  have hleaves : (p.plan n).width 1 = divCeil n p.leafArity := (leafCount_eq ha).symm
  rw [hrange, List.map_cons, List.map_cons, List.sum_cons, List.sum_cons, hitems, hleaves, TreeParams.internalProofs]
  omega

/-- No more is requested than the tree has nodes, and the EVM step. -/
theorem Tracks.emitted_le (ha : Arities p.leafArity p.internalArity) (ht : Tracks p n s m) :
    s.emitted.length ≤ p.requestCount n := by
  have hnodes : m.emitted.length ≤ divCeil n p.leafArity + p.internalProofs n := by
    have hsub : m.emitted.map Order.node ⊆ levelNodes (p.plan n) 1 (p.plan n).top := by
      intro node hnode
      obtain ⟨o, ho, rfl⟩ := List.mem_map.mp hnode
      obtain ⟨hv, hi⟩ := awaited_valid ht.mirrors.inv (.inr ⟨o, ho, rfl, rfl⟩)
      have hpos := ht.mirrors.inv.level_pos o ho
      exact mem_levelNodes.mpr ⟨⟨hpos, by omega⟩, hi⟩
    have hlength := (List.subperm_of_subset ht.mirrors.inv.nodup hsub).length_le
    have hsum : n + ((List.range' 1 (p.plan n).top).map (p.plan n).width).sum =
        n + divCeil n p.leafArity + p.internalProofs n := sum_width ha
    rw [List.length_map, length_levelNodes] at hlength
    omega
  have horders : s.emitted.countP (!·.isEvm) = m.emitted.length := by
    rw [← ht.orders, List.length_filterMap_eq_countP]
    refine List.countP_congr fun q _ => ?_
    cases q <;> simp [orderOf, GeneralProveRequest.isEvm]
  have hevm : s.emitted.countP (·.isEvm) ≤ if p.context.proofType = .evm then 1 else 0 := by
    by_cases htype : p.context.proofType = .evm
    · rw [if_pos htype]
      exact ht.evm_once
    · have hnone : evmOrders p n s.ps m = [] := by
        by_contra hne
        obtain ⟨-, -, -, hevm, -⟩ := evmOrders_ne_nil hne
        exact htype hevm
      rw [if_neg htype, List.countP_eq_length_filter, ht.evms, hnone, List.length_nil]
  have hall := List.length_eq_countP_add_countP (·.isEvm) (l := s.emitted)
  have hothers : s.emitted.countP (fun q => decide ¬ q.isEvm = true) = s.emitted.countP (!·.isEvm) :=
    List.countP_congr fun q _ => by simp
  unfold TreeParams.requestCount
  omega

include ha hn

private theorem received_step (ht : Tracks p n s m) (hs : AcceptedStep p n s s') :
    ∃ m', Tracks p n s' m' ∧ received p n s' m' = received p n s m + 1 := by
  obtain ⟨m', r, hf⟩ := ht.follows_of_accepted ha hn hs.2 hs.1
  have hlive : s.ps.isSealedForResults = false :=
    Bool.eq_false_iff.mpr fun hseal => ht.no_step_of_ready ha hn (ht.ready_of_sealed hseal) hs.1
  have hnone : s.ps.evmProof = none := by
    by_contra hsome
    have hready := (ht.ready_of_evm (Option.isSome_iff_ne_none.mpr hsome)).2
    exact ht.no_step_of_ready ha hn hready hs.1
  have hkept := hf.evm_kept hs.1 hlive
  refine ⟨m', hf.tracks, ?_⟩
  unfold received
  rw [hnone]
  cases hf.move with
  | arrive v i b hr hnew hawaited =>
    have hevm : s'.ps.evmProof = none := by
      rcases hkept with hkept | ⟨q, rfl⟩
      · rw [hkept, hnone]
      · -- an EVM result is no node's
        have hproofs := hf.tracks.proofs v i
        rw [hf.delivered, nodeProofOf_skip p _ (.inr ⟨q, rfl⟩), ht.proofs, hnew] at hproofs
        cases hproofs.trans (put_self m.got v i b)
    obtain ⟨hv, hi⟩ := awaited_valid ht.mirrors.inv hawaited
    have harrived : arrived (p.plan n) (m.arrive (p.plan n) v i b).got = arrived (p.plan n) m.got + 1 :=
      arrived_put b hnew hv hi
    have hknown : (m.arrive (p.plan n) v i b).known = m.known := rfl
    rw [harrived, hknown, hevm]
    omega
  | learn hr hb =>
    have hevm : s'.ps.evmProof = none := by
      rcases hkept with hkept | ⟨q, rfl⟩
      · rw [hkept, hnone]
      · cases hr
    have hunknown : m.known = false := by rw [known, hb]; rfl
    have hknown : (m.learn (p.plan n)).known = true := rfl
    have hgot : (m.learn (p.plan n)).got = m.got := rfl
    rw [hevm, hunknown, hknown, hgot]
    rfl
  | evm hr hevm =>
    rw [hevm]
    rfl

private theorem received_of_run (h : HonestRun p n s) (hacc : Accepted p n s.delivered) :
    ∃ m, Tracks p n s m ∧ s.delivered.length = received p n s m := by
  induction h with
  | refl =>
    refine ⟨_, tracks_start ha hn, ?_⟩
    have hnothing : arrived (p.plan n) (State.init : State ProofBytes).got = 0 := by
      rw [arrived, List.countP_eq_zero]
      exact fun node _ => Bool.false_ne_true
    rw [received, hnothing]
    rfl
  | tail _ hs ih =>
    obtain ⟨r, hd⟩ := hs.delivered
    obtain ⟨m, ht, hlength⟩ := ih (by rw [hd] at hacc; exact hacc.of_append)
    obtain ⟨m', ht', hmore⟩ := received_step ha hn ht ⟨hs, hacc⟩
    refine ⟨m', ht', ?_⟩
    rw [hd, List.length_append, hlength, hmore]
    rfl

omit hn in
private theorem received_le (ht : Tracks p n s m) : received p n s m ≤ p.resultCount n := by
  have harrived := arrived_le (P := p.plan n) m.got
  rw [sum_width ha] at harrived
  unfold received TreeParams.resultCount
  by_cases hevm : s.ps.evmProof.isSome = true
  · rw [if_pos hevm, if_pos (ht.ready_of_evm hevm).1]
    split <;> omega
  · rw [if_neg hevm]
    split <;> omega

omit ha hn in
theorem answers_answer (p : TreeParams) (req : GeneralProveRequest) :
    Answers req (p.answer req) ∧ (p.answer req).withinLimits p = true := by
  cases req with
  | leafProve q => exact ⟨⟨rfl, rfl, rfl⟩, rfl⟩
  | internalProve q => exact ⟨⟨rfl, rfl, rfl, rfl⟩, rfl⟩
  | evmProve q => exact ⟨rfl, rfl⟩

omit ha hn in
/-- A run that cannot go on is complete, its EVM step included. -/
theorem complete_of_stuck (hacc : Accepted p n s.delivered) (hstuck : ∀ s', ¬ AcceptedStep p n s s') :
    Complete n s ∧ s.outstanding = [] := by
  have hgo : ∀ {rest : List GeneralProveRequest} {r : ProofResult}, r.withinLimits p = true →
      HonestStep n s (s.deliver rest 0 ⟨0, "", r⟩) → False := by
    intro rest r hr hs
    refine hstuck _ ⟨hs, hacc.append (accepted_of_withinLimits ?_)⟩
    intro r' hr'
    obtain rfl := List.mem_singleton.mp hr'
    exact hr
  have hnone : s.outstanding = [] := by
    by_contra hne
    obtain ⟨req, rest, hreq⟩ := List.exists_cons_of_ne_nil hne
    obtain ⟨hans, hlimits⟩ := answers_answer p req
    exact hgo hlimits (.answer s 0 ⟨0, "", p.answer req⟩ [] rest req hreq hans)
  refine ⟨⟨?_, ?_, ?_⟩, hnone⟩
  · by_contra hno
    have hcost : (ProofResult.executeE2 ⟨p.context, ⟨n, [], 0⟩⟩).withinLimits p = true :=
      decide_eq_true (Nat.zero_le p.costLimit)
    refine hgo hcost (.executeE2 s 0 _ ⟨p.context, ⟨n, [], 0⟩⟩ rfl rfl fun q hq => ?_)
    exact Bool.eq_false_iff.mpr fun he => hno ⟨q, hq, he⟩
  · intro i hi
    by_contra hno
    refine hgo (r := .app ⟨p.context, ⟨some [], i, none, none⟩⟩) rfl
      (.app s 0 _ ⟨p.context, ⟨some [], i, none, none⟩⟩ rfl hi rfl fun q hq he => ?_)
    exact hno ⟨q, hq, he⟩
  · rw [hnone]
    exact fun q hq => absurd hq List.not_mem_nil

/-- A tree that has taken everything has the final artifact, where the ExecuteE2 result came first. -/
theorem ready_of_complete (hs : HonestRun p n s) (hacc : Accepted p n s.delivered)
    (hfirst : ExecuteE2First s.delivered) (hc : Complete n s) (hnone : s.outstanding = []) :
    s.ps.isReadyForFinalization = true := by
  obtain ⟨m, ht⟩ := tracks_of_accepted ha hn hs hacc
  obtain ⟨q, st, hfpd⟩ := finalProof_of_honestRun ha hn hs hfirst hacc hc
  have hcontext := ht.mirrors.context
  cases htype : p.context.proofType with
  | stark =>
    have hslot := hfpd.slot
    rw [ProofState.isReadyForFinalization, hcontext, htype]
    unfold ProofState.finalInternalState at hslot
    unfold ProofState.finalInternalProofPresent
    split at hslot
    · exact Option.isSome_iff_exists.mpr ⟨st, hslot⟩
    · simp at hslot
  | evm =>
    refine (ht.ready_of_evm ?_).2
    by_contra hno
    have hout := ht.evm_outstanding
    rw [hnone, if_neg hno, hfpd.evm, if_pos htype] at hout
    simp at hout

end

/-- Every run of accepted results ends: each of them brings one thing more. -/
theorem acceptedSteps_end {p : TreeParams} {n : Nat} {s : TreeState} (ha : Arities p.leafArity p.internalArity)
    (hn : 0 < n) (h : HonestRun p n s) (hacc : Accepted p n s.delivered) : Progress.Ends (AcceptedStep p n) s := by
  refine @Progress.ends_of_rank _ _ (fun s => HonestRun p n s ∧ Accepted p n s.delivered)
    (fun s => p.resultCount n - s.delivered.length) ?_ ?_ s ⟨h, hacc⟩
  · exact fun s next hinv hstep => ⟨hinv.1.tail hstep.1, hstep.2⟩
  · intro s next hinv hstep
    obtain ⟨r, hd⟩ := hstep.1.delivered
    obtain ⟨m, ht, hlength⟩ := received_of_run ha hn (hinv.1.tail hstep.1) hstep.2
    have hle := received_le ha ht
    rw [hd, List.length_append, List.length_singleton] at hlength
    rw [hd, List.length_append, List.length_singleton]
    omega

end EdgeProver
