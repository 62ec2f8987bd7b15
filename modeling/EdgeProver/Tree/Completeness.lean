import EdgeProver.Tree.FinalProof

/-! Which complete runs reach the end of the tree, with the ExecuteE2 result at any position. -/
namespace EdgeProver
open FoldMachine FoldMachine.State Gather ProofState

def ExecuteE2Last (rs : List ProofResult) : Prop := ∃ r, rs.getLast? = some (.executeE2 r)

section
variable {p : TreeParams} {n : Nat} {s s' : TreeState} {m m' : State ProofBytes}

/-- What was there when the segment count was learned, against what is there now. -/
structure Arrivals (p : TreeParams) (n : Nat) (s : TreeState) (m : State ProofBytes)
    (g : Nat → Nat → Option ProofBytes) : Prop where
  closed : Closed (p.plan n) g
  last : ExecuteE2Last s.delivered → g = m.got
  later : ¬ ExecuteE2Last s.delivered → ∃ v i, g v i = none ∧ m.got v i ≠ none

private theorem executeE2Last_append {rs : List ProofResult} {r : ProofResult} :
    ExecuteE2Last (rs ++ [r]) ↔ r.isExecuteE2 = true := by
  rw [ExecuteE2Last, List.getLast?_concat]
  cases r <;> simp [ProofResult.isExecuteE2]

/-- The EVM step is only sent for a final proof that came after the segment count. -/
theorem Tracks.fresh_of_evm (ht : Tracks p n s m) (h : evmOrders p n s.ps m ≠ []) :
    ∃ g, m.before = some g ∧ g (p.plan n).top 0 = none ∧ m.got (p.plan n).top 0 ≠ none := by
  obtain ⟨st, hst, _, _, hk⟩ := evmOrders_ne_nil h
  obtain ⟨g, hg⟩ := Option.isSome_iff_exists.mp hk
  refine ⟨g, hg, ?_, ?_⟩
  · by_contra hne
    rw [evmOrders, hst, hg] at h
    simp only [Option.any_some, Option.isNone_iff_eq_none, hne, false_and, and_false, if_false] at h
    exact h rfl
  · rw [ht.got_top_of_final hst]
    exact Option.some_ne_none _

/-- One delivery after the ExecuteE2 result brings something new. -/
theorem Arrivals.step {r : ProofResult} (ht : Tracks p n s m)
    (harr : ∀ g, m.before = some g → Arrivals p n s m g) (hf : Follows p n s s' m m' r)
    {g : Nat → Nat → Option ProofBytes} (hg : m'.before = some g) : Arrivals p n s' m' g := by
  have hlast : ExecuteE2Last s'.delivered ↔ r.isExecuteE2 = true := by
    rw [hf.delivered]
    exact executeE2Last_append
  cases hf.move with
  | arrive v i b hr hnew haw =>
    refine ⟨(harr g hg).closed, fun hl => ?_, fun _ => ⟨v, i, ?_, ?_⟩⟩
    · rw [hlast, hr] at hl
      exact absurd hl Bool.false_ne_true
    · by_contra hne
      have hsub := ht.mirrors.inv.before_sub g hg v i hne
      rw [hnew] at hsub
      exact hne hsub.symm
    · exact put_ne_none_iff.mpr (.inl rfl)
  | learn hr hb =>
    obtain rfl : m.got = g := Option.some.inj hg
    refine ⟨closed_got ht.mirrors.inv, fun _ => rfl, fun hl => ?_⟩
    exact absurd (hlast.mpr hr) hl
  | evm hr hevm =>
    refine ⟨(harr g hg).closed, fun hl => ?_, fun _ => ?_⟩
    · rw [hlast, hr] at hl
      exact absurd hl Bool.false_ne_true
    · obtain ⟨e, he⟩ := Option.isSome_iff_exists.mp hevm
      have hne := (hf.tracks.evm_proof e he).2
      rw [hf.tracks.evms] at hne
      obtain ⟨g', hg', hnone, hgot⟩ := hf.tracks.fresh_of_evm hne
      obtain rfl := Option.some.inj (hg.symm.trans hg')
      exact ⟨_, 0, hnone, hgot⟩

variable (ha : Arities p.leafArity p.internalArity) (hn : 0 < n)
include ha hn

theorem arrivals_of_run (h : HonestRun p n s) (hacc : Accepted p n s.delivered) :
    ∃ m, Tracks p n s m ∧ ∀ g, m.before = some g → Arrivals p n s m g := by
  induction h with
  | refl => exact ⟨_, tracks_start ha hn, fun g hg => absurd hg (Option.some_ne_none g).symm⟩
  | tail _ hs ih =>
    obtain ⟨r, hd⟩ := hs.delivered
    obtain ⟨m, ht, harr⟩ := ih (by rw [hd] at hacc; exact hacc.of_append)
    obtain ⟨m', r, hf⟩ := ht.follows_of_accepted ha hn hacc hs
    exact ⟨m', hf.tracks, fun g hg => Arrivals.step ht harr hf hg⟩

omit hn in
/-- A node that covers a whole level and only segments that exist pins down their number. -/
theorem items_of_full {u : Nat} (hw : FoldTree.width (p.plan n).fan n u = 1)
    (hsize : (0 + 1) * FoldTree.size (p.plan n).fan u ≤ n) : n = FoldTree.size (p.plan n).fan u := by
  rw [FoldTree.width_eq (plan_fan_pos ha n)] at hw
  have hle := (ceilDiv_le_iff_le_mul (FoldTree.size_pos (plan_fan_pos ha n) u)).mp hw.le
  omega

/-- A complete run has the root, unless the tree has one layer, all of it full, and the
ExecuteE2 result came last. -/
theorem got_top_or_stalled (ht : Tracks p n s m) {g : Nat → Nat → Option ProofBytes}
    (hg : m.before = some g) (harr : Arrivals p n s m g) (hc : Complete n s) :
    m.got (p.plan n).top 0 ≠ none ∨
      n = p.leafArity * p.internalArity ∧ ExecuteE2Last s.delivered := by
  by_contra hcon
  rw [not_or, not_not, not_and] at hcon
  obtain ⟨htop, hstall⟩ := hcon
  have wf := plan_wellFormed (n := n) ha hn
  have hinv := ht.mirrors.inv
  refine all_got_of_quiet wf hinv ⟨?_, ?_⟩ (ht.executeE2.mp hc.executeE2) ?_ (le_refl (p.plan n).top) ?_ htop
  · exact fun i hi => (ht.apps i).mp (hc.apps i hi)
  · intro o ho hnone
    obtain ⟨q, hq, he⟩ := List.mem_filterMap.mp ((ht.outstanding_iff o).mpr ⟨ho, hnone⟩)
    have := hc.answered q hq
    cases q <;> simp [GeneralProveRequest.isEvm, orderOf] at this he
  · -- the only level that the search leaves out is the one under an extra wrap layer
    rintro v hv i hi ⟨hle, _, g', hg', hw⟩
    obtain rfl := Option.some.inj (hg.symm.trans hg')
    have hL := numLayers_pos ha hn
    have h1 : p.numLayers n = 1 ∧ v = 2 := by
      simp only [TreeParams.plan, TreeParams.finalLayer] at hle hv
      omega
    obtain ⟨h1, rfl⟩ := h1
    have hw2 : (p.plan n).width 2 = 1 := by
      have := width_layers ha hn
      rwa [h1] at this
    have hi0 : i = 0 := by
      have hw3 : (p.plan n).width 3 = 1 := FoldTree.width_succ_of_one (plan_fan_pos ha n) hw2
      have hi3 : i < (p.plan n).width 3 := hi
      omega
    rw [hi0] at hw hi
    have hg2 : g 2 0 ≠ none := by
      have := hw 0 (FoldTree.groupLen_pos (plan_fan_pos ha n) hi)
      rwa [Nat.zero_mul] at this
    have hn' : n = p.leafArity * p.internalArity := by
      have := items_of_full ha hw2 (hinv.before_full g hg 2 0 hg2)
      rwa [TreeParams.plan, size_layer, Nat.pow_one] at this
    obtain ⟨u, j, hnone, hgot⟩ := harr.later (hstall hn')
    obtain ⟨hu, hj⟩ := hinv.got_valid u j hgot
    have hu2 : u ≤ 2 := by
      by_contra hgt
      have htop3 : (p.plan n).top = 3 := by
        simp only [TreeParams.plan, TreeParams.finalLayer, h1]
        rfl
      have hu3 : u = (p.plan n).top := by omega
      have hj0 : j = 0 := by
        have hw3 := width_top ha hn
        rw [hu3] at hj
        exact Nat.lt_one_iff.mp (hw3 ▸ hj)
      rw [hu3, hj0] at hgot
      exact hgot htop
    exact all_got_of_got wf harr.closed hw2 hg2 hu2 hj hnone
  · show 0 < FoldTree.width (p.plan n).fan n (p.finalLayer n + 2)
    rw [width_top ha hn]
    exact Nat.one_pos

omit ha hn in
/-- Finalization reads the root, for a Stark proof. -/
theorem ready_iff_got_top (ht : Tracks p n s m) (hk : m.known = true)
    (htype : p.context.proofType = .stark) :
    s.ps.isReadyForFinalization = true ↔ m.got (p.plan n).top 0 ≠ none := by
  have hslot := ht.mirrors.proof_of_slot (p.finalLayer n + 2) 0
  rw [nodeSlot, Option.map_map] at hslot
  rw [isReadyForFinalization, ht.mirrors.context, htype]
  simp only [finalInternalProofPresent, ht.mirrors.numSegments_of_known hk, ht.mirrors.effectiveFinalLayer_eq]
  rw [← Option.isSome_iff_ne_none, TreeParams.plan, ← hslot, Option.isSome_map]

omit ha hn in
theorem evm_emitted_iff (ht : Tracks p n s m) (hacc : Accepted p n s.delivered)
    (htype : p.context.proofType = .evm) {g : Nat → Nat → Option ProofBytes} (hg : m.before = some g) :
    (∃ q, .evmProve q ∈ s.emitted) ↔ g (p.plan n).top 0 = none ∧ m.got (p.plan n).top 0 ≠ none := by
  have hmem : (∃ q, .evmProve q ∈ s.emitted) ↔ evmOrders p n s.ps m ≠ [] := by
    rw [← ht.evms, ← List.isEmpty_eq_false_iff, List.isEmpty_eq_false_iff_exists_mem]
    constructor
    · rintro ⟨q, hq⟩
      exact ⟨_, List.mem_filter.mpr ⟨hq, rfl⟩⟩
    · rintro ⟨q, hq⟩
      obtain ⟨hq, he⟩ := List.mem_filter.mp hq
      cases q with
      | evmProve q => exact ⟨q, hq⟩
      | leafProve q => exact absurd he Bool.false_ne_true
      | internalProve q => exact absurd he Bool.false_ne_true
  rw [hmem]
  constructor
  · intro hne
    obtain ⟨g', hg', h1, h2⟩ := ht.fresh_of_evm hne
    obtain rfl := Option.some.inj (hg.symm.trans hg')
    exact ⟨h1, h2⟩
  · rintro ⟨h1, h2⟩
    obtain ⟨b, hb⟩ := Option.ne_none_iff_exists'.mp h2
    have hslot := ht.mirrors.slots (p.finalLayer n + 2) 0
    have hb' : m.got (p.finalLayer n + 2) 0 = some b := hb
    rw [hb', nodeSlot, Option.map_some] at hslot
    obtain ⟨st, hst, _⟩ := Option.map_eq_some_iff.mp hslot
    obtain ⟨hl, _, r, hr, rfl⟩ := ht.stored _ _ st hst
    rw [evmOrders, hst]
    simp [htype, hg, h1, hacc.ready htype r hr hl]

end

/-- A complete run ends with the final artifact of the tree exactly when the ExecuteE2 result
is not the last one of a full tree: of a one-layer tree for a Stark proof, of any tree for
the EVM step of an Evm proof. -/
theorem completeness_of_honestRun {p : TreeParams} {n : Nat} (ha : Arities p.leafArity p.internalArity)
    (hn : 0 < n) {s : TreeState} (h : HonestRun p n s) (hacc : Accepted p n s.delivered)
    (hc : Complete n s) :
    (p.context.proofType = .stark → (s.ps.isReadyForFinalization = true ↔
      ¬ (n = p.leafArity * p.internalArity ∧ ExecuteE2Last s.delivered))) ∧
    (p.context.proofType = .evm → ((∃ q, .evmProve q ∈ s.emitted) ↔
      ¬ ((∃ k, 0 < k ∧ n = p.leafArity * p.internalArity ^ k) ∧ ExecuteE2Last s.delivered))) := by
  obtain ⟨m, ht, harr⟩ := arrivals_of_run ha hn h hacc
  have hk := ht.executeE2.mp hc.executeE2
  obtain ⟨g, hg⟩ := Option.isSome_iff_exists.mp hk
  have hinv := ht.mirrors.inv
  have hga := harr g hg
  have hstall := got_top_or_stalled ha hn ht hg hga hc
  have hfull : g (p.plan n).top 0 ≠ none → n = p.leafArity * p.internalArity ^ (p.finalLayer n + 1) := by
    intro htop
    have := items_of_full ha (width_top ha hn) (hinv.before_full g hg _ 0 htop)
    rwa [TreeParams.plan, size_layer] at this
  constructor
  · intro htype
    rw [ready_iff_got_top ht hk htype]
    refine ⟨?_, fun hno => hstall.resolve_right hno⟩
    rintro htop ⟨hsize, hlast⟩
    -- the root was there before the count, so it covers more segments than there are
    rw [← hga.last hlast] at htop
    have hpow := hfull htop
    have h2 := ha.two_le_internal
    have hF : p.finalLayer n = 0 := by
      have hla := ha.leaf_pos
      have hinj := Nat.eq_of_mul_eq_mul_left hla (hsize.symm.trans hpow)
      have := Nat.pow_right_injective h2 ((Nat.pow_one p.internalArity).trans hinj)
      omega
    simp only [TreeParams.finalLayer] at hF
    omega
  · intro htype
    rw [evm_emitted_iff ht hacc htype hg]
    refine ⟨?_, fun hno => ?_⟩
    · rintro ⟨h1, h2⟩ ⟨-, hlast⟩
      rw [hga.last hlast] at h1
      exact h2 h1
    · have htop : m.got (p.plan n).top 0 ≠ none :=
        hstall.resolve_right fun hs => hno ⟨⟨1, Nat.one_pos, by rw [Nat.pow_one]; exact hs.1⟩, hs.2⟩
      refine ⟨?_, htop⟩
      by_contra hne
      have hlater : ¬ ExecuteE2Last s.delivered := fun hl => hno ⟨⟨_, Nat.succ_pos _, hfull hne⟩, hl⟩
      obtain ⟨v, i, hnone, hgot⟩ := hga.later hlater
      obtain ⟨hv, hi⟩ := hinv.got_valid v i hgot
      exact all_got_of_got (plan_wellFormed ha hn) hga.closed (width_top ha hn) hne hv hi hnone

/-- Two segments, one leaf each, one internal proof over both, and ExecuteE2 at the end. -/
def stalledRun : TreeState :=
  (((((TreeState.start (sampleParams .stark)).feed (sampleApp 0)).feed (sampleApp 1)).answer
    (sampleLeaf 0)).answer (sampleLeaf 1)).answer (sampleInternal 0 0 1)

theorem honestRun_stalled : HonestRun (sampleParams .stark) 2 (stalledRun.feed (sampleE2 2)) := by
  have h0 : HonestRun (sampleParams .stark) 2 _ := .refl
  have h1 := (h0.app (i := 0) (by decide) (by decide)).app (i := 1) (by decide) (by decide)
  have h2 := h1.answer (r := sampleLeaf 0) ⟨_, rfl, rfl, rfl, rfl⟩
  have h3 := h2.answer (r := sampleLeaf 1) ⟨_, rfl, rfl, rfl, rfl⟩
  have h4 := h3.answer (r := sampleInternal 0 0 1) ⟨_, rfl, rfl, rfl, rfl, rfl⟩
  exact h4.executeE2 (by decide)

end EdgeProver
