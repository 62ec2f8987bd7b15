import EdgeProver.Tree.Liveness

/-! The word bound is the condition under which no honest run ends in a fault, and with it the completeness of the
tree on the machine. -/
namespace EdgeProver
open FoldMachine FoldMachine.State MachineInt ProofState

section
variable {p : TreeParams} {n : Nat}

private theorem HonestRun.delivering {s : TreeState} (h : HonestRun p n s) {r : ProofResult} (hr : r ∈ s.delivered) :
    ∃ s' rest, ∃ (envelope : MessageEnvelope ProofResult) (later : List ProofResult), HonestRun p n s' ∧
      Delivery n s' rest envelope.message ∧ envelope.message = r ∧ s.delivered = s'.delivered ++ r :: later := by
  induction h with
  | refl => exact absurd hr List.not_mem_nil
  | @tail s _ hrun hs ih =>
    obtain ⟨rest, now, envelope, hdelivery, rfl⟩ := honestStep_iff.mp hs
    rcases List.mem_append.mp hr with hold | hnew
    · obtain ⟨s', rest', envelope', later, hrun', hdelivery', hmsg, heq⟩ := ih hold
      refine ⟨s', rest', envelope', later ++ [envelope.message], hrun', hdelivery', hmsg, ?_⟩
      have hdelivered : (s.deliver rest now envelope).delivered = s.delivered ++ [envelope.message] := rfl
      rw [hdelivered, heq, List.append_assoc, List.cons_append]
    · obtain rfl := List.mem_singleton.mp hnew
      exact ⟨s, rest, envelope, [], hrun, hdelivery, rfl, rfl⟩

variable (ha : Arities p.leafArity p.internalArity) (hn : 0 < n)
include ha hn

private theorem exists_ready : ∃ s, HonestRun p n s ∧ Accepted p n s.delivered ∧
    s.ps.isReadyForFinalization = true := by
  have hfirst :
    HonestStep n (.start p) ((TreeState.start p).deliver [] 0 ⟨0, "", .executeE2 ⟨p.context, ⟨n, [], 0⟩⟩⟩) :=
    .executeE2 _ 0 ⟨0, "", .executeE2 ⟨p.context, ⟨n, [], 0⟩⟩⟩ _ rfl rfl (by simp [TreeState.start])
  generalize hs : (TreeState.start p).deliver [] 0 ⟨0, "", .executeE2 ⟨p.context, ⟨n, [], 0⟩⟩⟩ = s at hfirst
  have hdelivered : s.delivered = [.executeE2 ⟨p.context, ⟨n, [], 0⟩⟩] := hs ▸ rfl
  have hrun : HonestRun p n s := Relation.ReflTransGen.refl.tail hfirst
  have hacc : Accepted p n s.delivered := hdelivered ▸ accepted_of_withinLimits fun r hr => by
    obtain rfl := List.mem_singleton.mp hr
    exact decide_eq_true (Nat.zero_le p.costLimit)
  obtain ⟨last, hsteps, hstuck⟩ := (acceptedSteps_end ha hn hrun hacc).exists_last
  have hlast : HonestRun p n last ∧ Accepted p n last.delivered ∧ ∃ later, last.delivered = s.delivered ++ later := by
    clear hstuck
    induction hsteps with
    | refl => exact ⟨hrun, hacc, [], (List.append_nil _).symm⟩
    | tail _ hstep ih =>
      obtain ⟨hrun', -, later, hlater⟩ := ih
      obtain ⟨r, hr⟩ := hstep.1.delivered
      exact ⟨hrun'.tail hstep.1, hstep.2, later ++ [r], by rw [hr, hlater, List.append_assoc]⟩
  obtain ⟨hrun', hacc', later, hlater⟩ := hlast
  obtain ⟨hcomplete, hnone⟩ := complete_of_stuck hacc' hstuck
  refine ⟨last, hrun', hacc', ready_of_complete ha hn hrun' hacc' ?_ hcomplete hnone⟩
  intro before r after heq hr
  rw [hlater, hdelivered] at heq
  cases before with
  | nil =>
    obtain ⟨rfl, -⟩ := List.cons.inj heq
    exact absurd hr Bool.false_ne_true
  | cons first before =>
    obtain ⟨rfl, -⟩ := List.cons.inj heq
    exact ⟨_, List.mem_cons_self, rfl⟩

/-- The answer of the final layer is taken on the way to the final artifact. -/
theorem root_delivered {s : TreeState} (h : HonestRun p n s) (hacc : Accepted p n s.delivered)
    (hready : s.ps.isReadyForFinalization = true) : ∃ s' rest,
      ∃ (envelope : MessageEnvelope ProofResult) (r : InternalProof), HonestRun p n s' ∧
      Delivery n s' rest envelope.message ∧ envelope.message = .internal r ∧ r.state.layerIdx = p.finalLayer n ∧
      r.state.proof.isSome = true ∧ (∃ m, Tracks p n s' m) ∧ s'.ps.isSealedForResults = false := by
  obtain ⟨m, ht⟩ := tracks_of_accepted ha hn h hacc
  obtain ⟨hk, htop, -⟩ := ht.known_of_ready hready
  obtain ⟨b, hb⟩ := Option.ne_none_iff_exists'.mp htop
  have hslot := ht.mirrors.slots (p.finalLayer n + 2) 0
  have hb' : m.got (p.finalLayer n + 2) 0 = some b := hb
  rw [hb', nodeSlot, Option.map_some] at hslot
  obtain ⟨st, hst, -⟩ := Option.map_eq_some_iff.mp hslot
  obtain ⟨hlayer, hproof, r, hr, rfl⟩ := ht.stored _ _ st hst
  obtain ⟨s', rest, envelope, later, hrun, hdelivery, hmsg, heq⟩ := h.delivering hr
  have hacc' : Accepted p n s'.delivered := by
    rw [heq] at hacc
    exact hacc.of_append
  obtain ⟨m', ht'⟩ := tracks_of_accepted ha hn hrun hacc'
  refine ⟨s', rest, envelope, r, hrun, hdelivery, hmsg, hlayer, hproof, ⟨m', ht'⟩, ?_⟩
  by_contra hsealed
  have hready' := ht'.ready_of_sealed (by simpa using hsealed)
  exact ht'.no_step_of_ready ha hn hready' (honestStep_iff.mpr ⟨rest, 0, envelope, hdelivery, rfl⟩)

omit ha hn in
private theorem start_open (p : TreeParams) : (TreeState.start p).ps.isSealedForResults = false := by
  refine not_sealed_iff.mpr ⟨rfl, ?_⟩
  have hcontext : (TreeState.start p).ps.context = p.context := rfl
  unfold isReadyForFinalization
  rw [hcontext]
  cases p.context.proofType <;> rfl

variable (hwords : p.Words n)
include hwords

private theorem wordRun_of_takesAll (hall : ∀ s, WordRun true p n s → TakesAll true n s) {s : TreeState}
    (h : HonestRun p n s) : WordRun true p n s := by
  induction h with
  | refl => exact .refl
  | @tail s _ hrun hs ih =>
    obtain ⟨rest, now, envelope, hdelivery, rfl⟩ := honestStep_iff.mp hs
    obtain ⟨s', htaken⟩ := hall s ih rest now envelope hdelivery
    have hsafe := safe_of_wordDeliver ha hn hwords hrun hdelivery htaken
    exact ih.tail ⟨rest, now, envelope, hdelivery, wordDeliver_of_safe ha hn hwords hrun hdelivery hsafe true⟩

private theorem safe_of_takesAll (hall : ∀ s, WordRun true p n s → TakesAll true n s) {s : TreeState}
    (h : HonestRun p n s) {rest : List GeneralProveRequest} {envelope : MessageEnvelope ProofResult}
    (hdelivery : Delivery n s rest envelope.message) : s.ps.Safe 64 envelope.message := by
  obtain ⟨s', htaken⟩ := hall s (wordRun_of_takesAll ha hn hwords hall h) rest 0 envelope hdelivery
  exact safe_of_wordDeliver ha hn hwords h hdelivery htaken

/-- The index of the final layer's answer is worked out from the segments that the root can hold. -/
private theorem root_of_takesAll (hall : ∀ s, WordRun true p n s → TakesAll true n s) :
    p.leafArity * p.internalArity ^ (p.finalLayer n + 1) < 2 ^ 64 := by
  obtain ⟨s, hrun, hacc, hready⟩ := exists_ready ha hn
  obtain ⟨s', rest, envelope, r, hrun', hdelivery, hmsg, hlayer, hproof, ⟨m, ht⟩, hopen⟩ :=
    root_delivered ha hn hrun hacc hready
  have htree := hdelivery.inTree ha hn hrun'
  have htaken := safe_of_takesAll ha hn hwords hall hrun' hdelivery
  rw [hmsg] at htree htaken
  obtain ⟨-, hla, hia⟩ := fits_of_honestRun ha hn hwords hrun' true
  have hbounds : s'.ps.outOfBounds (.internal r) = false := by
    simp only [ProofState.outOfBounds, ht.mirrors.numSegments]
    split <;> simp [htree.2.1, htree.2.2]
  have hpresent : ProofResult.hasProof (.internal r) = true := hproof
  simp only [ProofState.Safe, hopen, hpresent, hbounds, Bool.false_eq_true, Bool.true_eq_false, false_or] at htaken
  obtain ⟨hscale, -⟩ := htaken.resolve_left fun hfilled => hfilled.1 r rfl
  rw [hla, hia, hlayer] at hscale
  calc p.leafArity * p.internalArity ^ (p.finalLayer n + 1)
      = p.internalArity * p.leafArity * p.internalArity ^ p.finalLayer n := by ring
    _ < 2 ^ 64 := hscale

private theorem batch_of_takesAll (hall : ∀ s, WordRun true p n s → TakesAll true n s) :
    HoldsProofs 64 p.leafArity := by
  obtain ⟨envelope, hmsg⟩ : ∃ envelope : MessageEnvelope ProofResult,
      envelope.message = .app ⟨p.context, ⟨some [], 0, none, none⟩⟩ := ⟨⟨0, "", _⟩, rfl⟩
  have hdelivery : Delivery n (.start p) [] envelope.message :=
    hmsg ▸ .app _ hn rfl fun q hq => absurd hq List.not_mem_nil
  have htaken := safe_of_takesAll ha hn hwords hall .refl hdelivery
  rw [hmsg] at htaken
  have hopen := start_open p
  have hfresh : (TreeState.start p).ps.slotFilled (.app ⟨p.context, ⟨some [], 0, none, none⟩⟩) = false := rfl
  have hbounds : (TreeState.start p).ps.outOfBounds (.app ⟨p.context, ⟨some [], 0, none, none⟩⟩) = false := rfl
  have hproof : ProofResult.hasProof (.app ⟨p.context, ⟨some [], 0, none, none⟩⟩) = true := rfl
  simp only [ProofState.Safe, hopen, hfresh, hbounds, hproof, Bool.false_eq_true, Bool.true_eq_false, false_or,
    and_false] at htaken
  have hroom := htaken.2
  have hstart : (0 : Nat) / (TreeState.start p).ps.leafArity * (TreeState.start p).ps.leafArity = 0 := by simp
  rw [hstart] at hroom
  apply hroom.mono
  show p.leafArity ≤ 0 + p.leafArity - 1 + 1 - 0
  omega

/-- The manager takes every delivery of every run on the machine, in every build, exactly within the word. -/
theorem takesAll_iff_withinWord :
    (∀ overflowChecks s, WordRun overflowChecks p n s → TakesAll overflowChecks n s) ↔ p.WithinWord n := by
  constructor
  · intro hall
    exact ⟨root_of_takesAll ha hn hwords (hall true), batch_of_takesAll ha hn hwords (hall true)⟩
  · intro hw overflowChecks s h
    exact (h.honest ha hn hw).takesAll ha hn hw overflowChecks

end

/-- No run on the machine ends in a fault exactly within the word. There a complete run ends with the final artifact of
the tree exactly when the ExecuteE2 result is not the last one of a full tree: of a one-layer tree for a Stark proof, of
any tree for the EVM step of an Evm proof. -/
theorem completeness_iff {p : TreeParams} {n : Nat} (ha : Arities p.leafArity p.internalArity) (hn : 0 < n)
    (hwords : p.Words n) :
    ((∀ overflowChecks s, WordRun overflowChecks p n s → TakesAll overflowChecks n s) ↔ p.WithinWord n) ∧
    (p.WithinWord n → ∀ overflowChecks s, WordRun overflowChecks p n s → Accepted p n s.delivered → Complete n s →
      (p.context.proofType = .stark → (s.ps.isReadyForFinalization = true ↔
        ¬ (n = p.leafArity * p.internalArity ∧ ExecuteE2Last s.delivered))) ∧
      (p.context.proofType = .evm → ((∃ q, .evmProve q ∈ s.emitted) ↔
        ¬ ((∃ k, 0 < k ∧ n = p.leafArity * p.internalArity ^ k) ∧ ExecuteE2Last s.delivered)))) := by
  refine ⟨takesAll_iff_withinWord ha hn hwords, ?_⟩
  intro hw overflowChecks s h hacc hc
  exact completeness_of_honestRun ha hn (h.honest ha hn hw) hacc hc

/-- The uneven run comes to its EVM step, and every run over as many segments is taken to its end. -/
theorem completeness_unevenRun : (∃ q, .evmProve q ∈ unevenRun.emitted) ∧
    ∀ overflowChecks s, WordRun overflowChecks unevenParams 5 s → TakesAll overflowChecks 5 s := by
  have hwords := unevenParams_withinWord.words ⟨by decide, by decide⟩ (by decide)
  have h := completeness_iff (p := unevenParams) ⟨by decide, by decide⟩ (by decide) hwords
  refine ⟨?_, h.1.mpr unevenParams_withinWord⟩
  have hends := h.2 unevenParams_withinWord false unevenRun (wordRun_uneven false)
    (accepted_of_withinLimits (by decide)) complete_uneven
  refine (hends.2 rfl).mpr fun hfull => ?_
  obtain ⟨r, hr⟩ := hfull.2
  have hlast : unevenRun.delivered.getLast? = some (sampleInternal 1 0 4) := by decide
  rw [hlast] at hr
  cases hr

/-- The tree of the stalled run is complete, yet its proof never becomes ready. -/
theorem completeness_fails : ¬ ∀ (p : TreeParams) (n : Nat) (s : TreeState), Arities p.leafArity p.internalArity →
    0 < n → p.context.proofType = .stark → WordRun false p n s → Accepted p n s.delivered → Complete n s →
    s.ps.isReadyForFinalization = true := by
  intro hall
  have hw : (sampleParams .stark).WithinWord 2 := ⟨by decide, by decide⟩
  have hrun : WordRun false _ 2 _ := (wordRun_iff ⟨by decide, by decide⟩ (by decide) hw).mpr honestRun_stalled
  have hready := hall (sampleParams .stark) 2 (stalledRun.feed (sampleE2 2)) ⟨by decide, by decide⟩ (by decide) rfl hrun
    (accepted_of_withinLimits (by decide)) ⟨by decide, by decide, by decide⟩
  exact absurd hready (by decide)

end EdgeProver
