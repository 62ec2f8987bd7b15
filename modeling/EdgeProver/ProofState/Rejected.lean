import EdgeProver.ProofState.Frame

/-! Results whose handling fails, and what they leave behind. -/
namespace EdgeProver

namespace ProofState

/-- The recursion tree, as the results fill it, is the same. -/
structure SameTree (ps ps' : ProofState) : Prop where
  numSegments : ps'.numSegments = ps.numSegments
  appProofs : ps'.appProofs = ps.appProofs
  leafProofs : ps'.leafProofs = ps.leafProofs
  internalProofs : ps'.internalProofs = ps.internalProofs
  evmProof : ps'.evmProof = ps.evmProof

def internalSlot (ps : ProofState) (state : InternalProofState) : InternalProofIndex :=
  ⟨state.layerIdx, segmentStartToInternalIdxWithBatch state.segmentStart state.layerIdx ps.leafArity ps.internalArity⟩

/-- A new final internal proof that is not ready for the EVM step of its Evm proof. -/
inductive RawFinal (ps : ProofState) : ProofResult → Prop
  | mk (r : InternalProof) (n : Nat) (hopen : ps.isSealedForResults = false) (hevm : ps.context.proofType = .evm)
      (hknown : ps.numSegments = some n) (hproof : r.state.proof.isSome = true) (hstart : r.state.segmentStart < n)
      (hend : r.state.segmentEnd < n) (hlayer : r.state.layerIdx = ps.effectiveFinalLayer n)
      (hraw : r.state.readyForEvm = false) (hnew : ps.internalProofs (ps.internalSlot r.state) = none) :
      RawFinal ps (.internal r)

/-- If the handling failed, the tree is as before, and every later result is handled as if nothing had come. -/
def RejectsCleanly {α : Type} (ps : ProofState) (out : ProofState × Except String α) : Prop :=
  ∀ e, out.2 = .error e → ps.SameTree out.1 ∧
    ∀ later, (out.1.handleProofResult later).2 = (ps.handleProofResult later).2 ∧
      SameTree (ps.handleProofResult later).1 (out.1.handleProofResult later).1

def afterResults (ps : ProofState) (results : List ProofResult) : ProofState :=
  results.foldl (fun ps result => (ps.handleProofResult result).1) ps

end ProofState

section
variable (ps : ProofState)

private theorem ProofState.handleExecuteE2Result_ok (r : ExecuteE2Result) :
    ∃ requests, (ps.handleExecuteE2Result r).2 = .ok requests := by
  unfold handleExecuteE2Result
  dsimp only
  (repeat' split) <;> exact ⟨_, rfl⟩

private theorem ProofState.handleAppResult_ok (r : AppProof) : ∃ requests, (ps.handleAppResult r).2 = .ok requests := by
  unfold handleAppResult
  dsimp only
  (repeat' split) <;> exact ⟨_, rfl⟩

private theorem ProofState.handleLeafResult_ok (r : LeafProof) :
    ∃ requests, (ps.handleLeafResult r).2 = .ok requests := by
  unfold handleLeafResult
  dsimp only
  (repeat' split) <;> exact ⟨_, rfl⟩

private theorem ProofState.handleHalo2Result_ok (r : EvmProof) :
    ∃ requests, (ps.handleHalo2Result r).2 = .ok requests := by
  unfold handleHalo2Result
  dsimp only
  (repeat' split) <;> exact ⟨_, rfl⟩

end

/-- A new final internal proof fails the step that would dispatch its EVM step. -/
theorem afterInternalInsert_error_iff {ps : ProofState} {state : InternalProofState} {idx : Nat} :
    (∃ e, ps.afterInternalInsert state idx = .error e) ↔ ∃ n, ps.context.proofType = .evm ∧
      ps.numSegments = some n ∧ state.layerIdx = ps.effectiveFinalLayer n ∧ state.readyForEvm = false := by
  constructor
  · rintro ⟨e, h⟩
    unfold ProofState.afterInternalInsert at h
    dsimp only at h
    split at h
    · cases h
    · rename_i n hn
      split at h
      · rename_i hlayer
        unfold ProofState.finalInternalFollowUp at h
        split at h
        · rename_i htype
          split at h
          · rename_i hready
            exact ⟨n, htype, hn, hlayer, by simpa using hready⟩
          · cases h
        · cases h
      · split at h
        · cases h
        · split at h <;> cases h
  · rintro ⟨n, htype, hn, hlayer, hraw⟩
    simp only [ProofState.afterInternalInsert, hn, hlayer, if_true, ProofState.finalInternalFollowUp, htype, hraw,
      Bool.not_false]
    exact ⟨_, rfl⟩

/-- A new internal proof within the segments is stored before anything else is checked. -/
theorem handleProofResult_new {ps : ProofState} {r : InternalProof} {n : Nat} (hopen : ps.isSealedForResults = false)
    (hn : ps.numSegments = some n) (hproof : r.state.proof.isSome = true) (hstart : r.state.segmentStart < n)
    (hend : r.state.segmentEnd < n) (hnew : ps.internalProofs (ps.internalSlot r.state) = none) :
    let inserted := { ps with
      internalProofs := Function.update ps.internalProofs (ps.internalSlot r.state) (some r.state) }
    ps.handleProofResult (.internal r) =
      (inserted, inserted.afterInternalInsert r.state (ps.internalSlot r.state).idx) := by
  intro inserted
  rw [ProofState.handleProofResult_internal hopen, ProofState.handleInternalResult]
  dsimp only
  rw [if_neg (by simpa [Option.isNone_iff_eq_none, ← Option.isSome_iff_ne_none] using hproof),
    if_neg (by simpa [hn] using ⟨hstart, hend⟩), if_neg (by simpa [ProofState.internalSlot] using hnew)]
  rfl

/-- Handling fails for nothing else, and the slot is filled by then. -/
theorem handleProofResult_error_iff {ps : ProofState} {result : ProofResult} :
    (∃ e, (ps.handleProofResult result).2 = .error e) ↔ ps.RawFinal result := by
  have hnot {handled : Handled} (hok : ∃ requests, handled.2 = .ok requests) : ¬ ∃ e, handled.2 = .error e := by
    rintro ⟨e, herror⟩
    obtain ⟨requests, hrequests⟩ := hok
    rw [hrequests] at herror
    cases herror
  constructor
  · intro h
    cases hsealed : ps.isSealedForResults with
    | true =>
      refine absurd h (hnot ⟨[], ?_⟩)
      unfold ProofState.handleProofResult
      rw [if_pos hsealed]
    | false =>
      cases result with
      | error r =>
        refine absurd h (hnot ⟨[], ?_⟩)
        unfold ProofState.handleProofResult
        rw [if_neg (by simp [hsealed])]
      | app r => exact absurd (ProofState.handleProofResult_app hsealed r ▸ h) (hnot (ps.handleAppResult_ok r))
      | leaf r => exact absurd (ProofState.handleProofResult_leaf hsealed r ▸ h) (hnot (ps.handleLeafResult_ok r))
      | evm r => exact absurd (ProofState.handleProofResult_evm hsealed r ▸ h) (hnot (ps.handleHalo2Result_ok r))
      | executeE2 r =>
        rcases le_or_gt r.state.cost ps.costLimit with hcost | hcost
        · exact absurd (ProofState.handleProofResult_executeE2 hsealed hcost ▸ h) (hnot (ps.handleExecuteE2Result_ok r))
        · exact absurd h (hnot ⟨[], by rw [ProofState.handleProofResult_cost hsealed hcost]⟩)
      | internal r =>
        obtain ⟨e, h⟩ := h
        rw [ProofState.handleProofResult_internal hsealed] at h
        simp only [ProofState.handleInternalResult] at h
        split at h
        · cases h
        · rename_i hproof
          split at h
          · cases h
          · rename_i hbounds
            split at h
            · cases h
            · rename_i hnew
              obtain ⟨n, htype, hn, hlayer, hraw⟩ := afterInternalInsert_error_iff.mp ⟨e, h⟩
              simp only [show ps.numSegments = some n from hn, Option.any_some, Bool.or_eq_true, decide_eq_true_eq,
                not_or, not_le, ge_iff_le] at hbounds
              exact .mk r n hsealed htype hn (by simpa [Option.isSome_iff_ne_none] using hproof) hbounds.1 hbounds.2
                hlayer hraw (by simpa [ProofState.internalSlot] using hnew)
  · rintro ⟨r, n, hopen, htype, hn, hproof, hstart, hend, hlayer, hraw, hnew⟩
    rw [handleProofResult_new hopen hn hproof hstart hend hnew]
    exact afterInternalInsert_error_iff.mpr ⟨n, htype, hn, hlayer, hraw⟩

theorem ProofState.RawFinal.is_internal {ps : ProofState} {result : ProofResult} (h : ps.RawFinal result) :
    ∃ r n, result = .internal r ∧ ps.context.proofType = .evm ∧ ps.numSegments = some n ∧
      r.state.layerIdx = ps.effectiveFinalLayer n ∧ r.state.readyForEvm = false := by
  obtain ⟨r, n, -, hevm, hknown, -, -, -, hlayer, hraw, -⟩ := h
  exact ⟨r, n, rfl, hevm, hknown, hlayer, hraw⟩

private theorem internalProofs_of_rawFinal {ps : ProofState} {r : InternalProof} (h : ps.RawFinal (.internal r)) :
    (ps.handleProofResult (.internal r)).1.internalProofs (ps.internalSlot r.state) = some r.state := by
  obtain ⟨_, n, hopen, -, hn, hproof, hstart, hend, -, -, hnew⟩ := h
  rw [handleProofResult_new hopen hn hproof hstart hend hnew]
  exact Function.update_self _ _ _

theorem ProofState.SameTree.refl (ps : ProofState) : ps.SameTree ps := ⟨rfl, rfl, rfl, rfl, rfl⟩

private theorem rawFinal_touch {ps : ProofState} {now : Time} {result : ProofResult} :
    ProofState.RawFinal { ps with lastUpdated := now } result ↔ ps.RawFinal result :=
  ⟨fun ⟨r, n, hopen, hevm, hknown, hproof, hstart, hend, hlayer, hraw, hnew⟩ =>
      ⟨r, n, hopen, hevm, hknown, hproof, hstart, hend, hlayer, hraw, hnew⟩,
    fun ⟨r, n, hopen, hevm, hknown, hproof, hstart, hend, hlayer, hraw, hnew⟩ =>
      ⟨r, n, hopen, hevm, hknown, hproof, hstart, hend, hlayer, hraw, hnew⟩⟩

/-- An outcome that fails with the raw final proofs only, and then has taken the slot, is clean for all others. -/
private theorem rejectsCleanly_iff {α : Type} {ps : ProofState} {result : ProofResult}
    {out : ProofState × Except String α} (herror : (∃ e, out.2 = .error e) ↔ ps.RawFinal result)
    (hslot : ∀ r, result = .internal r → ps.RawFinal result →
      out.1.internalProofs (ps.internalSlot r.state) = some r.state) :
    ps.RejectsCleanly out ↔ ¬ ps.RawFinal result := by
  constructor
  · intro hclean hraw
    obtain ⟨e, he⟩ := herror.mpr hraw
    have htree := (hclean e he).1.internalProofs
    cases result with
    | internal r =>
      have htaken := hslot r rfl hraw
      obtain ⟨_, n, -, -, -, -, -, -, -, -, hnew⟩ := hraw
      rw [htree, hnew] at htaken
      cases htaken
    | _ => cases hraw
  · intro hraw e he
    exact absurd (herror.mp ⟨e, he⟩) hraw

section
variable {ps : ProofState} {now : Time} {envelope : MessageEnvelope ProofResult}

private theorem not_rawFinal_of_sealed (h : ps.isSealedForResults = true) {result : ProofResult} :
    ¬ ps.RawFinal result := by
  rintro ⟨r, n, hopen, -⟩
  rw [h] at hopen
  cases hopen

private theorem outcome_error_iff :
    (∃ e, (ps.handleProofResultWithEnvelopeOutcome now envelope).2 = .error e) ↔ ps.RawFinal envelope.message := by
  unfold ProofState.handleProofResultWithEnvelopeOutcome
  split
  · rename_i hsealed
    refine iff_of_false ?_ (not_rawFinal_of_sealed hsealed)
    rintro ⟨e, he⟩
    cases he
  · have htouch : ProofState.RawFinal { ps with lastUpdated := now } envelope.message ↔ ps.RawFinal envelope.message :=
      rawFinal_touch
    rw [← htouch, ← handleProofResult_error_iff]
    split <;> rename_i heq <;> simp [heq]

private theorem withEnvelope_fst : (ps.handleProofResultWithEnvelope now envelope).1 =
    (ps.handleProofResultWithEnvelopeOutcome now envelope).1 := by
  unfold ProofState.handleProofResultWithEnvelope
  split <;> rename_i heq <;> rw [heq]

private theorem withEnvelope_error_iff : (∃ e, (ps.handleProofResultWithEnvelope now envelope).2 = .error e) ↔
    ∃ e, (ps.handleProofResultWithEnvelopeOutcome now envelope).2 = .error e := by
  unfold ProofState.handleProofResultWithEnvelope
  split <;> rename_i heq <;> simp [heq]

private theorem outcome_slot {r : InternalProof} (hr : envelope.message = .internal r)
    (hraw : ps.RawFinal envelope.message) :
    (ps.handleProofResultWithEnvelopeOutcome now envelope).1.internalProofs (ps.internalSlot r.state) =
      some r.state := by
  rw [ProofState.handleEnvelope_eq, if_neg fun hsealed => not_rawFinal_of_sealed hsealed hraw]
  rw [hr] at hraw ⊢
  exact internalProofs_of_rawFinal (rawFinal_touch.mpr hraw)

end

/-- For every state and every result, by each way in: a failed handling leaves the tree as it was, so that every
later result is handled as if the failed one had never come, exactly unless the result is a new final internal
proof of an Evm proof that is not ready for the EVM step. -/
theorem rejects_cleanly_iff (ps : ProofState) (now : Time) (envelope : MessageEnvelope ProofResult) :
    (ps.RejectsCleanly (ps.handleProofResult envelope.message) ↔ ¬ ps.RawFinal envelope.message) ∧
    (ps.RejectsCleanly (ps.handleProofResultWithEnvelope now envelope) ↔ ¬ ps.RawFinal envelope.message) ∧
    (ps.RejectsCleanly (ps.handleProofResultWithEnvelopeOutcome now envelope) ↔ ¬ ps.RawFinal envelope.message) := by
  refine ⟨rejectsCleanly_iff handleProofResult_error_iff fun r hr hraw => ?_,
    rejectsCleanly_iff (withEnvelope_error_iff.trans outcome_error_iff) fun r hr hraw => ?_,
    rejectsCleanly_iff outcome_error_iff fun r hr hraw => outcome_slot hr hraw⟩
  · rw [hr] at hraw ⊢
    exact internalProofs_of_rawFinal hraw
  · rw [withEnvelope_fst]
    exact outcome_slot hr hraw

/-- A proof as it starts with a leaf arity of four and an internal arity of three. -/
def startedProof (proofType : ProofType) : ProofState :=
  .new 0 ⟨"proof", ⟨"program", 1⟩, [], proofType⟩ 1000000 4 4 3 300

def finalInternal (proofType : ProofType) (readyForEvm : Bool) : ProofResult :=
  .internal ⟨⟨"proof", ⟨"program", 1⟩, [], proofType⟩, ⟨some [1], 1, 0, 3, none, readyForEvm⟩⟩

def fourSegments (proofType : ProofType) : ProofResult :=
  .executeE2 ⟨⟨"proof", ⟨"program", 1⟩, [], proofType⟩, ⟨4, [], 0⟩⟩

/-- The raw final proof keeps the slot, and the ready one that comes after it is dropped as a duplicate. -/
theorem rejects_cleanly_fails : ¬ ∀ (now : Time) (context : ProofContext) (costLimit numWorkers leafArity internalArity
    timeoutSecs : Nat) (results : List ProofResult) (result : ProofResult),
    let ps := (ProofState.new now context costLimit numWorkers leafArity internalArity timeoutSecs).afterResults results
    ps.RejectsCleanly (ps.handleProofResult result) := by
  intro hall
  have hclean := hall 0 ⟨"proof", ⟨"program", 1⟩, [], .evm⟩ 1000000 4 4 3 300 [fourSegments .evm]
    (finalInternal .evm false)
  have hraw : ((startedProof .evm).afterResults [fourSegments .evm]).RawFinal (finalInternal .evm false) :=
    .mk _ 4 (by decide) rfl rfl rfl (by decide) (by decide) (by decide) rfl (by decide)
  obtain ⟨e, he⟩ := handleProofResult_error_iff.mpr hraw
  have hlater := ((hclean e he).2 (finalInternal .evm true)).1
  revert hlater
  decide

end EdgeProver
