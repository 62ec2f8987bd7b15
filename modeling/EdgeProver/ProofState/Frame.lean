import EdgeProver.ProofState.ResultHandler

/-! What handling a result leaves alone, whatever the result. -/
namespace EdgeProver
namespace ProofState

/-- The fields that no result touches, and what may become of the status. -/
structure Frame (ps ps' : ProofState) : Prop where
  context : ps'.context = ps.context
  lastUpdated : ps'.lastUpdated = ps.lastUpdated
  proofStartTime : ps'.proofStartTime = ps.proofStartTime
  timeoutSecs : ps'.timeoutSecs = ps.timeoutSecs
  leafArity : ps'.leafArity = ps.leafArity
  internalArity : ps'.internalArity = ps.internalArity
  deferralCircuitCount : ps'.deferralCircuitCount = ps.deferralCircuitCount
  persistedFinalProofPath : ps'.persistedFinalProofPath = ps.persistedFinalProofPath
  status : ps'.status = ps.status ∨ ∃ reason, ps'.status = .failing reason

theorem Frame.refl (ps : ProofState) : Frame ps ps := ⟨rfl, rfl, rfl, rfl, rfl, rfl, rfl, rfl, .inl rfl⟩

section
variable (ps : ProofState)

private theorem frame_handleErrorResult (r : ErrorResult) : Frame ps (ps.handleErrorResult r) :=
  ⟨rfl, rfl, rfl, rfl, rfl, rfl, rfl, rfl, .inr ⟨_, rfl⟩⟩

private theorem frame_handleExecuteE2Result (r : ExecuteE2Result) : Frame ps (ps.handleExecuteE2Result r).1 := by
  unfold handleExecuteE2Result
  dsimp only
  split
  · exact .refl ps
  · split
    · exact ⟨rfl, rfl, rfl, rfl, rfl, rfl, rfl, rfl, .inr ⟨_, rfl⟩⟩
    · exact ⟨rfl, rfl, rfl, rfl, rfl, rfl, rfl, rfl, .inl rfl⟩

private theorem frame_handleAppResult (r : AppProof) : Frame ps (ps.handleAppResult r).1 := by
  unfold handleAppResult
  dsimp only
  split
  · exact ⟨rfl, rfl, rfl, rfl, rfl, rfl, rfl, rfl, .inr ⟨_, rfl⟩⟩
  · split
    · exact .refl ps
    · split
      · exact ⟨rfl, rfl, rfl, rfl, rfl, rfl, rfl, rfl, .inl rfl⟩
      · split <;> exact ⟨rfl, rfl, rfl, rfl, rfl, rfl, rfl, rfl, .inl rfl⟩

private theorem frame_handleLeafResult (r : LeafProof) : Frame ps (ps.handleLeafResult r).1 := by
  unfold handleLeafResult
  dsimp only
  split
  · exact ⟨rfl, rfl, rfl, rfl, rfl, rfl, rfl, rfl, .inr ⟨_, rfl⟩⟩
  · split
    · exact .refl ps
    · split
      · exact ⟨rfl, rfl, rfl, rfl, rfl, rfl, rfl, rfl, .inl rfl⟩
      · split <;> exact ⟨rfl, rfl, rfl, rfl, rfl, rfl, rfl, rfl, .inl rfl⟩

private theorem frame_handleInternalResult (r : InternalProof) : Frame ps (ps.handleInternalResult r).1 := by
  unfold handleInternalResult
  dsimp only
  split
  · exact ⟨rfl, rfl, rfl, rfl, rfl, rfl, rfl, rfl, .inr ⟨_, rfl⟩⟩
  · split
    · exact .refl ps
    · split <;> exact ⟨rfl, rfl, rfl, rfl, rfl, rfl, rfl, rfl, .inl rfl⟩

private theorem frame_handleHalo2Result (r : EvmProof) : Frame ps (ps.handleHalo2Result r).1 := by
  unfold handleHalo2Result
  dsimp only
  split
  · exact ⟨rfl, rfl, rfl, rfl, rfl, rfl, rfl, rfl, .inr ⟨_, rfl⟩⟩
  · split
    · exact ⟨rfl, rfl, rfl, rfl, rfl, rfl, rfl, rfl, .inr ⟨_, rfl⟩⟩
    · split
      · exact .refl ps
      · exact ⟨rfl, rfl, rfl, rfl, rfl, rfl, rfl, rfl, .inl rfl⟩

/-- A result may fail the proof; no other status comes out of it. -/
theorem frame_handleProofResult (result : ProofResult) : Frame ps (ps.handleProofResult result).1 := by
  unfold handleProofResult
  split
  · exact .refl ps
  · cases result with
    | error r => exact frame_handleErrorResult ps r
    | executeE2 r =>
      simp only
      split
      · exact ⟨rfl, rfl, rfl, rfl, rfl, rfl, rfl, rfl, .inr ⟨_, rfl⟩⟩
      · exact frame_handleExecuteE2Result ps r
    | app r => exact frame_handleAppResult ps r
    | leaf r => exact frame_handleLeafResult ps r
    | internal r => exact frame_handleInternalResult ps r
    | evm r => exact frame_handleHalo2Result ps r

/-- A rejected result never leaves a final artifact behind: only the internal proofs of an Evm proof are rejected. -/
theorem not_ready_of_error {ps : ProofState} {result : ProofResult} {e : String}
    (hready : ps.isReadyForFinalization = false) (herr : (ps.handleProofResult result).2 = .error e) :
    (ps.handleProofResult result).1.isReadyForFinalization = false := by
  unfold handleProofResult at herr ⊢
  split at herr
  · simp at herr
  · rename_i hopen
    rw [if_neg hopen]
    cases result with
    | error r => simp at herr
    | executeE2 r =>
      simp only [handleExecuteE2Result] at herr
      split at herr
      · simp at herr
      · split at herr
        · simp at herr
        · split at herr <;> simp at herr
    | app r =>
      simp only [handleAppResult] at herr
      repeat' split at herr
      all_goals simp at herr
    | leaf r =>
      simp only [handleLeafResult] at herr
      repeat' split at herr
      all_goals simp at herr
    | evm r =>
      simp only [handleHalo2Result] at herr
      repeat' split at herr
      all_goals simp at herr
    | internal r =>
      have hevm : ps.context.proofType = .evm := by
        by_contra hstark
        simp only [handleInternalResult, afterInternalInsert, finalInternalFollowUp, if_neg hstark] at herr
        repeat' split at herr
        all_goals simp at herr
      have hkeep : (ps.handleInternalResult r).1.evmProof = ps.evmProof := by
        simp only [handleInternalResult]
        repeat' split
        all_goals rfl
      have hcontext := (frame_handleInternalResult ps r).context
      simp only [isReadyForFinalization, hevm] at hready
      simp only [isReadyForFinalization, hcontext, hevm, hkeep, hready]

/-- What an envelope leads to: a sealed proof only notes it; otherwise the result is handled, dated `now`. -/
theorem handleEnvelope_eq (now : Time) (envelope : MessageEnvelope ProofResult) :
    (ps.handleProofResultWithEnvelopeOutcome now envelope).1 =
      if ps.isSealedForResults then { ps with lateResultNoticeEmitted := true }
      else (ProofState.handleProofResult { ps with lastUpdated := now } envelope.message).1 := by
  unfold handleProofResultWithEnvelopeOutcome
  split
  · rfl
  · split <;> rename_i heq <;> rw [heq]

end
end ProofState
end EdgeProver
