import EdgeProver.ProofState.MachineHandlers

/-! Which runs of results the manager gets through without a fault. -/
namespace EdgeProver
open MachineInt

/-- The word of the manager's machine, in a build with overflow checks or without. -/
def usize (overflowChecks : Bool) : Target := ⟨64, overflowChecks⟩

namespace Machine
section
variable {t : Target} {fuel : Nat} {ps : ProofState} (h : Fits t fuel ps)
include h

private theorem fits_handleAppResult (r : AppProof) : Fits t fuel (ps.handleAppResult r).1 := by
  unfold ProofState.handleAppResult
  dsimp only
  split
  · exact { h with }
  · split
    · exact h
    · split
      · exact { h with }
      · split <;> exact { h with }

private theorem fits_handleLeafResult (r : LeafProof) : Fits t fuel (ps.handleLeafResult r).1 := by
  unfold ProofState.handleLeafResult
  dsimp only
  split
  · exact { h with }
  · rename_i hproof
    split
    · exact h
    · split
      · exact fits_leaf h hproof
      · split <;> exact fits_leaf h hproof

private theorem fits_handleInternalResult (r : InternalProof) : Fits t fuel (ps.handleInternalResult r).1 := by
  unfold ProofState.handleInternalResult
  dsimp only
  split
  · exact { h with }
  · rename_i hproof
    split
    · exact h
    · split <;> exact fits_internal h hproof _

private theorem fits_handleHalo2Result (r : EvmProof) : Fits t fuel (ps.handleHalo2Result r).1 := by
  unfold ProofState.handleHalo2Result
  dsimp only
  split
  · exact { h with }
  · split
    · exact { h with }
    · split
      · exact h
      · exact { h with }

private theorem fits_handleExecuteE2Result {r : ExecuteE2Result} (hr : ProofResult.Decodable t.bits (.executeE2 r)) :
    Fits t fuel (ps.handleExecuteE2Result r).1 := by
  unfold ProofState.handleExecuteE2Result
  dsimp only
  split
  · exact h
  · split
    · exact { h with }
    · rename_i hzero
      exact { h with count := fun n hn => Option.some.inj hn ▸ ⟨Nat.pos_of_ne_zero hzero, hr⟩ }

private theorem fits_handleProofResult {result : ProofResult} (hr : result.Decodable t.bits) :
    Fits t fuel (ps.handleProofResult result).1 := by
  unfold ProofState.handleProofResult
  split
  · exact h
  · cases result with
    | error r => exact { h with }
    | executeE2 r =>
      dsimp only
      split
      · exact { h with }
      · exact fits_handleExecuteE2Result h hr
    | app r => exact fits_handleAppResult h r
    | leaf r => exact fits_handleLeafResult h r
    | internal r => exact fits_handleInternalResult h r
    | evm r => exact fits_handleHalo2Result h r

omit h in
private theorem checkReadiness_run {handled : Handled} (hfits : Fits t fuel handled.1) :
    checkReadiness t fuel handled = .ok handled := by
  unfold checkReadiness
  split
  · rfl
  · rw [isReadyForFinalization_run hfits, ok_bind]

private theorem handleProofResult_run {result : ProofResult} (hr : result.Decodable t.bits)
    (hsafe : ps.Safe t.bits result) :
    handleProofResult t fuel ps result = .ok (ps.handleProofResult result) := by
  have hfits := fits_handleProofResult h hr
  unfold handleProofResult
  rw [isSealedForResults_run h, ok_bind]
  cases hopen : ps.isSealedForResults with
  | true =>
    rw [ProofState.handleProofResult_sealed hopen]
    rfl
  | false =>
    have hsafe := hsafe.resolve_left (by simp [hopen])
    have hwithin (hproof : result.hasProof = true) (hout : ¬ ps.outOfBounds result = true)
        (hnew : ¬ ((∀ r, result ≠ .internal r) ∧ ps.slotFilled result = true)) : ps.StaysWithin t.bits result := by
      rcases hsafe with hbad | hbad | hbad | hwithin
      · rw [hproof] at hbad
        cases hbad
      · exact absurd hbad hout
      · exact absurd hbad hnew
      · exact hwithin
    have hunsealed : ¬ false = true := Bool.false_ne_true
    rw [if_neg hunsealed]
    cases result with
    | error r =>
      have herror : ps.handleProofResult (.error r) = (ps.handleErrorResult r, .ok []) := by
        unfold ProofState.handleProofResult
        rw [hopen, if_neg hunsealed]
      rw [herror] at hfits ⊢
      exact checkReadiness_run hfits
    | executeE2 r =>
      dsimp only
      split
      · rename_i hcost
        rw [ProofState.handleProofResult_cost hopen hcost]
      · rename_i hcost
        rw [ProofState.handleProofResult_executeE2 hopen (Nat.not_lt.mp hcost)] at hfits ⊢
        have hroom (hnew : ¬ ps.executeE2State.isSome = true) :=
          ((hwithin rfl Bool.false_ne_true (fun hbad => absurd hbad.2 Bool.false_ne_true)).resolve_left
            hnew).resolve_left
            hcost
        rw [handleExecuteE2Result_run h hr hroom, ok_bind]
        exact checkReadiness_run hfits
    | app r =>
      rw [ProofState.handleProofResult_app hopen] at hfits ⊢
      have hrun := handleAppResult_run h fun hproof hout hnew =>
        hwithin (isSome_of_not_isNone hproof) hout fun hbad => hnew hbad.2
      dsimp only
      rw [hrun, ok_bind]
      exact checkReadiness_run hfits
    | leaf r =>
      rw [ProofState.handleProofResult_leaf hopen] at hfits ⊢
      have hrun := handleLeafResult_run h hr fun hproof hout hnew =>
        hwithin (isSome_of_not_isNone hproof) hout fun hbad => hnew hbad.2
      dsimp only
      rw [hrun, ok_bind]
      exact checkReadiness_run hfits
    | internal r =>
      rw [ProofState.handleProofResult_internal hopen] at hfits ⊢
      have hrun := handleInternalResult_run h hr fun hproof hout =>
        hwithin (isSome_of_not_isNone hproof) hout fun hbad => hbad.1 r rfl
      dsimp only
      rw [hrun, ok_bind]
      exact checkReadiness_run hfits
    | evm r =>
      rw [ProofState.handleProofResult_evm hopen] at hfits ⊢
      exact checkReadiness_run hfits

private theorem handleProofResult_overflow (hchecks : t.overflowChecks = true) {result : ProofResult}
    (hr : result.Decodable t.bits) (hexceeds : ¬ ps.Safe t.bits result) :
    ∃ fault, handleProofResult t fuel ps result = .error fault := by
  unfold ProofState.Safe at hexceeds
  simp only [not_or] at hexceeds
  obtain ⟨hopen, hproof, hout, hnew, hlarge⟩ := hexceeds
  have hunsealed : ps.isSealedForResults = false := by simpa using hopen
  have hpresent : result.hasProof = true := by simpa using hproof
  have hfalse : ¬ false = true := Bool.false_ne_true
  have hnone {proof : Option ProofBytes} (h : proof.isSome = true) : ¬ proof.isNone = true := by
    rw [Option.isNone_eq_false_iff.mpr h]
    exact hfalse
  unfold handleProofResult
  rw [isSealedForResults_run h, ok_bind, hunsealed, if_neg hfalse]
  cases result with
  | error r => exact absurd trivial hlarge
  | evm r => exact absurd trivial hlarge
  | executeE2 r =>
    obtain ⟨hfirst, hroom⟩ := not_or.mp hlarge
    obtain ⟨hcost, hroom⟩ := not_or.mp hroom
    obtain ⟨fault, hfault⟩ := handleExecuteE2Result_overflow h hr hfirst hroom
    refine ⟨fault, ?_⟩
    dsimp only
    rw [if_neg hcost, hfault, error_bind]
  | app r =>
    have hslot : ¬ ps.slotFilled (.app r) = true := fun hbad => hnew ⟨by simp, hbad⟩
    obtain ⟨fault, hfault⟩ := handleAppResult_overflow h hchecks hr (hnone hpresent) hout hslot hlarge
    exact ⟨fault, by dsimp only; rw [hfault, error_bind]⟩
  | leaf r =>
    have hslot : ¬ ps.slotFilled (.leaf r) = true := fun hbad => hnew ⟨by simp, hbad⟩
    obtain ⟨fault, hfault⟩ := handleLeafResult_overflow h hchecks hr (hnone hpresent) hout hslot hlarge
    exact ⟨fault, by dsimp only; rw [hfault, error_bind]⟩
  | internal r =>
    obtain ⟨fault, hfault⟩ := handleInternalResult_overflow h hchecks hr (hnone hpresent) hout hlarge
    exact ⟨fault, by dsimp only; rw [hfault, error_bind]⟩

/-- An envelope leaves a proof that fits. -/
theorem fits_handleEnvelope (now : Time) {envelope : MessageEnvelope ProofResult}
    (hr : envelope.message.Decodable t.bits) :
    Fits t fuel (ps.handleProofResultWithEnvelopeOutcome now envelope).1 := by
  have hdated : Fits t fuel { ps with lastUpdated := now } := { h with }
  rw [ProofState.handleEnvelope_eq]
  split
  · exact { h with }
  · exact fits_handleProofResult hdated hr

theorem handleEnvelope_run (now : Time) {envelope : MessageEnvelope ProofResult}
    (hr : envelope.message.Decodable t.bits) (hsafe : ps.Safe t.bits envelope.message) :
    handleProofResultWithEnvelopeOutcome t fuel ps now envelope =
      .ok (ps.handleProofResultWithEnvelopeOutcome now envelope) := by
  have hdated : Fits t fuel { ps with lastUpdated := now } := { h with }
  have hfits := fits_handleProofResult hdated hr
  unfold handleProofResultWithEnvelopeOutcome ProofState.handleProofResultWithEnvelopeOutcome
  rw [isSealedForResults_run h, ok_bind]
  split
  · rfl
  · rw [handleProofResult_run hdated hr hsafe, ok_bind]
    generalize ProofState.handleProofResult { ps with lastUpdated := now } envelope.message = handled at hfits ⊢
    obtain ⟨ps', answer⟩ := handled
    cases answer with
    | error e => rfl
    | ok requests =>
      dsimp only
      rw [isSealedForResults_run hfits, ok_bind]

/-- With overflow checks an envelope is handled only if its result is safe. -/
theorem safe_of_handleEnvelope (hchecks : t.overflowChecks = true) {now : Time}
    {envelope : MessageEnvelope ProofResult} (hr : envelope.message.Decodable t.bits)
    {out : ProofState × Except String ProofState.ProofResultEnvelopeOutcome}
    (hout : handleProofResultWithEnvelopeOutcome t fuel ps now envelope = .ok out) :
    ps.Safe t.bits envelope.message := by
  by_contra hexceeds
  have hdated : Fits t fuel { ps with lastUpdated := now } := { h with }
  obtain ⟨fault, hfault⟩ := handleProofResult_overflow hdated hchecks hr hexceeds
  have hopen : ps.isSealedForResults = false := by
    by_contra hsealed
    exact hexceeds (.inl (by simpa using hsealed))
  unfold handleProofResultWithEnvelopeOutcome at hout
  rw [isSealedForResults_run h, ok_bind, hopen, if_neg Bool.false_ne_true, hfault, error_bind] at hout
  cases hout

/-- A series of results is handled without a fault exactly if each is safe in the state that it finds. -/
theorem handleAll_iff (hchecks : t.overflowChecks = true) {results : List ProofResult}
    (hresults : ∀ result ∈ results, result.Decodable t.bits) :
    (∃ last, handleAll t fuel ps results = .ok last) ↔
      ∀ before result, before ++ [result] <+: results → (ps.afterResults before).Safe t.bits result := by
  induction results generalizing ps with
  | nil =>
    refine iff_of_true ⟨ps, rfl⟩ fun before result hbegins => ?_
    have hlength := hbegins.length_le
    simp at hlength
  | cons next results ih =>
    obtain ⟨hnext, hrest⟩ := List.forall_mem_cons.mp hresults
    have hih := ih (fits_handleProofResult h hnext) hrest
    unfold handleAll
    constructor
    · rintro ⟨last, hlast⟩ before result hbegins
      have hsafe : ps.Safe t.bits next := by
        by_contra hexceeds
        obtain ⟨fault, hfault⟩ := handleProofResult_overflow h hchecks hnext hexceeds
        rw [hfault, error_bind] at hlast
        cases hlast
      rw [handleProofResult_run h hnext hsafe, ok_bind] at hlast
      cases before with
      | nil =>
        obtain ⟨rfl, -⟩ := List.cons_prefix_cons.mp hbegins
        exact hsafe
      | cons first before =>
        obtain ⟨rfl, hlater⟩ := List.cons_prefix_cons.mp hbegins
        exact hih.mp ⟨last, hlast⟩ before result hlater
    · intro hall
      have hsafe : ps.Safe t.bits next := hall [] next (List.cons_prefix_cons.mpr ⟨rfl, List.nil_prefix⟩)
      obtain ⟨last, hlast⟩ := hih.mpr fun before result hbegins =>
        hall (next :: before) result (List.cons_prefix_cons.mpr ⟨rfl, hbegins⟩)
      refine ⟨last, ?_⟩
      rw [handleProofResult_run h hnext hsafe, ok_bind]
      exact hlast

/-- What is safe leads, in every build, to the state of the exact handlers. -/
theorem handleAll_run {results : List ProofResult} (hresults : ∀ result ∈ results, result.Decodable t.bits)
    (hsafe : ∀ before result, before ++ [result] <+: results → (ps.afterResults before).Safe t.bits result) :
    handleAll t fuel ps results = .ok (ps.afterResults results) := by
  induction results generalizing ps with
  | nil => rfl
  | cons next results ih =>
    obtain ⟨hnext, hrest⟩ := List.forall_mem_cons.mp hresults
    have hfirst : ps.Safe t.bits next := hsafe [] next (List.cons_prefix_cons.mpr ⟨rfl, List.nil_prefix⟩)
    unfold handleAll
    rw [handleProofResult_run h hnext hfirst, ok_bind]
    apply ih (fits_handleProofResult h hnext) hrest
    intro before result hbegins
    exact hsafe (next :: before) result (List.cons_prefix_cons.mpr ⟨rfl, hbegins⟩)

end
end Machine

/-- The parameters that a proof starts with, as words of the machine that the tree math can divide by. -/
structure StartParams where
  now : Time
  context : ProofContext
  costLimit : Nat
  numWorkers : Nat
  timeoutSecs : Nat
  deferralCircuitCount : Nat
  leafArity : Nat
  internalArity : Nat
  arities : Arities leafArity internalArity
  leafArity_lt : leafArity < 2 ^ 64
  internalArity_lt : internalArity < 2 ^ 64

def StartParams.start (params : StartParams) : ProofState :=
  proofStart params.now params.context params.costLimit params.numWorkers params.leafArity params.internalArity
    params.timeoutSecs params.deferralCircuitCount

def WireResults : Type := { results : List ProofResult // ∀ result ∈ results, result.Decodable 64 }

private theorem fits_start (params : StartParams) (overflowChecks : Bool) {fuel : Nat} (hfuel : 64 ≤ fuel) :
    Machine.Fits (usize overflowChecks) fuel params.start where
  bits := show 2 ≤ 64 by decide
  fuel := hfuel
  arities := params.arities
  leafArity := params.leafArity_lt
  internalArity := params.internalArity_lt
  count n hn := by cases hn
  leafProofs i st hst := by cases hst
  internalProofs i st hst := by cases hst

/-- A run of results is handled without a division by zero, an overflow, a missing proof or a vector too large to be
allocated, in a build that checks for overflow, exactly if each result is safe in the state that it finds; and then
every build does what the exact handlers do. -/
theorem handles_without_fault_iff (params : StartParams) (results : WireResults) (extraFuel : Nat) :
    ((∃ last, Machine.handleAll (usize true) (64 + extraFuel) params.start results.1 = .ok last) ↔
      ∀ before result, before ++ [result] <+: results.1 → (params.start.afterResults before).Safe 64 result) ∧
    ((∀ before result, before ++ [result] <+: results.1 → (params.start.afterResults before).Safe 64 result) →
      ∀ overflowChecks, Machine.handleAll (usize overflowChecks) (64 + extraFuel) params.start results.1 =
        .ok (params.start.afterResults results.1)) := by
  have hfuel : 64 ≤ 64 + extraFuel := Nat.le_add_right _ _
  constructor
  · exact Machine.handleAll_iff (fits_start params true hfuel) rfl results.2
  · intro hsafe overflowChecks
    exact Machine.handleAll_run (fits_start params overflowChecks hfuel) results.2 hsafe

/-- A proof whose leaves fold one app proof, and whose internal proofs fold two. -/
def binaryStart : StartParams where
  now := 0
  context := ⟨"proof", ⟨"program", 1⟩, [], .stark⟩
  costLimit := 1000000
  numWorkers := 4
  timeoutSecs := 300
  deferralCircuitCount := 0
  leafArity := 1
  internalArity := 2
  arities := ⟨by decide, by decide⟩
  leafArity_lt := by decide
  internalArity_lt := by decide

/-- An internal proof of a layer whose nodes hold more segments than the word has values. -/
def highLayer : WireResults :=
  ⟨[.internal ⟨⟨"proof", ⟨"program", 1⟩, [], .stark⟩, ⟨some [1], 63, 0, 0, none, false⟩⟩], by
    simp only [List.forall_mem_singleton, ProofResult.Decodable]
    decide⟩

/-- Without overflow checks the scale of the layer wraps to zero, and the first internal result is divided by it. -/
theorem handles_without_fault_fails : ¬ ∀ (overflowChecks : Bool) (params : StartParams) (results : WireResults),
    ∃ last, Machine.handleAll (usize overflowChecks) 64 params.start results.1 = .ok last := by
  intro hall
  obtain ⟨last, hlast⟩ := hall false binaryStart highLayer
  have hfault : Machine.handleAll (usize false) 64 binaryStart.start highLayer.1 = .error .divisionByZero := rfl
  rw [hfault] at hlast
  cases hlast

end EdgeProver
