import EdgeProver.ProofState.Rejected

/-! Results delivered again: when a duplicate leaves the tree as it was, and when a run with duplicates ends as the
run without them. -/
namespace EdgeProver

def ProofResult.hasProof : ProofResult → Bool
  | .app r => r.state.proof.isSome
  | .leaf r => r.state.proof.isSome
  | .internal r => r.state.proof.isSome
  | .evm r => r.state.proof.isSome
  | .executeE2 _ | .error _ => true

def emittedBy (answer : Except String (List GeneralProveRequest)) : List GeneralProveRequest := answer.toOption.getD []

namespace ProofState

def slotFilled (ps : ProofState) : ProofResult → Bool
  | .app r => (ps.appProofs r.state.segmentIdx).isSome
  | .leaf r => (ps.leafProofs r.state.segmentStart).isSome
  | .internal r => (ps.internalProofs (ps.internalSlot r.state)).isSome
  | .executeE2 _ | .evm _ | .error _ => false

/-- The slot holds what the result carries, to the last field. -/
def stores (ps : ProofState) : ProofResult → Prop
  | .app r => ps.appProofs r.state.segmentIdx = some r.state
  | .leaf r => ps.leafProofs r.state.segmentStart = some r.state
  | .internal r => ps.internalProofs (ps.internalSlot r.state) = some r.state
  | .executeE2 _ | .evm _ | .error _ => False

/-- The bounds check of the result's kind, with the segment count known. -/
def outOfBounds (ps : ProofState) : ProofResult → Bool
  | .app r => ps.numSegments.any (fun n => r.state.segmentIdx ≥ n)
  | .leaf r => ps.numSegments.any (fun n => r.state.segmentStart ≥ n || r.state.segmentEnd ≥ n)
  | .internal r => ps.numSegments.any (fun n => r.state.segmentStart ≥ n || r.state.segmentEnd ≥ n)
  | .executeE2 _ | .evm _ | .error _ => false

/-- Nothing is emitted, and the status and the tree stay as they are. -/
structure Drops (ps : ProofState) (result : ProofResult) : Prop where
  emits : (ps.handleProofResult result).2 = .ok []
  status : (ps.handleProofResult result).1.status = ps.status
  tree : ps.SameTree (ps.handleProofResult result).1

def handleResults (ps : ProofState) : List ProofResult → ProofState × List GeneralProveRequest
  | [] => (ps, [])
  | result :: results =>
    let handled := ps.handleProofResult result
    let rest := handled.1.handleResults results
    (rest.1, emittedBy handled.2 ++ rest.2)

/-- No duplicate of the result finds other content in its slot. -/
def Repeatable (ps : ProofState) (result : ProofResult) : Prop :=
  ps.isSealedForResults = true ∨ ps.outOfBounds result = true ∨ (ps.slotFilled result = true → ps.stores result)

/-- `several` delivers the results of `once` in their order, with further deliveries of results that came before. -/
inductive Repeats : ProofState → List ProofResult → List ProofResult → List ProofResult → Prop
  | nil (ps : ProofState) (before : List ProofResult) : Repeats ps before [] []
  | next {ps : ProofState} {before once several : List ProofResult} (result : ProofResult)
      (hrest : Repeats (ps.handleProofResult result).1 (result :: before) once several) :
      Repeats ps before (result :: once) (result :: several)
  | again {ps : ProofState} {before once several : List ProofResult} {result : ProofResult} (hbefore : result ∈ before)
      (hkept : ps.Repeatable result) (hrest : Repeats (ps.handleProofResult result).1 before once several) :
      Repeats ps before once (result :: several)

theorem handleProofResult_sealed {ps : ProofState} (h : ps.isSealedForResults = true) (result : ProofResult) :
    ps.handleProofResult result = (ps, .ok []) := by
  unfold handleProofResult
  rw [if_pos h]

section
variable {ps : ProofState} (hopen : ps.isSealedForResults = false)
include hopen

private theorem handleProofResult_outOfBounds {result : ProofResult} (hproof : result.hasProof = true)
    (hout : ps.outOfBounds result = true) : ps.handleProofResult result = (ps, .ok []) := by
  have hsome {proof : Option ProofBytes} (h : proof.isSome = true) : proof.isNone = false :=
    Option.isNone_eq_false_iff.mpr h
  cases result with
  | executeE2 r => cases hout
  | evm r => cases hout
  | error r => cases hout
  | app r =>
    rw [handleProofResult_app hopen, handleAppResult]
    dsimp only
    rw [hsome hproof, if_neg Bool.false_ne_true]
    exact if_pos hout
  | leaf r =>
    rw [handleProofResult_leaf hopen, handleLeafResult]
    dsimp only
    rw [hsome hproof, if_neg Bool.false_ne_true]
    exact if_pos hout
  | internal r =>
    rw [handleProofResult_internal hopen, handleInternalResult]
    dsimp only
    rw [hsome hproof, if_neg Bool.false_ne_true]
    exact if_pos hout

/-- A duplicate with proof bytes does no more than replace what its slot holds. -/
theorem handleApp_duplicate {r : AppProof} (hproof : r.state.proof.isSome = true)
    (hfilled : ps.slotFilled (.app r) = true) : ps.handleProofResult (.app r) =
      (if ps.outOfBounds (.app r) then ps
        else { ps with appProofs := Function.update ps.appProofs r.state.segmentIdx (some r.state) }, .ok []) := by
  have hsome : r.state.proof.isNone = false := Option.isNone_eq_false_iff.mpr hproof
  have hold : (ps.appProofs r.state.segmentIdx).isSome = true := hfilled
  simp only [handleProofResult_app hopen, handleAppResult, hsome, hold, Bool.false_eq_true, if_false, if_true,
    outOfBounds]
  split <;> rename_i hout <;> simp only [hout, if_true, if_false, Bool.false_eq_true]

private theorem handleLeaf_duplicate {r : LeafProof} (hproof : r.state.proof.isSome = true)
    (hfilled : ps.slotFilled (.leaf r) = true) : ps.handleProofResult (.leaf r) =
      (if ps.outOfBounds (.leaf r) then ps
        else { ps with leafProofs := Function.update ps.leafProofs r.state.segmentStart (some r.state) }, .ok []) := by
  have hsome : r.state.proof.isNone = false := Option.isNone_eq_false_iff.mpr hproof
  have hold : (ps.leafProofs r.state.segmentStart).isSome = true := hfilled
  simp only [handleProofResult_leaf hopen, handleLeafResult, hsome, hold, Bool.false_eq_true, if_false, if_true,
    outOfBounds]
  split <;> rename_i hout <;> simp only [hout, if_true, if_false, Bool.false_eq_true]

private theorem handleInternal_duplicate {r : InternalProof} (hproof : r.state.proof.isSome = true)
    (hfilled : ps.slotFilled (.internal r) = true) : ps.handleProofResult (.internal r) =
      (if ps.outOfBounds (.internal r) then ps
        else { ps with
          internalProofs := Function.update ps.internalProofs (ps.internalSlot r.state) (some r.state) }, .ok []) := by
  have hsome : r.state.proof.isNone = false := Option.isNone_eq_false_iff.mpr hproof
  have hold : (ps.internalProofs (ps.internalSlot r.state)).isSome = true := hfilled
  simp only [handleProofResult_internal hopen, handleInternalResult, hsome, Bool.false_eq_true, if_false, outOfBounds]
  simp only [internalSlot] at hold
  simp only [hold, if_true, internalSlot]
  split <;> rename_i hout <;> simp only [hout, if_true, if_false, Bool.false_eq_true]

end

private theorem sameTree_slot {ps : ProofState} (result : ProofResult) (hopen : ps.isSealedForResults = false)
    (hproof : result.hasProof = true) (hfilled : ps.slotFilled result = true) :
    (ps.SameTree (ps.handleProofResult result).1 ↔ ps.outOfBounds result = true ∨ ps.stores result) ∧
      (ps.handleProofResult result).2 = .ok [] ∧ (ps.handleProofResult result).1.status = ps.status := by
  cases result with
  | executeE2 r => cases hfilled
  | evm r => cases hfilled
  | error r => cases hfilled
  | app r =>
    rw [handleApp_duplicate hopen hproof hfilled]
    refine ⟨?_, rfl, by dsimp only; split <;> rfl⟩
    dsimp only
    split
    · rename_i hout
      exact iff_of_true (.refl ps) (.inl hout)
    · rename_i hout
      constructor
      · intro htree
        exact .inr (Function.update_eq_self_iff.mp htree.appProofs).symm
      · rintro (hbad | hstored)
        · exact absurd hbad hout
        · exact ⟨rfl, Function.update_eq_self_iff.mpr (Eq.symm hstored), rfl, rfl, rfl⟩
  | leaf r =>
    rw [handleLeaf_duplicate hopen hproof hfilled]
    refine ⟨?_, rfl, by dsimp only; split <;> rfl⟩
    dsimp only
    split
    · rename_i hout
      exact iff_of_true (.refl ps) (.inl hout)
    · rename_i hout
      constructor
      · intro htree
        exact .inr (Function.update_eq_self_iff.mp htree.leafProofs).symm
      · rintro (hbad | hstored)
        · exact absurd hbad hout
        · exact ⟨rfl, rfl, Function.update_eq_self_iff.mpr (Eq.symm hstored), rfl, rfl⟩
  | internal r =>
    rw [handleInternal_duplicate hopen hproof hfilled]
    refine ⟨?_, rfl, by dsimp only; split <;> rfl⟩
    dsimp only
    split
    · rename_i hout
      exact iff_of_true (.refl ps) (.inl hout)
    · rename_i hout
      constructor
      · intro htree
        exact .inr (Function.update_eq_self_iff.mp htree.internalProofs).symm
      · rintro (hbad | hstored)
        · exact absurd hbad hout
        · exact ⟨rfl, rfl, rfl, Function.update_eq_self_iff.mpr (Eq.symm hstored), rfl⟩

private theorem failing_of_proofless {ps : ProofState} {result : ProofResult} (hopen : ps.isSealedForResults = false)
    (hfilled : ps.slotFilled result = true) (hproof : result.hasProof = false) :
    ∃ reason, (ps.handleProofResult result).1.status = .failing reason := by
  have hnone {proof : Option ProofBytes} (h : proof.isSome = false) : proof.isNone = true := by
    cases proof with
    | none => rfl
    | some bytes => cases h
  cases result with
  | executeE2 r => cases hfilled
  | evm r => cases hfilled
  | error r => cases hfilled
  | app r =>
    rw [handleProofResult_app hopen, handleAppResult]
    dsimp only
    rw [if_pos (hnone hproof)]
    exact ⟨_, rfl⟩
  | leaf r =>
    rw [handleProofResult_leaf hopen, handleLeafResult]
    dsimp only
    rw [if_pos (hnone hproof)]
    exact ⟨_, rfl⟩
  | internal r =>
    rw [handleProofResult_internal hopen, handleInternalResult]
    dsimp only
    rw [if_pos (hnone hproof)]
    exact ⟨_, rfl⟩

/-- A duplicate is dropped exactly if the proof waits for its finalization only, or the duplicate carries proof bytes
and lies out of bounds or repeats what is stored. -/
theorem drops_iff {ps : ProofState} {result : ProofResult} (hstatus : ps.status = .inProgress)
    (hfilled : ps.slotFilled result = true) : ps.Drops result ↔ ps.isReadyForFinalization = true ∨
      result.hasProof = true ∧ (ps.outOfBounds result = true ∨ ps.stores result) := by
  cases hready : ps.isReadyForFinalization with
  | true =>
    refine iff_of_true ?_ (.inl rfl)
    have hsealed : ps.isSealedForResults = true := by simp [isSealedForResults, hready]
    exact ⟨by rw [handleProofResult_sealed hsealed], by rw [handleProofResult_sealed hsealed],
      by rw [handleProofResult_sealed hsealed]; exact .refl ps⟩
  | false =>
    have hopen : ps.isSealedForResults = false := not_sealed_iff.mpr ⟨hstatus, hready⟩
    cases hproof : result.hasProof with
    | true =>
      obtain ⟨htree, hemits, hkept⟩ := sameTree_slot result hopen hproof hfilled
      constructor
      · intro hdrops
        exact .inr ⟨rfl, htree.mp hdrops.tree⟩
      · rintro (hbad | ⟨-, hsame⟩)
        · cases hbad
        · exact ⟨hemits, hkept, htree.mpr hsame⟩
    | false =>
      refine iff_of_false ?_ (by rintro (hbad | ⟨hbad, -⟩) <;> cases hbad)
      intro hdrops
      obtain ⟨reason, hfailing⟩ := failing_of_proofless hopen hfilled hproof
      rw [hdrops.status, hstatus] at hfailing
      cases hfailing

/-- The segment count comes with the state of the execution. -/
def Counted (ps : ProofState) : Prop := ∀ n, ps.numSegments = some n → ps.executeE2State.isSome = true

/-- What a result leaves, and no later result takes away. -/
structure Grows (ps ps' : ProofState) : Prop where
  costLimit : ps'.costLimit = ps.costLimit
  proofType : ps'.context.proofType = ps.context.proofType
  slot (state : InternalProofState) : ps'.internalSlot state = ps.internalSlot state
  count (n : Nat) : ps.executeE2State.isSome = true → ps.numSegments = some n → ps'.numSegments = some n
  executeE2 : ps.executeE2State.isSome = true → ps'.executeE2State.isSome = true
  app (i : Nat) : (ps.appProofs i).isSome = true → (ps'.appProofs i).isSome = true
  leaf (i : Nat) : (ps.leafProofs i).isSome = true → (ps'.leafProofs i).isSome = true
  internal (i : InternalProofIndex) : (ps.internalProofs i).isSome = true → (ps'.internalProofs i).isSome = true
  evm : ps.evmProof.isSome = true → ps'.evmProof.isSome = true
  counted : ps.Counted → ps'.Counted

theorem Grows.refl (ps : ProofState) : ps.Grows ps :=
  ⟨rfl, rfl, fun _ => rfl, fun _ _ h => h, id, fun _ h => h, fun _ h => h, fun _ h => h, id, id⟩

private theorem isSome_update_self {κ α : Type} [DecidableEq κ] {slots : Slots κ α} {key : κ} {value : α} :
    (Function.update slots key (some value) key).isSome = true := by
  rw [Function.update_self]
  rfl

private theorem isSome_update {κ α : Type} [DecidableEq κ] {slots : Slots κ α} {key k : κ} {value : α}
    (h : (slots k).isSome = true) : (Function.update slots key (some value) k).isSome = true := by
  rcases eq_or_ne k key with rfl | hne
  · rw [Function.update_self]
    rfl
  · rw [Function.update_of_ne hne]
    exact h

section
variable (ps : ProofState)

private theorem grows_handleAppResult (r : AppProof) : ps.Grows (ps.handleAppResult r).1 := by
  unfold handleAppResult
  dsimp only
  split
  · exact { Grows.refl ps with }
  · split
    · exact .refl ps
    · split
      · exact { Grows.refl ps with app := fun _ => isSome_update }
      · split <;> exact { Grows.refl ps with app := fun _ => isSome_update }

private theorem grows_handleLeafResult (r : LeafProof) : ps.Grows (ps.handleLeafResult r).1 := by
  unfold handleLeafResult
  dsimp only
  split
  · exact { Grows.refl ps with }
  · split
    · exact .refl ps
    · split
      · exact { Grows.refl ps with leaf := fun _ => isSome_update }
      · split <;> exact { Grows.refl ps with leaf := fun _ => isSome_update }

private theorem grows_handleInternalResult (r : InternalProof) : ps.Grows (ps.handleInternalResult r).1 := by
  unfold handleInternalResult
  dsimp only
  split
  · exact { Grows.refl ps with }
  · split
    · exact .refl ps
    · split <;> exact { Grows.refl ps with internal := fun _ => isSome_update }

private theorem grows_handleHalo2Result (r : EvmProof) : ps.Grows (ps.handleHalo2Result r).1 := by
  unfold handleHalo2Result
  dsimp only
  split
  · exact { Grows.refl ps with }
  · split
    · exact { Grows.refl ps with }
    · split
      · exact .refl ps
      · exact { Grows.refl ps with evm := fun _ => rfl }

private theorem grows_handleExecuteE2Result (r : ExecuteE2Result) : ps.Grows (ps.handleExecuteE2Result r).1 := by
  unfold handleExecuteE2Result
  dsimp only
  split
  · exact .refl ps
  · rename_i hnew
    split
    · exact { Grows.refl ps with }
    · exact { Grows.refl ps with
        count := fun _ h => absurd h hnew
        executeE2 := fun _ => rfl
        counted := fun _ _ _ => rfl }

private theorem grows_handleProofResult (result : ProofResult) : ps.Grows (ps.handleProofResult result).1 := by
  unfold handleProofResult
  split
  · exact .refl ps
  · cases result with
    | error r => exact { Grows.refl ps with }
    | executeE2 r =>
      dsimp only
      split
      · exact { Grows.refl ps with }
      · exact grows_handleExecuteE2Result ps r
    | app r => exact grows_handleAppResult ps r
    | leaf r => exact grows_handleLeafResult ps r
    | internal r => exact grows_handleInternalResult ps r
    | evm r => exact grows_handleHalo2Result ps r

end

/-- The result came before, and what it left is there. -/
def Settled (ps : ProofState) (result : ProofResult) : Prop :=
  ps.isSealedForResults = true ∨ result.hasProof = true ∧
    match result with
    | .app _ | .leaf _ | .internal _ => ps.outOfBounds result = true ∨ ps.slotFilled result = true
    | .executeE2 r => r.state.cost ≤ ps.costLimit ∧ ps.executeE2State.isSome = true
    | .evm _ => ps.context.proofType = .evm ∧ ps.evmProof.isSome = true
    | .error _ => False

private theorem sealed_of_failing {ps : ProofState} {reason : String} (h : ps.status = .failing reason) :
    ps.isSealedForResults = true := by
  apply sealed_of_status
  rw [h]
  intro hbad
  cases hbad

private theorem settled_self (ps : ProofState) (result : ProofResult) :
    (ps.handleProofResult result).1.Settled result := by
  have hsome {proof : Option ProofBytes} (h : ¬ proof.isNone = true) : proof.isSome = true := by
    cases proof with
    | none => exact absurd rfl h
    | some bytes => rfl
  cases hopen : ps.isSealedForResults with
  | true =>
    rw [handleProofResult_sealed hopen]
    exact .inl hopen
  | false =>
    cases result with
    | error r =>
      left
      unfold handleProofResult
      rw [if_neg (by simp [hopen])]
      exact sealed_of_failing rfl
    | app r =>
      rw [handleProofResult_app hopen, handleAppResult]
      dsimp only
      split
      · exact .inl (sealed_of_failing rfl)
      · rename_i hproof
        split
        · rename_i hout
          exact .inr ⟨hsome hproof, .inl hout⟩
        · split
          · exact .inr ⟨hsome hproof, .inr isSome_update_self⟩
          · split <;> exact .inr ⟨hsome hproof, .inr isSome_update_self⟩
    | leaf r =>
      rw [handleProofResult_leaf hopen, handleLeafResult]
      dsimp only
      split
      · exact .inl (sealed_of_failing rfl)
      · rename_i hproof
        split
        · rename_i hout
          exact .inr ⟨hsome hproof, .inl hout⟩
        · split
          · exact .inr ⟨hsome hproof, .inr isSome_update_self⟩
          · split <;> exact .inr ⟨hsome hproof, .inr isSome_update_self⟩
    | internal r =>
      rw [handleProofResult_internal hopen, handleInternalResult]
      dsimp only
      split
      · exact .inl (sealed_of_failing rfl)
      · rename_i hproof
        split
        · rename_i hout
          exact .inr ⟨hsome hproof, .inl hout⟩
        · split <;> exact .inr ⟨hsome hproof, .inr isSome_update_self⟩
    | evm r =>
      rw [handleProofResult_evm hopen, handleHalo2Result]
      split
      · exact .inl (sealed_of_failing rfl)
      · rename_i htype
        split
        · exact .inl (sealed_of_failing rfl)
        · rename_i hproof
          split
          · rename_i hold
            exact .inr ⟨hsome hproof, not_not.mp htype, hold⟩
          · exact .inr ⟨hsome hproof, not_not.mp htype, rfl⟩
    | executeE2 r =>
      rcases le_or_gt r.state.cost ps.costLimit with hcost | hcost
      · rw [handleProofResult_executeE2 hopen hcost, handleExecuteE2Result]
        dsimp only
        split
        · rename_i hold
          exact .inr ⟨rfl, hcost, hold⟩
        · split
          · exact .inl (sealed_of_failing rfl)
          · exact .inr ⟨rfl, hcost, rfl⟩
      · rw [handleProofResult_cost hopen hcost]
        exact .inl (sealed_of_failing rfl)

private theorem settled_next {ps : ProofState} {result : ProofResult} (hcounted : ps.Counted) (h : ps.Settled result)
    (next : ProofResult) : (ps.handleProofResult next).1.Settled result := by
  rcases h with hsealed | ⟨hproof, h⟩
  · rw [handleProofResult_sealed hsealed]
    exact .inl hsealed
  · have hgrows := grows_handleProofResult ps next
    have hout {p : Nat → Bool} (h : ps.numSegments.any p = true) :
        (ps.handleProofResult next).1.numSegments.any p = true := by
      obtain ⟨n, hn, hp⟩ := (Option.any_eq_true _ _).mp h
      exact (Option.any_eq_true _ _).mpr ⟨n, hgrows.count n (hcounted n hn) hn, hp⟩
    refine .inr ⟨hproof, ?_⟩
    cases result with
    | app r => exact h.imp hout (hgrows.app _)
    | leaf r => exact h.imp hout (hgrows.leaf _)
    | internal r =>
      apply h.imp hout
      intro hfilled
      have hslot := hgrows.internal _ hfilled
      rw [← hgrows.slot r.state] at hslot
      exact hslot
    | evm r => exact ⟨hgrows.proofType.trans h.1, hgrows.evm h.2⟩
    | executeE2 r => exact ⟨h.1.trans hgrows.costLimit.ge, hgrows.executeE2 h.2⟩
    | error r => exact h

/-- A settled result that repeats what its slot holds changes nothing at all. -/
theorem handleProofResult_again {ps : ProofState} {result : ProofResult} (h : ps.Settled result)
    (hkept : ps.Repeatable result) : ps.handleProofResult result = (ps, .ok []) := by
  cases hopen : ps.isSealedForResults with
  | true => exact handleProofResult_sealed hopen result
  | false =>
    have hopen' : ¬ ps.isSealedForResults = true := by simp [hopen]
    obtain ⟨hproof, h⟩ := h.resolve_left hopen'
    have hkept := hkept.resolve_left hopen'
    cases hout : ps.outOfBounds result with
    | true => exact handleProofResult_outOfBounds hopen hproof hout
    | false =>
      have hin : ¬ ps.outOfBounds result = true := by simp [hout]
      have hstores := hkept.resolve_left hin
      cases result with
      | error r => exact h.elim
      | app r =>
        have hfilled := h.resolve_left hin
        rw [handleApp_duplicate hopen hproof hfilled, if_neg hin,
          Function.update_eq_self_iff.mpr (hstores hfilled).symm]
      | leaf r =>
        have hfilled := h.resolve_left hin
        rw [handleLeaf_duplicate hopen hproof hfilled, if_neg hin,
          Function.update_eq_self_iff.mpr (hstores hfilled).symm]
      | internal r =>
        have hfilled := h.resolve_left hin
        rw [handleInternal_duplicate hopen hproof hfilled, if_neg hin,
          Function.update_eq_self_iff.mpr (hstores hfilled).symm]
      | executeE2 r =>
        rw [handleProofResult_executeE2 hopen h.1, handleExecuteE2Result]
        exact if_pos h.2
      | evm r =>
        have hsome : ¬ r.state.proof.isNone = true := by
          rw [Option.isNone_eq_false_iff.mpr hproof]
          exact Bool.false_ne_true
        rw [handleProofResult_evm hopen, handleHalo2Result, if_neg (not_not.mpr h.1), if_neg hsome]
        exact if_pos h.2

/-- Deliveries of what came before leave a run as it is, from any point of it on. -/
theorem handleResults_repeats {ps : ProofState} {before once several : List ProofResult}
    (hrun : Repeats ps before once several) (hcounted : ps.Counted) (hbefore : ∀ result ∈ before, ps.Settled result) :
    ps.handleResults several = ps.handleResults once := by
  induction hrun with
  | nil ps before => rfl
  | @next ps before once several result hrest ih =>
    have hcounted' := (grows_handleProofResult ps result).counted hcounted
    have hsettled : ∀ r ∈ result :: before, (ps.handleProofResult result).1.Settled r := by
      intro r hr
      rcases List.mem_cons.mp hr with rfl | hr
      · exact settled_self ps r
      · exact settled_next hcounted (hbefore r hr) result
    simp only [handleResults, ih hcounted' hsettled]
  | @again ps before once several result hmem hkept hrest ih =>
    have hagain := handleProofResult_again (hbefore result hmem) hkept
    rw [hagain] at ih
    simp only [handleResults, hagain, emittedBy, Except.toOption, Option.getD_some, List.nil_append]
    exact ih hcounted hbefore

end ProofState

/-- A proof as `init_proof` leaves it for its run. -/
def proofStart (now : Time) (context : ProofContext) (costLimit numWorkers leafArity internalArity timeoutSecs
    deferralCircuitCount : Nat) : ProofState :=
  { ProofState.new now context costLimit numWorkers leafArity internalArity timeoutSecs with deferralCircuitCount }

/-- In every state that results lead to, a duplicate is dropped exactly if the proof waits for its finalization only,
or the duplicate carries proof bytes and lies out of bounds or repeats what is stored. A run with duplicates of this
kind leads to the state of the run without them, and to the requests. -/
theorem duplicates_dropped_iff (now : Time) (context : ProofContext) (costLimit numWorkers leafArity internalArity
    timeoutSecs deferralCircuitCount : Nat) :
    let start := proofStart now context costLimit numWorkers leafArity internalArity timeoutSecs deferralCircuitCount
    (∀ (results : List ProofResult) (result : ProofResult), (start.afterResults results).status = .inProgress →
      (start.afterResults results).slotFilled result = true →
      ((start.afterResults results).Drops result ↔ (start.afterResults results).isReadyForFinalization = true ∨
        result.hasProof = true ∧ ((start.afterResults results).outOfBounds result = true ∨
          (start.afterResults results).stores result))) ∧
    ∀ once several : List ProofResult, ProofState.Repeats start [] once several →
      start.handleResults several = start.handleResults once := by
  intro start
  refine ⟨fun results result hstatus hfilled => ProofState.drops_iff hstatus hfilled, fun once several hrun => ?_⟩
  apply ProofState.handleResults_repeats hrun
  · intro n hn
    cases hn
  · intro result hresult
    cases hresult

def firstApp (proof : Option ProofBytes) : ProofResult :=
  .app ⟨⟨"proof", ⟨"program", 1⟩, [], .stark⟩, ⟨proof, 0, none, none⟩⟩

/-- The second delivery of a segment's app proof puts its bytes in the place of the first one's. -/
theorem duplicates_dropped_fails : ¬ ∀ (now : Time) (context : ProofContext) (costLimit numWorkers leafArity
    internalArity timeoutSecs deferralCircuitCount : Nat) (results : List ProofResult) (result : ProofResult),
    let ps := (proofStart now context costLimit numWorkers leafArity internalArity timeoutSecs
      deferralCircuitCount).afterResults results
    ps.status = .inProgress → ps.slotFilled result = true → ps.Drops result := by
  intro hall
  have hdrops := hall 0 ⟨"proof", ⟨"program", 1⟩, [], .stark⟩ 1000000 4 4 3 300 0 [firstApp (some [1])]
    (firstApp (some [2])) rfl rfl
  have htree := congrFun hdrops.tree.appProofs 0
  revert htree
  decide

end EdgeProver
