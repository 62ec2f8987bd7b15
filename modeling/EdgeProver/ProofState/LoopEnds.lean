import EdgeProver.Config
import EdgeProver.ProofState.NoFault

/-! Which configurations let the layer loop end, and with it the handlers that run it. -/
namespace EdgeProver
open Gather MachineInt

/-- The layer loop comes to an end over this many segments. -/
def ProofState.LoopStops (ps : ProofState) (numSegments : Nat) : Prop :=
  divCeil numSegments ps.leafArity ≤ 1 ∨ 2 ≤ ps.internalArity

namespace Machine
section
variable {t : Target} {fuel n ia : Nat}

private theorem layersLoop_endless (hwraps : t.overflowChecks = false) {nodes : Nat} (hnodes : 1 < nodes)
    (hword : nodes < 2 ^ t.bits) (fuel layers : Nat) : layersLoop t 1 fuel nodes layers = .error .outOfFuel := by
  induction fuel generalizing layers with
  | zero => exact if_pos hnodes
  | succ fuel ih =>
    have hsame : EdgeProver.divCeil nodes 1 = nodes := by simp [EdgeProver.divCeil, Nat.mod_one]
    unfold layersLoop
    rw [if_pos hnodes, divCeil_run Nat.one_pos hword, ok_bind, hsame, Target.add_wraps hwraps, ok_bind]
    exact ih _

private theorem numInternalLayers_endless (hwraps : t.overflowChecks = false) (hia : 0 < ia) (hword : n < 2 ^ t.bits)
    (hendless : ¬ (n ≤ 1 ∨ 2 ≤ ia)) (fuel : Nat) :
    numInternalLayersForLeafCount t fuel n ia = .error .outOfFuel := by
  obtain rfl : ia = 1 := by omega
  unfold numInternalLayersForLeafCount
  rw [if_neg (by omega)]
  exact layersLoop_endless hwraps (by omega) hword fuel 0

private theorem numInternalLayers_ends (hfuel : t.bits ≤ fuel) (hword : n < 2 ^ t.bits) (hstops : n ≤ 1 ∨ 2 ≤ ia) :
    Ends (numInternalLayersForLeafCount t fuel n ia) := by
  rcases hstops with hone | hia
  · unfold numInternalLayersForLeafCount
    rw [if_pos hone]
    exact ends_ok 1
  · rw [numInternalLayers_run hia hfuel hword]
    exact ends_ok _

private theorem numInternalLayers_ends_iff (hwraps : t.overflowChecks = false) (hia : 0 < ia) (hword : n < 2 ^ t.bits) :
    (∃ fuel, Ends (numInternalLayersForLeafCount t fuel n ia)) ↔ n ≤ 1 ∨ 2 ≤ ia := by
  constructor
  · rintro ⟨fuel, hends⟩
    by_contra hendless
    exact hends (numInternalLayers_endless hwraps hia hword hendless fuel)
  · intro hstops
    exact ⟨t.bits, numInternalLayers_ends (le_refl _) hword hstops⟩

private theorem ends_divCeil (n d : Nat) : Ends (divCeil t n d) := by
  refine (ends_div n d).bind fun _ _ => (ends_rem n d).bind fun _ _ => ?_
  split
  · exact Target.ends_add _ _
  · exact ends_ok _

private theorem ends_proofsAtLayerLoop (ia rounds ret : Nat) : Ends (proofsAtLayerLoop t ia rounds ret) := by
  induction rounds generalizing ret with
  | zero => exact ends_ok ret
  | succ rounds ih =>
    unfold proofsAtLayerLoop
    split
    · exact ends_ok 0
    · exact (ends_divCeil ret ia).bind fun ret _ => ih ret

private theorem ends_numProofs (n layer ia : Nat) : Ends (numProofsAtInternalLayerForLeafCount t n layer ia) :=
  ends_proofsAtLayerLoop ia (layer + 1) n

private theorem ends_scaleBase (ia rounds base : Nat) : Ends (scaleBase t ia rounds base) := by
  induction rounds generalizing base with
  | zero => exact ends_ok base
  | succ rounds ih => exact (Target.ends_mul base ia).bind fun base _ => ih base

private theorem ends_sumLayers (n ia rounds layer total : Nat) : Ends (sumLayers t n ia rounds layer total) := by
  induction rounds generalizing layer total with
  | zero => exact ends_ok total
  | succ rounds ih =>
    refine (ends_numProofs n layer ia).bind fun proofs _ => ?_
    exact (Target.ends_add total _).bind fun total _ => ih (layer + 1) total

variable (ps : ProofState)

private theorem ends_flushPendingLeafBatches : Ends (flushPendingLeafBatches t ps) := by
  unfold flushPendingLeafBatches
  split
  · exact ends_ok []
  · refine (ends_div _ _).bind fun _ _ => (ends_rem _ _).bind fun _ _ => ?_
    split
    · refine (Target.ends_mul _ _).bind fun _ _ => (Target.ends_sub _ _).bind fun _ _ => ?_
      split
      · exact ends_ok []
      · refine (Target.ends_withCapacity _ _).bind fun _ _ => ?_
        split <;> exact ends_ok _
    · exact ends_ok []

private theorem ends_tailChild (layer idx : Nat) : Ends (tailChild t ps layer idx) := by
  unfold tailChild
  split
  · refine (Target.ends_mul _ _).bind fun _ _ => ?_
    split
    · exact (ends_unwrap _).bind fun _ _ => ends_ok _
    · exact ends_ok none
  · refine (Target.ends_sub _ _).bind fun _ _ => ?_
    split
    · exact (ends_unwrap _).bind fun _ _ => ends_ok _
    · exact ends_ok none

private theorem ends_tailSegmentStart (layer idx : Nat) : Ends (tailSegmentStart t ps layer idx) := by
  unfold tailSegmentStart
  split
  · exact Target.ends_mul _ _
  · refine (Target.ends_sub _ _).bind fun _ _ => (ends_scaleBase _ _ _).bind fun _ _ => ?_
    exact (Target.ends_mul _ _).bind fun _ _ => Target.ends_mul _ _

private theorem ends_proofsBelow (n layer : Nat) : Ends (proofsBelow t ps n layer) := by
  unfold proofsBelow
  split
  · exact ends_ok n
  · exact (Target.ends_sub _ _).bind fun _ _ => ends_numProofs _ _ _

private theorem ends_groupChild (layer i : Nat) : Ends (groupChild ps layer i) := by
  unfold groupChild
  split
  · exact (ends_unwrap _).bind fun _ _ => ends_ok _
  · exact ends_ok none

private theorem ends_segmentStartToInternalIdx (start layer la ia : Nat) :
    Ends (segmentStartToInternalIdxWithBatch t start layer la ia) := by
  refine (Target.ends_mul _ _).bind fun _ _ => (ends_scaleBase _ _ _).bind fun _ _ => ?_
  exact ends_div _ _

section
variable {ps}

private theorem ends_shape (hfuel : t.bits ≤ fuel) (hword : n < 2 ^ t.bits) (hla : 0 < ps.leafArity)
    (hstops : ps.LoopStops n) :
    Ends (shape t fuel ps n) := by
  unfold shape
  rw [divCeil_run hla hword, ok_bind]
  refine (numInternalLayers_ends hfuel ((divCeil_le hla).trans_lt hword) hstops).bind fun _ _ => ?_
  exact (Target.ends_sub _ _).bind fun _ _ => ends_ok _

private theorem shape_endless (hwraps : t.overflowChecks = false) (hword : n < 2 ^ t.bits) (hla : 0 < ps.leafArity)
    (hia : 0 < ps.internalArity) (hendless : ¬ ps.LoopStops n) (fuel : Nat) : ¬ Ends (shape t fuel ps n) := by
  unfold shape
  rw [divCeil_run hla hword, ok_bind]
  apply not_ends_bind
  rw [numInternalLayers_endless hwraps hia ((divCeil_le hla).trans_lt hword) hendless]
  exact fun hends => hends rfl

variable (hshape : ∀ n, ps.numSegments = some n → Ends (shape t fuel ps n))
include hshape

private theorem ends_internalRequest (layer : Nat) (children : List ProofBytes) (start last : Nat) (isFinal : Bool) :
    Ends (internalRequest t fuel ps layer children start last isFinal) := by
  have htail : Ends (buildDeferralTailDispatch t fuel ps layer) := by
    unfold buildDeferralTailDispatch
    split
    · exact ends_ok none
    · split
      · exact ends_ok none
      · rename_i n hn
        refine (hshape n hn).bind fun _ _ => ?_
        exact (ends_sumLayers _ _ _ _ _).bind fun _ _ => ends_ok _
  cases isFinal with
  | true => exact htail.bind fun _ _ => ends_ok _
  | false => exact ends_ok _

private theorem ends_triggerTailProof (leaves final layer : Nat) :
    Ends (triggerTailProof t fuel ps leaves final layer) := by
  refine (ends_proofsBelow ps leaves layer).bind fun _ _ => (ends_rem _ _).bind fun _ _ => ?_
  split
  · refine (Target.ends_sub _ _).bind fun _ _ => (ends_div _ _).bind fun _ _ => ?_
    split
    · exact ends_ok none
    · refine (Target.ends_withCapacity _ _).bind fun _ _ => (ends_tailSegmentStart ps layer _).bind fun _ _ => ?_
      refine (ends_gatherRun (fun i => ?_) 0 _).bind fun _ _ => ?_
      · exact (Target.ends_add _ _).bind fun _ _ => ends_tailChild ps layer _
      · split
        · exact ends_ok none
        · exact (ends_internalRequest hshape _ _ _ _ _).bind fun _ _ => ends_ok _
  · exact ends_ok none

private theorem ends_collectInternalGroup (layer idxStart idxEnd : Nat) (isNextLayerFinal : Bool) :
    Ends (collectInternalGroup t fuel ps layer idxStart idxEnd isNextLayerFinal) := by
  refine (Target.ends_sub _ _).bind fun _ _ => (Target.ends_add _ _).bind fun _ _ => ?_
  refine (Target.ends_withCapacity _ _).bind fun _ _ => ?_
  refine (ends_gatherRun (ends_groupChild ps layer) _ _).bind fun _ _ => ?_
  split
  · exact ends_ok []
  · refine (Target.ends_add _ _).bind fun _ _ => ?_
    exact (ends_internalRequest hshape _ _ _ _ _).bind fun _ _ => ends_ok _

private theorem ends_belowFinalLayer (state : InternalProofState) (shape : Shape) (idxStart idxEnd : Nat) :
    Ends (belowFinalLayer t fuel ps state shape idxStart idxEnd) := by
  refine (Target.ends_add _ _).bind fun _ _ => ?_
  dsimp only
  split
  · refine (Target.ends_add _ _).bind fun _ _ => (ends_unwrap _).bind fun _ _ => ?_
    exact (ends_internalRequest hshape _ _ _ _ _).bind fun _ _ => ends_ok _
  · refine (ends_numProofs _ _ _).bind fun _ _ => ?_
    split
    · exact ends_ok []
    · exact (Target.ends_sub _ _).bind fun _ _ => ends_collectInternalGroup hshape _ _ _ _

private theorem ends_afterInternalInsert (state : InternalProofState) (idx : Nat) :
    Ends (afterInternalInsert t fuel ps state idx) := by
  refine (ends_div _ _).bind fun _ _ => (Target.ends_mul _ _).bind fun _ _ => ?_
  refine (Target.ends_add _ _).bind fun _ _ => (Target.ends_sub _ _).bind fun _ _ => ?_
  split
  · exact (ends_collectInternalGroup hshape _ _ _ _).bind fun _ _ => ends_ok _
  · rename_i n hn
    refine (hshape n hn).bind fun _ _ => ?_
    split
    · exact ends_ok _
    · exact (ends_belowFinalLayer hshape _ _ _ _).bind fun _ _ => ends_ok _

end

section
variable {ps} (hwraps : t.overflowChecks = false) (hla : 0 < ps.leafArity) (hia : 0 < ps.internalArity)
include hwraps hla hia

private theorem isReadyForFinalization_ends_iff (hcount : ∀ n, ps.numSegments = some n → n < 2 ^ t.bits) :
    (∃ fuel, Ends (isReadyForFinalization t fuel ps)) ↔
      ps.context.proofType = .evm ∨ ∀ n, ps.numSegments = some n → ps.LoopStops n := by
  unfold isReadyForFinalization finalInternalProofPresent
  cases ps.context.proofType with
  | evm => exact iff_of_true ⟨0, ends_ok _⟩ (.inl rfl)
  | stark =>
    cases hn : ps.numSegments with
    | none => exact iff_of_true ⟨0, ends_ok _⟩ (.inr fun n hn => by cases hn)
    | some n =>
      have hword := hcount n hn
      constructor
      · rintro ⟨fuel, hends⟩
        refine .inr fun m hm => ?_
        obtain rfl := Option.some.inj hm
        by_contra hendless
        exact not_ends_bind (shape_endless hwraps hword hla hia hendless fuel) hends
      · rintro (hbad | hstops)
        · cases hbad
        · exact ⟨t.bits, (ends_shape (le_refl _) hword hla (hstops n rfl)).bind fun _ _ => ends_ok _⟩

private theorem handleExecuteE2Result_ends_iff {r : ExecuteE2Result}
    (hr : ProofResult.Decodable t.bits (.executeE2 r)) :
    (∃ fuel, Ends (handleExecuteE2Result t fuel ps r)) ↔
      ps.executeE2State.isSome = true ∨ r.state.numSegments = 0 ∨ ps.LoopStops r.state.numSegments ∨
        ¬ HoldsProofs t.bits (ps.flushRoom r.state.numSegments) := by
  unfold handleExecuteE2Result
  split
  · rename_i hold
    exact iff_of_true ⟨0, ends_ok _⟩ (.inl hold)
  · rename_i hnew
    dsimp only
    split
    · rename_i hzero
      exact iff_of_true ⟨0, ends_ok _⟩ (.inr (.inl hzero))
    · rename_i hzero
      have hpos := Nat.pos_of_ne_zero hzero
      constructor
      · rintro ⟨fuel, hends⟩
        refine .inr (.inr ?_)
        by_contra hnone
        obtain ⟨hendless, hroom⟩ := not_or.mp hnone
        have hflushed := @flushPendingLeafBatches_run t _ { ps with
          numSegments := some r.state.numSegments, executeE2State := some r.state } hla rfl hpos hr (not_not.mp hroom)
        rw [hflushed, ok_bind] at hends
        apply not_ends_bind (not_ends_bind _) hends
        exact shape_endless hwraps hr hla hia hendless fuel
      · rintro (hbad | hbad | hstops | hroom)
        · exact absurd hbad hnew
        · exact absurd hbad hzero
        · have hshape : Ends (shape t t.bits { ps with
              numSegments := some r.state.numSegments, executeE2State := some r.state } r.state.numSegments) :=
            ends_shape (le_refl _) hr hla hstops
          refine ⟨t.bits, (ends_flushPendingLeafBatches _).bind fun _ _ => ?_⟩
          refine (hshape.bind fun _ _ => ends_collectRun (fun layer => ?_) _ _).bind fun _ _ => ends_ok _
          exact ends_triggerTailProof (fun n hn => Option.some.inj hn ▸ hshape) _ _ layer
        · have hflushed := @flushPendingLeafBatches_overflow t _ { ps with
            numSegments := some r.state.numSegments, executeE2State := some r.state } hla rfl hpos hr hroom
          refine ⟨0, ?_⟩
          rw [hflushed, error_bind]
          intro hbad
          cases hbad

private theorem afterInternalInsert_endless {n : Nat} (hn : ps.numSegments = some n) (hword : n < 2 ^ t.bits)
    (hendless : ¬ ps.LoopStops n) (fuel : Nat) (slots : Slots InternalProofIndex InternalProofState)
    (state : InternalProofState) (idx : Nat) :
    ¬ Ends (afterInternalInsert t fuel { ps with internalProofs := slots } state idx) := by
  obtain ⟨idxEnd, hend⟩ := Target.sub_wraps hwraps
    ((idx / ps.internalArity * ps.internalArity % 2 ^ t.bits + ps.internalArity) % 2 ^ t.bits) 1
  have hshape := @shape_endless t n { ps with internalProofs := slots } hwraps hword hla hia hendless fuel
  unfold afterInternalInsert
  dsimp only
  rw [div_of_pos hia, ok_bind, Target.mul_wraps hwraps, ok_bind, Target.add_wraps hwraps, ok_bind, hend, ok_bind, hn]
  exact not_ends_bind hshape

omit hwraps hla hia in
private theorem ends_inserted (hshape : ∀ n, ps.numSegments = some n → Ends (shape t fuel ps n))
    (slots : Slots InternalProofIndex InternalProofState) (state : InternalProofState) (idx : Nat) :
    Ends (afterInternalInsert t fuel { ps with internalProofs := slots } state idx) :=
  @ends_afterInternalInsert t fuel { ps with internalProofs := slots } hshape state idx

private theorem handleInternalResult_ends_iff (hcount : ∀ n, ps.numSegments = some n → n < 2 ^ t.bits)
    (hlaWord : ps.leafArity < 2 ^ t.bits) (r : InternalProof) :
    (∃ fuel, Ends (handleInternalResult t fuel ps r)) ↔
      r.state.proof.isNone = true ∨ ps.outOfBounds (.internal r) = true ∨ ps.slotFilled (.internal r) = true ∨
        ∀ n, ps.numSegments = some n → ps.LoopStops n := by
  unfold handleInternalResult
  dsimp only
  split
  · rename_i hproof
    exact iff_of_true ⟨0, ends_ok _⟩ (.inl hproof)
  · rename_i hproof
    split
    · rename_i hout
      exact iff_of_true ⟨0, ends_ok _⟩ (.inr (.inl hout))
    · rename_i hout
      constructor
      · rintro ⟨fuel, hends⟩
        by_contra hnone
        simp only [not_or] at hnone
        obtain ⟨-, -, hnew, hloops⟩ := hnone
        obtain ⟨n, hn, hendless⟩ : ∃ n, ps.numSegments = some n ∧ ¬ ps.LoopStops n := by
          by_contra hall
          exact hloops fun n hn => by_contra fun hendless => hall ⟨n, hn, hendless⟩
        -- With an arity of one the index scale is the leaf arity, so nothing stops the handler before the loop.
        have hone : ps.internalArity = 1 := by
          unfold ProofState.LoopStops at hendless
          omega
        have hscale : ps.internalArity * ps.leafArity * ps.internalArity ^ r.state.layerIdx < 2 ^ t.bits := by
          rw [hone, Nat.one_pow, Nat.mul_one, Nat.one_mul]
          exact hlaWord
        rw [segmentStartToInternalIdx_run hla hia hscale, ok_bind] at hends
        split at hends
        · rename_i hfilled
          exact hnew hfilled
        · exact not_ends_bind (afterInternalInsert_endless hwraps hla hia hn (hcount n hn) hendless fuel _ _ _) hends
      · intro hstops
        refine ⟨t.bits, ?_⟩
        rcases Nat.lt_or_ge ps.internalArity 2 with hone | hia2
        · have hone : ps.internalArity = 1 := by omega
          have hscale : ps.internalArity * ps.leafArity * ps.internalArity ^ r.state.layerIdx < 2 ^ t.bits := by
            rw [hone, Nat.one_pow, Nat.mul_one, Nat.one_mul]
            exact hlaWord
          rw [segmentStartToInternalIdx_run hla hia hscale, ok_bind]
          split
          · exact ends_ok _
          · rename_i hnew
            rcases hstops with hbad | hbad | hbad | hstops
            · exact absurd hbad hproof
            · exact absurd hbad hout
            · exact absurd hbad hnew
            · refine (ends_inserted (fun n hn => ?_) _ _ _).bind fun _ _ => ends_ok _
              exact ends_shape (le_refl _) (hcount n hn) hla (hstops n hn)
        · refine (ends_segmentStartToInternalIdx _ _ _ _).bind fun idx _ => ?_
          split
          · exact ends_ok _
          · refine (ends_inserted (fun n hn => ?_) _ _ _).bind fun _ _ => ends_ok _
            exact ends_shape (le_refl _) (hcount n hn) hla (.inr hia2)

end
end
end Machine

structure AcceptedConfig where
  config : ManagerConfig
  accepted : config.validate = .ok ()
  leafArity_lt : config.proof.leafArity < 2 ^ 64
  internalArity_lt : config.proof.internalArity < 2 ^ 64

/-- A proof's state under the configuration. -/
structure AcceptedConfig.Proof (accepted : AcceptedConfig) where
  state : ProofState
  leafArity : state.leafArity = accepted.config.proof.leafArity
  internalArity : state.internalArity = accepted.config.proof.internalArity
  numSegments_lt : ∀ n, state.numSegments = some n → n < 2 ^ 64

def WireExecuteE2Result : Type := { r : ExecuteE2Result // ProofResult.Decodable 64 (.executeE2 r) }

/-- The layer loop ends over a leaf count exactly if it has one leaf at most or an arity above one, and a handler that
runs the loop ends exactly if it returns before the loop (`ExecuteE2` also by a panic, where its flush makes room for
more proofs than an allocation can hold) or the loop ends over the leaves it counts. -/
theorem tree_loop_ends_iff (accepted : AcceptedConfig) :
    (∀ leafCount : UInt64,
      (∃ fuel, Ends (Machine.numInternalLayersForLeafCount (usize false) fuel leafCount.toNat
        accepted.config.proof.internalArity)) ↔
      leafCount.toNat ≤ 1 ∨ 2 ≤ accepted.config.proof.internalArity) ∧
    ∀ proof : accepted.Proof,
      ((∃ fuel, Ends (Machine.isReadyForFinalization (usize false) fuel proof.state)) ↔
        proof.state.context.proofType = .evm ∨
          ∀ n, proof.state.numSegments = some n → proof.state.LoopStops n) ∧
      (∀ r : WireExecuteE2Result,
        (∃ fuel, Ends (Machine.handleExecuteE2Result (usize false) fuel proof.state r.1)) ↔
          proof.state.executeE2State.isSome = true ∨ r.1.state.numSegments = 0 ∨
            proof.state.LoopStops r.1.state.numSegments ∨
            ¬ HoldsProofs 64 (proof.state.flushRoom r.1.state.numSegments)) ∧
      ∀ r : InternalProof,
        (∃ fuel, Ends (Machine.handleInternalResult (usize false) fuel proof.state r)) ↔
          r.state.proof.isNone = true ∨ proof.state.outOfBounds (.internal r) = true ∨
            proof.state.slotFilled (.internal r) = true ∨
            ∀ n, proof.state.numSegments = some n → proof.state.LoopStops n := by
  obtain ⟨hla, hia⟩ := ManagerConfig.arities_pos accepted.accepted
  constructor
  · intro leafCount
    exact Machine.numInternalLayers_ends_iff rfl hia leafCount.toNat_lt
  · intro proof
    rw [← proof.leafArity] at hla
    rw [← proof.internalArity] at hia
    refine ⟨?_, fun r => ?_, fun r => ?_⟩
    · exact Machine.isReadyForFinalization_ends_iff rfl hla hia proof.numSegments_lt
    · exact Machine.handleExecuteE2Result_ends_iff rfl hla hia r.2
    · have hlaWord := proof.leafArity ▸ accepted.leafArity_lt
      exact Machine.handleInternalResult_ends_iff rfl hla hia proof.numSegments_lt hlaWord r

/-- The defaults, but that an internal proof folds a single child. -/
def unaryConfig : AcceptedConfig where
  config := ⟨⟨1⟩, { ProofConfig.default with internalArity := 1 }, ⟨1, 1, 1⟩, .default⟩
  accepted := rfl
  leafArity_lt := by decide
  internalArity_lt := by decide

/-- Over two leaves the loop never ends under a configuration that folds a single child. -/
theorem tree_loop_ends_fails : ¬ ∀ (accepted : AcceptedConfig) (leafCount : UInt64),
    ∃ fuel, Ends (Machine.numInternalLayersForLeafCount (usize false) fuel leafCount.toNat
      accepted.config.proof.internalArity) := by
  intro hall
  obtain ⟨fuel, hends⟩ := hall unaryConfig 2
  apply hends
  exact Machine.numInternalLayers_endless rfl (by decide) (by decide) (by decide) fuel

end EdgeProver
