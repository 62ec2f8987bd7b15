import EdgeProver.ProofState.NoFault
import EdgeProver.Tree.Children

/-! Honest runs on the words of the machine: where the segments below the root are a word, every delivery is handled
without a fault, and as the exact handlers do. -/
namespace EdgeProver
open FoldMachine FoldMachine.State MachineInt ProofState

/-- What an honest run over `n` segments may deliver next, and what then stays unanswered. -/
inductive Delivery (n : Nat) (s : TreeState) : List GeneralProveRequest → ProofResult → Prop where
  | executeE2 (r : ExecuteE2Result) : r.state.numSegments = n → (∀ q ∈ s.delivered, q.isExecuteE2 = false) →
      Delivery n s s.outstanding (.executeE2 r)
  | app (r : AppProof) : r.state.segmentIdx < n → r.state.proof.isSome →
      (∀ q ∈ s.delivered, q.appSegment ≠ some r.state.segmentIdx) → Delivery n s s.outstanding (.app r)
  | answer (before after : List GeneralProveRequest) (req : GeneralProveRequest) (r : ProofResult) :
      s.outstanding = before ++ req :: after → Answers req r → Delivery n s (before ++ after) r

theorem honestStep_iff {n : Nat} {s s' : TreeState} : HonestStep n s s' ↔
    ∃ rest now envelope, Delivery n s rest envelope.message ∧ s' = s.deliver rest now envelope := by
  constructor
  · intro h
    cases h with
    | executeE2 now envelope r hmsg hr hfresh => exact ⟨_, now, envelope, hmsg ▸ .executeE2 r hr hfresh, rfl⟩
    | app now envelope r hmsg hlt hproof hfresh => exact ⟨_, now, envelope, hmsg ▸ .app r hlt hproof hfresh, rfl⟩
    | answer now envelope before after req hout hans =>
        exact ⟨_, now, envelope, .answer before after req _ hout hans, rfl⟩
  · rintro ⟨rest, now, envelope, hdelivery, rfl⟩
    generalize hmsg : envelope.message = message at hdelivery
    cases hdelivery with
    | executeE2 r hr hfresh => exact .executeE2 s now envelope r hmsg hr hfresh
    | app r hlt hproof hfresh => exact .app s now envelope r hmsg hlt hproof hfresh
    | answer before after req _ hout hans => exact .answer s now envelope before after req hout (hmsg ▸ hans)

/-- Deliver one result to the handlers on the machine. Within a word every round of the layer loop halves what is
left, so 64 rounds are enough. -/
def TreeState.wordDeliver (s : TreeState) (overflowChecks : Bool) (outstanding : List GeneralProveRequest) (now : Time)
    (envelope : MessageEnvelope ProofResult) : MachineInt.Run TreeState := do
  let out ← Machine.handleProofResultWithEnvelopeOutcome (usize overflowChecks) 64 s.ps now envelope
  .ok {
    ps := out.1
    emitted := s.emitted ++ followUps out.2
    outstanding := outstanding ++ followUps out.2
    delivered := s.delivered ++ [envelope.message] }

/-- One delivery of an honest run that the machine's handlers take without a fault. -/
def WordStep (overflowChecks : Bool) (n : Nat) (s s' : TreeState) : Prop :=
  ∃ rest now envelope, Delivery n s rest envelope.message ∧ s.wordDeliver overflowChecks rest now envelope = .ok s'

def WordRun (overflowChecks : Bool) (p : TreeParams) (n : Nat) : TreeState → Prop :=
  Relation.ReflTransGen (WordStep overflowChecks n) (.start p)

/-- The manager takes whatever can come next without a fault. -/
def TakesAll (overflowChecks : Bool) (n : Nat) (s : TreeState) : Prop :=
  ∀ rest now (envelope : MessageEnvelope ProofResult), Delivery n s rest envelope.message →
    ∃ s', s.wordDeliver overflowChecks rest now envelope = .ok s'

/-- The segments that the root can hold are a word, and one allocation holds the proofs of a batch. -/
structure TreeParams.WithinWord (p : TreeParams) (n : Nat) : Prop where
  root : p.leafArity * p.internalArity ^ (p.finalLayer n + 1) < 2 ^ 64
  batch : HoldsProofs 64 p.leafArity

/-- The result is about the tree over `n` segments. -/
def ProofResult.InTree (p : TreeParams) (n : Nat) : ProofResult → Prop
  | .executeE2 r => r.state.numSegments = n
  | .app r => r.state.segmentIdx < n
  | .leaf r => r.state.segmentStart < n ∧ r.state.segmentEnd < n
  | .internal r => r.state.layerIdx ≤ p.finalLayer n ∧ r.state.segmentStart < n ∧ r.state.segmentEnd < n
  | .evm _ | .error _ => True

section
variable {p : TreeParams} {n : Nat} (ha : Arities p.leafArity p.internalArity) (hn : 0 < n)
include ha hn

private theorem segments_le_root : n ≤ p.leafArity * p.internalArity ^ (p.finalLayer n + 1) := by
  by_contra hlarge
  have hsecond : FoldTree.first (p.plan n).fan (p.finalLayer n + 2) 1 < n := by
    rw [FoldTree.first, Nat.one_mul, TreeParams.plan, size_layer]
    exact Nat.not_le.mp hlarge
  have htwo := (FoldTree.lt_width (plan_fan_pos ha n)).mpr hsecond
  rw [width_top ha hn] at htwo
  exact Nat.lt_irrefl 1 htwo

namespace TreeParams.WithinWord
variable (hw : p.WithinWord n)
include hw

private theorem segments_lt : n < 2 ^ 64 := (segments_le_root ha hn).trans_lt hw.root

omit hn in
theorem leafArity_lt : p.leafArity < 2 ^ 64 :=
  (Nat.le_mul_of_pos_right _ (Nat.pow_pos (Nat.zero_lt_of_lt ha.two_le_internal))).trans_lt hw.root

omit hn in
/-- A layer's arity is below half a word: the root is the answer of the second layer at least. -/
theorem internalArity_lt : p.internalArity < 2 ^ 32 := by
  have hpos : 0 < p.internalArity := Nat.zero_lt_of_lt ha.two_le_internal
  have hlayer : p.finalLayer n = p.finalLayer n - 1 + 1 := by
    unfold TreeParams.finalLayer
    omega
  have hsquare : p.internalArity ^ 2 ≤ p.leafArity * p.internalArity ^ (p.finalLayer n + 1) := by
    calc p.internalArity ^ 2 ≤ p.internalArity ^ (p.finalLayer n + 1) := Nat.pow_le_pow_right hpos (by omega)
      _ ≤ p.leafArity * p.internalArity ^ (p.finalLayer n + 1) := Nat.le_mul_of_pos_left _ ha.leaf_pos
  by_contra hlarge
  have hbad : (2 ^ 32) ^ 2 ≤ p.internalArity ^ 2 := Nat.pow_le_pow_left (Nat.not_lt.mp hlarge) 2
  have hroot := hw.root
  omega

omit hn in
theorem group : HoldsProofs 64 p.internalArity := by
  have hsmall := hw.internalArity_lt ha
  show p.internalArity * 24 < 2 ^ 63
  omega

omit hn in
private theorem leaves_lt : p.internalArity ^ (p.finalLayer n + 1) < 2 ^ 64 :=
  (Nat.le_mul_of_pos_left _ ha.leaf_pos).trans_lt hw.root

end TreeParams.WithinWord

omit hn in
private theorem finalLayer_lt (hn64 : n < 2 ^ 64) : p.finalLayer n < 64 := by
  have hleaves : divCeil n p.leafArity ≤ 2 ^ 64 := ((Machine.divCeil_le ha.leaf_pos).trans_lt hn64).le
  have hlayers := Machine.numInternalLayers_le (k := 64) ha.two_le_internal (by decide) hleaves
  unfold TreeParams.finalLayer TreeParams.numLayers
  omega

omit hn in
private theorem ProofResult.InTree.decodable {r : ProofResult} (h : r.InTree p n) (hn64 : n < 2 ^ 64) :
    r.Decodable 64 := by
  cases r with
  | executeE2 r =>
    have hcount : r.state.numSegments = n := h
    rw [← hcount] at hn64
    exact hn64
  | app r => exact Nat.lt_trans h hn64
  | leaf r => exact ⟨h.1.trans hn64, h.2.trans hn64⟩
  | internal r =>
    have hlayer := h.1.trans_lt (finalLayer_lt ha hn64)
    exact ⟨hlayer.trans (by decide), h.2.1.trans hn64, h.2.2.trans hn64⟩
  | evm r => trivial
  | error r => trivial

omit ha hn in
private theorem group_end_le {width count i : Nat} (h : i < count * width) :
    i / width * width + width ≤ count * width := by
  have hlt : i / width < count := Nat.div_lt_of_lt_mul (Nat.mul_comm count width ▸ h)
  calc i / width * width + width = (i / width + 1) * width := (Nat.succ_mul _ _).symm
    _ ≤ count * width := Nat.mul_le_mul_right _ hlt

private theorem ProofResult.InTree.staysWithin {r : ProofResult} (h : r.InTree p n) (hw : p.WithinWord n)
    {ps : ProofState}
    (hla : ps.leafArity = p.leafArity) (hia : ps.internalArity = p.internalArity) : ps.StaysWithin 64 r := by
  have hsegments := segments_le_root ha hn
  have hleafPos : 0 < ps.leafArity := hla ▸ ha.leaf_pos
  have hinternalPos : 0 < ps.internalArity := hia ▸ Nat.zero_lt_of_lt ha.two_le_internal
  have hbatch : HoldsProofs 64 ps.leafArity := hla ▸ hw.batch
  have hgroup : HoldsProofs 64 ps.internalArity := hia ▸ hw.group ha
  have hroot := hw.root
  have hleaves := hw.leaves_lt ha
  rw [← hla, ← hia] at hsegments hroot
  rw [← hia] at hleaves
  cases r with
  | executeE2 r =>
    refine .inr (.inr ⟨hbatch.mono (flushRoom_le hleafPos _), fun layer _ =>
      hgroup.mono (tailRoom_le hinternalPos _ _)⟩)
  | app r =>
    have hend := ps.actualBatchEnd_le (r.state.segmentIdx / ps.leafArity * ps.leafArity)
    refine ⟨?_, hbatch.mono (by omega)⟩
    have hlt : r.state.segmentIdx < ps.internalArity ^ (p.finalLayer n + 1) * ps.leafArity :=
      (Nat.lt_of_lt_of_le h hsegments).trans_eq (Nat.mul_comm _ _)
    exact ((group_end_le hlt).trans_eq (Nat.mul_comm _ _)).trans_lt hroot
  | leaf r =>
    have hend := ps.groupEndLeafIdx_le (ps.groupStart r.state.segmentStart)
    have hleaf : r.state.segmentStart / ps.leafArity < ps.internalArity ^ (p.finalLayer n) * ps.internalArity := by
      rw [← Nat.pow_succ]
      exact Nat.div_lt_of_lt_mul (Nat.lt_of_lt_of_le h.1 hsegments)
    have hlast : ps.groupStart r.state.segmentStart + ps.internalArity ≤ ps.internalArity ^ (p.finalLayer n + 1) :=
      group_end_le hleaf
    refine ⟨hlast.trans_lt hleaves, hgroup.mono (by omega), fun i _ hi _ => ?_⟩
    calc i * ps.leafArity ≤ ps.internalArity ^ (p.finalLayer n + 1) * ps.leafArity := Nat.mul_le_mul_right _ (by omega)
      _ = ps.leafArity * ps.internalArity ^ (p.finalLayer n + 1) := Nat.mul_comm _ _
      _ < 2 ^ 64 := hroot
  | internal r =>
    refine ⟨?_, .inr (hgroup.mono (groupRoom_le _ _))⟩
    calc ps.internalArity * ps.leafArity * ps.internalArity ^ r.state.layerIdx
        = ps.leafArity * ps.internalArity ^ (r.state.layerIdx + 1) := by ring
      _ ≤ ps.leafArity * ps.internalArity ^ (p.finalLayer n + 1) :=
        Nat.mul_le_mul_left _ (Nat.pow_le_pow_right hinternalPos (Nat.succ_le_succ h.1))
      _ < 2 ^ 64 := hroot
  | evm r => trivial
  | error r => trivial

private theorem History.inTree_of_answers {s : TreeState} {m : State ProofBytes} (h : History p n s m)
    {req : GeneralProveRequest} (hreq : req ∈ s.emitted) {r : ProofResult} (hans : Answers req r) : r.InTree p n := by
  have hnode {o : Order ProofBytes} (ho : orderOf p req = some o) :
      o.level ≤ p.finalLayer n + 2 ∧ FoldTree.first (p.plan n).fan o.level o.index < n := by
    have hmem : o ∈ m.emitted := by
      rw [← h.orders]
      exact List.mem_filterMap.mpr ⟨req, hreq, ho⟩
    obtain ⟨hlevel, hindex⟩ := awaited_valid h.inv (.inr ⟨o, hmem, rfl, rfl⟩)
    exact ⟨hlevel, (FoldTree.lt_width (plan_fan_pos ha n)).mp hindex⟩
  cases req with
  | leafProve q =>
    cases r with
    | leaf r =>
      obtain ⟨hstart, hend, -⟩ := hans
      obtain ⟨j, hfirst, hlast⟩ := h.ranged _ hreq
      have hdiv : q.segmentStart / p.leafArity = j := by
        rw [hfirst, FoldTree.first, TreeParams.plan, size_leaf]
        exact Nat.mul_div_cancel j ha.leaf_pos
      obtain ⟨-, hlt⟩ := hnode (o := ⟨1, j, q.appProofs⟩) (by rw [orderOf, hdiv])
      exact ⟨by rwa [hstart, hfirst], by rw [hend, hlast]; exact FoldTree.last_lt hn⟩
    | _ => exact hans.elim
  | internalProve q =>
    cases r with
    | internal r =>
      obtain ⟨hlayer, hstart, hend, -⟩ := hans
      obtain ⟨j, hfirst, hlast⟩ := h.ranged _ hreq
      have hidx : segmentStartToInternalIdxWithBatch q.segmentStart q.layerIdx p.leafArity p.internalArity = j := by
        rw [hfirst]
        exact segmentStartToInternalIdx_first ha _ j
      obtain ⟨hlevel, hlt⟩ := hnode (o := ⟨q.layerIdx + 2, j, q.childProofs⟩) (by rw [orderOf, hidx])
      refine ⟨?_, by rwa [hstart, hfirst], by rw [hend, hlast]; exact FoldTree.last_lt hn⟩
      rw [hlayer]
      exact Nat.le_of_add_le_add_right hlevel
    | _ => exact hans.elim
  | evmProve q =>
    cases r with
    | evm r => trivial
    | _ => exact hans.elim

omit ha hn in
private theorem Delivery.rest_subset {s : TreeState} {rest : List GeneralProveRequest} {r : ProofResult}
    (h : Delivery n s rest r) : rest ⊆ s.outstanding := by
  cases h with
  | executeE2 => exact List.Subset.refl _
  | app => exact List.Subset.refl _
  | answer before after req _ hout =>
    rw [hout]
    exact List.append_subset.mpr ⟨List.subset_append_left _ _,
      List.Subset.trans (List.subset_cons_self _ _) (List.subset_append_right _ _)⟩

omit ha hn in
private theorem outstanding_subset {s : TreeState} (h : HonestRun p n s) : s.outstanding ⊆ s.emitted := by
  induction h with
  | refl => exact List.Subset.refl _
  | tail _ hs ih =>
    obtain ⟨rest, now, envelope, hdelivery, rfl⟩ := honestStep_iff.mp hs
    have hrest := List.Subset.trans hdelivery.rest_subset ih
    exact List.append_subset.mpr ⟨List.subset_append_of_subset_left _ hrest, List.subset_append_right _ _⟩

theorem Delivery.inTree {s : TreeState} {rest : List GeneralProveRequest} {r : ProofResult} (h : Delivery n s rest r)
    (hrun : HonestRun p n s) : r.InTree p n := by
  cases h with
  | executeE2 r hr => exact hr
  | app r hlt => exact hlt
  | answer before after req r hout hans =>
    obtain ⟨m, hist, -⟩ := history_of_run ha hn hrun
    apply hist.inTree_of_answers ha hn (outstanding_subset hrun _) hans
    rw [hout]
    exact List.mem_append_right _ List.mem_cons_self

structure TreeParams.Words (p : TreeParams) (n : Nat) : Prop where
  leafArity : p.leafArity < 2 ^ 64
  internalArity : p.internalArity < 2 ^ 64
  segments : n < 2 ^ 64

theorem TreeParams.WithinWord.words (hw : p.WithinWord n) : p.Words n where
  leafArity := hw.leafArity_lt ha
  internalArity := (hw.internalArity_lt ha).trans (by decide)
  segments := hw.segments_lt ha hn

/-- Every state of an honest run fits the machine, under the arities it started with. -/
theorem fits_of_honestRun (hwords : p.Words n) {s : TreeState} (h : HonestRun p n s) (overflowChecks : Bool) :
    Machine.Fits (usize overflowChecks) 64 s.ps ∧ s.ps.leafArity = p.leafArity ∧
    s.ps.internalArity = p.internalArity := by
  induction h with
  | refl =>
    refine ⟨?_, rfl, rfl⟩
    exact {
      bits := show 2 ≤ 64 by decide
      fuel := le_refl 64
      arities := ha
      leafArity := hwords.leafArity
      internalArity := hwords.internalArity
      count := fun n hn => by cases hn
      leafProofs := fun i st hst => by cases hst
      internalProofs := fun i st hst => by cases hst }
  | @tail s _ hrun hs ih =>
    obtain ⟨hfits, hla, hia⟩ := ih
    obtain ⟨rest, now, envelope, hdelivery, rfl⟩ := honestStep_iff.mp hs
    have hdecodable := (hdelivery.inTree ha hn hrun).decodable ha hwords.segments
    refine ⟨Machine.fits_handleEnvelope hfits now hdecodable, ?_⟩
    have hps : (s.deliver rest now envelope).ps = (s.ps.handleProofResultWithEnvelopeOutcome now envelope).1 := rfl
    rw [hps, handleEnvelope_eq]
    split
    · exact ⟨hla, hia⟩
    · have hframe := frame_handleProofResult { s.ps with lastUpdated := now } envelope.message
      exact ⟨hframe.leafArity.trans hla, hframe.internalArity.trans hia⟩

/-- What is safe is handled without a fault in every build, as the exact handlers do. -/
theorem handleEnvelope_of_safe (hwords : p.Words n) {s : TreeState} (hrun : HonestRun p n s)
    {rest : List GeneralProveRequest} {envelope : MessageEnvelope ProofResult}
    (hdelivery : Delivery n s rest envelope.message) (hsafe : s.ps.Safe 64 envelope.message) (overflowChecks : Bool)
    (now : Time) : Machine.handleProofResultWithEnvelopeOutcome (usize overflowChecks) 64 s.ps now envelope =
      .ok (s.ps.handleProofResultWithEnvelopeOutcome now envelope) := by
  obtain ⟨hfits, -, -⟩ := fits_of_honestRun ha hn hwords hrun overflowChecks
  exact Machine.handleEnvelope_run hfits now ((hdelivery.inTree ha hn hrun).decodable ha hwords.segments) hsafe

theorem wordDeliver_of_safe (hwords : p.Words n) {s : TreeState} (hrun : HonestRun p n s)
    {rest : List GeneralProveRequest} {now : Time} {envelope : MessageEnvelope ProofResult}
    (hdelivery : Delivery n s rest envelope.message) (hsafe : s.ps.Safe 64 envelope.message) (overflowChecks : Bool) :
    s.wordDeliver overflowChecks rest now envelope = .ok (s.deliver rest now envelope) := by
  unfold TreeState.wordDeliver
  rw [handleEnvelope_of_safe ha hn hwords hrun hdelivery hsafe, ok_bind]
  rfl

/-- With overflow checks only what is safe is handled. -/
theorem safe_of_wordDeliver (hwords : p.Words n) {s s' : TreeState} (hrun : HonestRun p n s)
    {rest : List GeneralProveRequest} {now : Time} {envelope : MessageEnvelope ProofResult}
    (hdelivery : Delivery n s rest envelope.message) (htaken : s.wordDeliver true rest now envelope = .ok s') :
    s.ps.Safe 64 envelope.message := by
  obtain ⟨hfits, -, -⟩ := fits_of_honestRun ha hn hwords hrun true
  have hdecodable := (hdelivery.inTree ha hn hrun).decodable ha hwords.segments
  unfold TreeState.wordDeliver at htaken
  cases hout : Machine.handleProofResultWithEnvelopeOutcome (usize true) 64 s.ps now envelope with
  | ok out => exact Machine.safe_of_handleEnvelope hfits rfl hdecodable hout
  | error fault =>
    rw [hout, error_bind] at htaken
    cases htaken

variable (hw : p.WithinWord n)
include hw

theorem safe_of_delivery {s : TreeState} (hrun : HonestRun p n s) {rest : List GeneralProveRequest} {r : ProofResult}
    (hdelivery : Delivery n s rest r) : s.ps.Safe 64 r := by
  obtain ⟨-, hla, hia⟩ := fits_of_honestRun ha hn (hw.words ha hn) hrun true
  exact .inr (.inr (.inr (.inr ((hdelivery.inTree ha hn hrun).staysWithin ha hn hw hla hia))))

/-- What comes next is handled without a fault in every build, as the exact handlers do. -/
theorem wordDeliver_eq {s : TreeState} (hrun : HonestRun p n s) {rest : List GeneralProveRequest} {now : Time}
    {envelope : MessageEnvelope ProofResult} (hdelivery : Delivery n s rest envelope.message) (overflowChecks : Bool) :
    s.wordDeliver overflowChecks rest now envelope = .ok (s.deliver rest now envelope) :=
  wordDeliver_of_safe ha hn (hw.words ha hn) hrun hdelivery (safe_of_delivery ha hn hw hrun hdelivery) overflowChecks

/-- Within the word the runs on the machine are the honest runs, whatever the build. -/
theorem wordRun_iff {s : TreeState} {overflowChecks : Bool} : WordRun overflowChecks p n s ↔ HonestRun p n s := by
  constructor
  · intro h
    induction h with
    | refl => exact .refl
    | tail _ hs ih =>
      obtain ⟨rest, now, envelope, hdelivery, hs'⟩ := hs
      rw [wordDeliver_eq ha hn hw ih hdelivery] at hs'
      exact ih.tail (honestStep_iff.mpr ⟨rest, now, envelope, hdelivery, (Except.ok.inj hs').symm⟩)
  · intro h
    induction h with
    | refl => exact .refl
    | tail hrun hs ih =>
      obtain ⟨rest, now, envelope, hdelivery, rfl⟩ := honestStep_iff.mp hs
      exact ih.tail ⟨rest, now, envelope, hdelivery, wordDeliver_eq ha hn hw hrun hdelivery overflowChecks⟩

theorem WordRun.honest {s : TreeState} {overflowChecks : Bool} (h : WordRun overflowChecks p n s) : HonestRun p n s :=
  (wordRun_iff ha hn hw).mp h

/-- No state of an honest run meets a result that it cannot take. -/
theorem HonestRun.takesAll {s : TreeState} (h : HonestRun p n s) (overflowChecks : Bool) :
    TakesAll overflowChecks n s :=
  fun _ _ _ hdelivery => ⟨_, wordDeliver_eq ha hn hw h hdelivery overflowChecks⟩

end

/-- Within the word no request of a run on the machine is sent twice, each carries exactly the proofs of its children,
in order, under its own segment range, and whatever comes next is taken without a fault. -/
theorem exactChildren_of_wordRun {p : TreeParams} {n : Nat} (ha : Arities p.leafArity p.internalArity) (hn : 0 < n)
    (hw : p.WithinWord n) {overflowChecks : Bool} {s : TreeState} (h : WordRun overflowChecks p n s) :
    ExactChildren p n s ∧ TakesAll overflowChecks n s := by
  have hrun := h.honest ha hn hw
  exact ⟨exactChildren_of_honestRun ha hn hrun, hrun.takesAll ha hn hw overflowChecks⟩

theorem unevenParams_withinWord : unevenParams.WithinWord 5 := ⟨by decide, by decide⟩

theorem wordRun_uneven (overflowChecks : Bool) : WordRun overflowChecks unevenParams 5 unevenRun :=
  (wordRun_iff ⟨by decide, by decide⟩ (by decide) unevenParams_withinWord).mpr honestRun_uneven

/-- Five segments make three leaves, the last of them not full, and two groups of leaves, the second not full. -/
theorem exactChildren_unevenRun : ExactChildren unevenParams 5 unevenRun ∧ unevenRun.emitted.length = 7 := by
  have hrun := wordRun_uneven false
  have h := exactChildren_of_wordRun ⟨by decide, by decide⟩ (by decide) unevenParams_withinWord hrun
  exact ⟨h.1, by decide⟩

def GeneralProveRequest.answeredBy : GeneralProveRequest → ProofResult → Bool
  | .leafProve q, .leaf r =>
    r.state.segmentStart == q.segmentStart && r.state.segmentEnd == q.segmentEnd && r.state.proof.isSome
  | .internalProve q, .internal r =>
    r.state.layerIdx == q.layerIdx && r.state.segmentStart == q.segmentStart && r.state.segmentEnd == q.segmentEnd &&
      r.state.proof.isSome
  | .evmProve _, .evm r => r.state.proof.isSome
  | _, _ => false

theorem answers_of_answeredBy {req : GeneralProveRequest} {r : ProofResult} (h : req.answeredBy r = true) :
    Answers req r := by
  cases req <;> cases r <;> simp_all [GeneralProveRequest.answeredBy, Answers]

namespace TreeState

/-- What stays unanswered after this result, if it can come next; an answer is to the oldest request. -/
def restAfter (n : Nat) (s : TreeState) : ProofResult → Option (List GeneralProveRequest)
  | .executeE2 r =>
    if r.state.numSegments = n ∧ ∀ q ∈ s.delivered, q.isExecuteE2 = false then some s.outstanding else none
  | .app r =>
    if r.state.segmentIdx < n ∧ r.state.proof.isSome ∧ ∀ q ∈ s.delivered, q.appSegment ≠ some r.state.segmentIdx
    then some s.outstanding else none
  | r => s.outstanding.head?.bind fun req => if req.answeredBy r then some s.outstanding.tail else none

def wordPlay (n : Nat) (s : TreeState) : List ProofResult → Option TreeState
  | [] => some s
  | r :: rs => do
    let rest ← s.restAfter n r
    let s ← (s.wordDeliver false rest 0 ⟨0, "", r⟩).toOption
    s.wordPlay n rs

private theorem delivery_of_restAfter {n : Nat} {s : TreeState} {r : ProofResult} {rest : List GeneralProveRequest}
    (h : s.restAfter n r = some rest) : Delivery n s rest r := by
  have hanswer (h : (s.outstanding.head?.bind fun req =>
      if req.answeredBy r then some s.outstanding.tail else none) = some rest) : Delivery n s rest r := by
    obtain ⟨req, hreq, hrest⟩ := Option.bind_eq_some_iff.mp h
    obtain ⟨later, hout⟩ := List.head?_eq_some_iff.mp hreq
    rw [hout, List.tail_cons, Option.ite_none_right_eq_some] at hrest
    obtain ⟨hanswered, hrest⟩ := hrest
    obtain rfl := Option.some.inj hrest
    exact .answer [] later req r hout (answers_of_answeredBy hanswered)
  cases r with
  | executeE2 r =>
    obtain ⟨⟨hcount, hfresh⟩, hrest⟩ := Option.ite_none_right_eq_some.mp h
    exact Option.some.inj hrest ▸ .executeE2 r hcount hfresh
  | app r =>
    obtain ⟨⟨hlt, hproof, hfresh⟩, hrest⟩ := Option.ite_none_right_eq_some.mp h
    exact Option.some.inj hrest ▸ .app r hlt hproof hfresh
  | _ => exact hanswer h

theorem wordRun_of_play {p : TreeParams} {n : Nat} {rs : List ProofResult} {s s' : TreeState} (h : WordRun false p n s)
    (hplay : s.wordPlay n rs = some s') : WordRun false p n s' := by
  induction rs generalizing s with
  | nil => exact Option.some.inj hplay ▸ h
  | cons r rs ih =>
    obtain ⟨rest, hrest, hplay⟩ := Option.bind_eq_some_iff.mp hplay
    obtain ⟨next, hnext, hplay⟩ := Option.bind_eq_some_iff.mp hplay
    refine ih (h.tail ⟨rest, 0, ⟨0, "", r⟩, delivery_of_restAfter hrest, ?_⟩) hplay
    cases hdeliver : s.wordDeliver false rest 0 ⟨0, "", r⟩ with
    | ok taken =>
      rw [hdeliver] at hnext
      exact congrArg _ (Option.some.inj hnext)
    | error fault =>
      rw [hdeliver] at hnext
      cases hnext

/-- A result that can come next and ends in a fault. -/
theorem not_takesAll {n : Nat} {s : TreeState} {r : ProofResult} {rest : List GeneralProveRequest} {fault : Fault}
    (hrest : s.restAfter n r = some rest) (hfault : s.wordDeliver false rest 0 ⟨0, "", r⟩ = .error fault) :
    ¬ TakesAll false n s := by
  intro htakes
  obtain ⟨s', hs'⟩ := htakes rest 0 ⟨0, "", r⟩ (delivery_of_restAfter hrest)
  rw [hfault] at hs'
  cases hs'

end TreeState

/-- An internal proof folds up to half a word of children, so two layers of them fill it. -/
def halfWordParams (leafArity : Nat) : TreeParams :=
  { sampleParams .stark with leafArity := leafArity, internalArity := 2 ^ 32 }

/-- Leaves of one and groups of seven. -/
def sevenParams : TreeParams := { sampleParams .stark with internalArity := 7 }

/-- Where the segments fill the word, the end of the last group wraps, and an internal request is sent without its
child. -/
theorem exactChildren_fails : ¬ ∀ (p : TreeParams) (n : Nat) (s : TreeState), Arities p.leafArity p.internalArity →
    0 < n → WordRun false p n s → ExactChildren p n s := by
  intro hall
  obtain ⟨s, hplay, hsent⟩ : ∃ s, (TreeState.start sevenParams).wordPlay (2 ^ 64 - 1)
      [sampleApp (2 ^ 64 - 2), sampleLeaf (2 ^ 64 - 2)] = some s ∧ s.emitted.getLast? =
        some (.internalProve ⟨sampleContext .stark, [], 0, 2 ^ 64 - 2, 2 ^ 64 - 2, false, none, none⟩) :=
    ⟨_, rfl, rfl⟩
  have h := hall sevenParams (2 ^ 64 - 1) s ⟨by decide, by decide⟩ (by decide) (TreeState.wordRun_of_play .refl hplay)
  obtain ⟨idx, hkey, -, -, -, hchildren⟩ := h.internal_children _ (List.mem_of_getLast? hsent)
  have hidx : idx = (2 ^ 64 - 2) / 7 := by
    have heq : internalKey sevenParams (.internalProve
      ⟨sampleContext .stark, [], 0, 2 ^ 64 - 2, 2 ^ 64 - 2, false, none, none⟩) = some (0, (2 ^ 64 - 2) / 7) := rfl
    rw [heq] at hkey
    exact (Prod.mk.inj (Option.some.inj hkey)).2.symm
  have hbelow : childCount sevenParams (2 ^ 64 - 1) 0 = 2 ^ 64 - 1 := by
    simp [childCount, FoldTree.width, treeFan, sevenParams, sampleParams]
  have hlength := congrArg List.length hchildren
  rw [hbelow, hidx] at hlength
  simp [sevenParams] at hlength

end EdgeProver
