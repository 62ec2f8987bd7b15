import Mathlib.Logic.Relation
import EdgeProver.ProofState.ResultHandler

/-! Runs of one recursion tree: an App result for every segment, one ExecuteE2 result, and
an answer to every request, delivered in any order. -/
namespace EdgeProver

structure TreeParams where
  startTime : Time
  context : ProofContext
  costLimit : Nat
  numWorkers : Nat
  leafArity : Nat
  internalArity : Nat
  timeoutSecs : Nat
  deferralCircuitCount : Nat

def TreeParams.initial (p : TreeParams) : ProofState :=
  { ProofState.new p.startTime p.context p.costLimit p.numWorkers p.leafArity p.internalArity
      p.timeoutSecs with
    deferralCircuitCount := p.deferralCircuitCount }

def followUps : Except String ProofState.ProofResultEnvelopeOutcome → List GeneralProveRequest
  | .ok (.processed requests _) => requests
  | _ => []

structure TreeState where
  ps : ProofState
  emitted : List GeneralProveRequest
  /-- Emitted and not answered yet. -/
  outstanding : List GeneralProveRequest
  delivered : List ProofResult

namespace TreeState

def start (p : TreeParams) : TreeState := ⟨p.initial, [], [], []⟩

/-- Deliver one result; `outstanding` is what stays unanswered. -/
def deliver (s : TreeState) (outstanding : List GeneralProveRequest) (now : Time)
    (envelope : MessageEnvelope ProofResult) : TreeState :=
  let out := s.ps.handleProofResultWithEnvelopeOutcome now envelope
  { ps := out.1
    emitted := s.emitted ++ followUps out.2
    outstanding := outstanding ++ followUps out.2
    delivered := s.delivered ++ [envelope.message] }

end TreeState

/-- An honest answer: same kind, layer and segment range, with proof bytes. -/
def Answers : GeneralProveRequest → ProofResult → Prop
  | .leafProve q, .leaf r =>
    r.state.segmentStart = q.segmentStart ∧ r.state.segmentEnd = q.segmentEnd ∧ r.state.proof.isSome
  | .internalProve q, .internal r =>
    r.state.layerIdx = q.layerIdx ∧ r.state.segmentStart = q.segmentStart ∧
      r.state.segmentEnd = q.segmentEnd ∧ r.state.proof.isSome
  | .evmProve _, .evm r => r.state.proof.isSome
  | _, _ => False

def ProofResult.isExecuteE2 : ProofResult → Bool
  | .executeE2 _ => true
  | _ => false

def ProofResult.appSegment : ProofResult → Option Nat
  | .app r => some r.state.segmentIdx
  | _ => none

/-- One delivery of an honest run over `n` segments. -/
inductive HonestStep (n : Nat) : TreeState → TreeState → Prop where
  | executeE2 (s : TreeState) (now : Time) (envelope : MessageEnvelope ProofResult)
      (r : ExecuteE2Result) : envelope.message = .executeE2 r → r.state.numSegments = n →
      (∀ q ∈ s.delivered, q.isExecuteE2 = false) →
      HonestStep n s (s.deliver s.outstanding now envelope)
  | app (s : TreeState) (now : Time) (envelope : MessageEnvelope ProofResult) (r : AppProof) :
      envelope.message = .app r → r.state.segmentIdx < n → r.state.proof.isSome →
      (∀ q ∈ s.delivered, q.appSegment ≠ some r.state.segmentIdx) →
      HonestStep n s (s.deliver s.outstanding now envelope)
  | answer (s : TreeState) (now : Time) (envelope : MessageEnvelope ProofResult)
      (before after : List GeneralProveRequest) (req : GeneralProveRequest) :
      s.outstanding = before ++ req :: after → Answers req envelope.message →
      HonestStep n s (s.deliver (before ++ after) now envelope)

def HonestRun (p : TreeParams) (n : Nat) : TreeState → Prop :=
  Relation.ReflTransGen (HonestStep n) (.start p)

def appProofOf (rs : List ProofResult) (segment : Nat) : Option ProofBytes :=
  rs.findSome? fun
    | .app r => if r.state.segmentIdx = segment then r.state.proof else none
    | _ => none

def leafProofOf (rs : List ProofResult) (segmentStart : Nat) : Option ProofBytes :=
  rs.findSome? fun
    | .leaf r => if r.state.segmentStart = segmentStart then r.state.proof else none
    | _ => none

def internalProofOf (rs : List ProofResult) (layerIdx segmentStart : Nat) : Option ProofBytes :=
  rs.findSome? fun
    | .internal r =>
      if r.state.layerIdx = layerIdx ∧ r.state.segmentStart = segmentStart then r.state.proof else none
    | _ => none

/-- The first payload of a kind that an App result shipped. -/
def shippedBytes (field : AppProofState → Option Bytes) (rs : List ProofResult) : Option Bytes :=
  rs.findSome? fun
    | .app r => field r.state
    | _ => none

/-- The proof of node `idx` one level below layer `layerIdx`: leaves under layer 0. -/
def childProofOf (p : TreeParams) (rs : List ProofResult) (layerIdx idx : Nat) : Option ProofBytes :=
  match layerIdx with
  | 0 => leafProofOf rs (idx * p.leafArity)
  | below + 1 => internalProofOf rs below
      (segmentStartOfInternalProofForLeafCount p.leafArity p.internalArity below idx)

/-- How many nodes there are one level below layer `layerIdx`. -/
def childCount (p : TreeParams) (n layerIdx : Nat) : Nat :=
  FoldTree.width (treeFan p.leafArity p.internalArity) n (layerIdx + 1)

def leafKey : GeneralProveRequest → Option Nat
  | .leafProve q => some q.segmentStart
  | _ => none

def internalKey (p : TreeParams) : GeneralProveRequest → Option (Nat × Nat)
  | .internalProve q => some (q.layerIdx,
      segmentStartToInternalIdxWithBatch q.segmentStart q.layerIdx p.leafArity p.internalArity)
  | _ => none

def sampleContext (proofType : ProofType) : ProofContext := ⟨"proof", ⟨"program", 1⟩, [], proofType⟩

def sampleParams (proofType : ProofType) : TreeParams where
  startTime := 0
  context := sampleContext proofType
  costLimit := 100
  numWorkers := 1
  leafArity := 1
  internalArity := 2
  timeoutSecs := 3600
  deferralCircuitCount := 1

def sampleE2 (n : Nat) : ProofResult := .executeE2 ⟨sampleContext .stark, ⟨n, [], 10⟩⟩
def sampleApp (i : Nat) : ProofResult :=
  .app ⟨sampleContext .stark, ⟨some [i.toUInt8], i, if i = 0 then some [7] else none, none⟩⟩
def sampleLeaf (i : Nat) : ProofResult := .leaf ⟨sampleContext .stark, ⟨some [i.toUInt8], i, i⟩⟩
def sampleInternal (layer first last : Nat) : ProofResult :=
  .internal ⟨sampleContext .stark, ⟨some [9], layer, first, last, none, true⟩⟩

namespace TreeState

def feed (s : TreeState) (r : ProofResult) : TreeState := s.deliver s.outstanding 0 ⟨0, "", r⟩

def answer (s : TreeState) (r : ProofResult) : TreeState := s.deliver s.outstanding.tail 0 ⟨0, "", r⟩

end TreeState

namespace HonestRun
variable {p : TreeParams} {n : Nat} {s : TreeState} (h : HonestRun p n s)
include h

theorem app {i : Nat} (hi : i < n) (hfresh : ∀ q ∈ s.delivered, q.appSegment ≠ some i) :
    HonestRun p n (s.feed (sampleApp i)) :=
  h.tail (.app s 0 ⟨0, "", sampleApp i⟩ _ rfl hi rfl hfresh)

theorem executeE2 (hfresh : ∀ q ∈ s.delivered, q.isExecuteE2 = false) :
    HonestRun p n (s.feed (sampleE2 n)) :=
  h.tail (.executeE2 s 0 ⟨0, "", sampleE2 n⟩ _ rfl rfl hfresh)

theorem answer {r : ProofResult} (hans : ∃ req, s.outstanding.head? = some req ∧ Answers req r) :
    HonestRun p n (s.answer r) := by
  obtain ⟨req, hout, hans⟩ := hans
  obtain ⟨rest, he⟩ := List.head?_eq_some_iff.mp hout
  have ht : s.outstanding.tail = rest := by rw [he, List.tail_cons]
  rw [TreeState.answer, ht]
  exact h.tail (.answer s 0 ⟨0, "", r⟩ [] rest req he hans)

end HonestRun

/-- Two segments a leaf, so that five segments leave a leaf, and a group of leaves, that are not full. -/
def unevenParams : TreeParams := { sampleParams .evm with leafArity := 2 }

def sampleLeaves (first last : Nat) : ProofResult :=
  .leaf ⟨sampleContext .stark, ⟨some [first.toUInt8], first, last⟩⟩

/-- The segments of an Evm proof, with the ExecuteE2 result after the first. -/
def unevenApps : TreeState :=
  ((((((TreeState.start unevenParams).feed (sampleApp 0)).feed (sampleE2 5)).feed (sampleApp 1)).feed
    (sampleApp 2)).feed (sampleApp 3)).feed (sampleApp 4)

/-- Its leaves and internal proofs, up to the request for the EVM step. -/
def unevenRun : TreeState :=
  (((((unevenApps.answer (sampleLeaves 0 1)).answer (sampleLeaves 2 3)).answer (sampleLeaves 4 4)).answer
    (sampleInternal 0 0 3)).answer (sampleInternal 0 4 4)).answer (sampleInternal 1 0 4)

theorem honestRun_uneven : HonestRun unevenParams 5 unevenRun := by
  have h0 : HonestRun unevenParams 5 _ := .refl
  have h1 := (h0.app (i := 0) (by decide) (by decide)).executeE2 (by decide)
  have h2 := (h1.app (i := 1) (by decide) (by decide)).app (i := 2) (by decide) (by decide)
  have h3 := (h2.app (i := 3) (by decide) (by decide)).app (i := 4) (by decide) (by decide)
  have h4 := h3.answer (r := sampleLeaves 0 1) ⟨_, rfl, rfl, rfl, rfl⟩
  have h5 := h4.answer (r := sampleLeaves 2 3) ⟨_, rfl, rfl, rfl, rfl⟩
  have h6 := h5.answer (r := sampleLeaves 4 4) ⟨_, rfl, rfl, rfl, rfl⟩
  have h7 := h6.answer (r := sampleInternal 0 0 3) ⟨_, rfl, rfl, rfl, rfl, rfl⟩
  have h8 := h7.answer (r := sampleInternal 0 4 4) ⟨_, rfl, rfl, rfl, rfl, rfl⟩
  exact h8.answer (r := sampleInternal 1 0 4) ⟨_, rfl, rfl, rfl, rfl, rfl⟩

end EdgeProver
