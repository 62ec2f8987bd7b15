import Mathlib.Data.List.Basic

/-! Wire types of the manager and worker protocol. Proof payloads are opaque bytes. -/
namespace EdgeProver

abbrev Bytes := List UInt8
abbrev ProofBytes := Bytes

/-- Wall clock in nanoseconds. -/
abbrev Time := Int

inductive ProofType where
  | stark
  | evm
  deriving DecidableEq, Repr

/-- The `Debug` form the error texts print. -/
def ProofType.debug : ProofType → String
  | .stark => "Stark"
  | .evm => "Evm"

structure ProgramRef where
  name : String
  version : Nat
  deriving DecidableEq, Repr

structure ProofContext where
  proofUuid : String
  program : ProgramRef
  labels : List (String × String)
  proofType : ProofType
  deriving DecidableEq, Repr

inductive WorkerRole where
  | full
  | starkOnly
  | evmDedicated
  deriving DecidableEq, Repr

def WorkerRole.runsStarkProving : WorkerRole → Bool
  | .full | .starkOnly => true
  | .evmDedicated => false

def WorkerRole.runsEvmProve : WorkerRole → Bool
  | .full | .evmDedicated => true
  | .starkOnly => false

inductive Step where
  | shardedAppProve
  | leafProve
  | internalProve
  | rootProve
  | halo2Prove
  | evmProve
  deriving DecidableEq, Repr

def Step.asStr : Step → String
  | .shardedAppProve => "sharded_app_prove"
  | .leafProve => "leaf_prove"
  | .internalProve => "internal_prove"
  | .rootProve => "root_prove"
  | .halo2Prove => "halo2_prove"
  | .evmProve => "evm_prove"

structure LeafProveRequest where
  context : ProofContext
  appProofs : List ProofBytes
  segmentStart : Nat
  /-- Inclusive. -/
  segmentEnd : Nat
  deriving DecidableEq, Repr

inductive ProofsTypeWire where
  | vm
  | deferral
  | mix
  | combined
  deriving DecidableEq, Repr

structure InternalLayerMetadataWire where
  internalRecursiveLayer : UInt32
  internalNodeIdx : UInt32
  proofsType : ProofsTypeWire
  deriving DecidableEq, Repr

structure DeferralTailDispatch where
  layerMetadata : InternalLayerMetadataWire
  finalMerklePathBytes : Bytes
  deriving DecidableEq, Repr

structure InternalProveRequest where
  context : ProofContext
  childProofs : List ProofBytes
  layerIdx : Nat
  segmentStart : Nat
  segmentEnd : Nat
  isFinalProof : Bool
  deferralTail : Option DeferralTailDispatch
  deferralMerkleProofsBytes : Option Bytes
  deriving DecidableEq, Repr

structure EvmProveRequest where
  context : ProofContext
  internalProofBytes : ProofBytes
  deferralMerkleProofsBytes : Option Bytes
  proofHasDeferral : Bool
  deriving DecidableEq, Repr

inductive GeneralProveRequest where
  | leafProve (req : LeafProveRequest)
  | internalProve (req : InternalProveRequest)
  | evmProve (req : EvmProveRequest)
  deriving DecidableEq, Repr

/-- `Step::from(&GeneralProveRequest)`. -/
def GeneralProveRequest.step : GeneralProveRequest → Step
  | .leafProve _ => .leafProve
  | .internalProve _ => .internalProve
  | .evmProve _ => .evmProve

structure MessageEnvelope (α : Type) where
  timestamp : Nat
  messageId : String
  message : α
  deriving DecidableEq, Repr

structure ExecuteE2State where
  numSegments : Nat
  segments : List Bytes
  cost : Nat
  deriving DecidableEq, Repr

structure ExecuteE2Result where
  context : ProofContext
  state : ExecuteE2State
  deriving DecidableEq, Repr

structure AppProofState where
  proof : Option ProofBytes
  segmentIdx : Nat
  finalMerklePathBytes : Option Bytes
  deferralMerkleProofsBytes : Option Bytes
  deriving DecidableEq, Repr

structure AppProof where
  context : ProofContext
  state : AppProofState
  deriving DecidableEq, Repr

structure LeafProofState where
  proof : Option ProofBytes
  segmentStart : Nat
  segmentEnd : Nat
  deriving DecidableEq, Repr

structure LeafProof where
  context : ProofContext
  state : LeafProofState
  deriving DecidableEq, Repr

structure InternalProofState where
  proof : Option ProofBytes
  layerIdx : Nat
  segmentStart : Nat
  segmentEnd : Nat
  deferralMerkleProofsBytes : Option Bytes
  readyForEvm : Bool
  deriving DecidableEq, Repr

structure InternalProof where
  context : ProofContext
  state : InternalProofState
  deriving DecidableEq, Repr

structure EvmProofState where
  proof : Option ProofBytes
  deriving DecidableEq, Repr

structure EvmProof where
  context : ProofContext
  state : EvmProofState
  deriving DecidableEq, Repr

structure ErrorResult where
  context : ProofContext
  step : String
  error : String
  deriving DecidableEq, Repr

inductive ProofResult where
  | executeE2 (result : ExecuteE2Result)
  | app (result : AppProof)
  | leaf (result : LeafProof)
  | internal (result : InternalProof)
  | evm (result : EvmProof)
  | error (result : ErrorResult)
  deriving DecidableEq, Repr

end EdgeProver
