import EdgeProver.Config
import EdgeProver.ProofState.State

/-! The final proof on disk: what `finalize_proof` writes and `download_proof` reads. File operations succeed; the
codec of `VmStarkProof` and zstd are parameters. -/
namespace EdgeProver

abbrev Files := String → Option Bytes

structure Codecs where
  /-- From the final internal proof and the deferral merkle proofs to an encoded `VmStarkProof`. -/
  encodeVmStarkProof : String → ProofBytes → Option Bytes → Except String Bytes
  /-- `zstd::encode_all` and `zstd::decode_all`. -/
  encodeAll : Bytes → Bytes
  decodeAll : Bytes → Except String Bytes

def Files.write (files : Files) (name : String) (bytes : Bytes) : Files := Function.update files name (some bytes)

def Files.rename (files : Files) (source target : String) : Files :=
  Function.update (Function.update files target (files source)) source none

namespace ProofState

def finalProofPayload (ps : ProofState) (codecs : Codecs) : Except String (Option (Bytes × String)) :=
  if !ps.isReadyForFinalization then .ok none
  else
    match ps.context.proofType with
    | .stark =>
      match ps.finalInternalState with
      | none => .ok none
      | some finalState =>
        match finalState.proof with
        | none => .ok none
        | some proofBytes =>
          let merkleBytes := finalState.deferralMerkleProofsBytes.or ps.deferralDepth0MerkleProofsBytes
          (codecs.encodeVmStarkProof ps.context.proofUuid proofBytes merkleBytes).map fun bytes =>
            some (bytes, "proof.bin")
    | .evm =>
      match ps.evmProof.bind (·.proof) with
      | none => .ok none
      | some evmBytes => .ok (some (evmBytes, "evm.bin"))

def storedBytes (codecs : Codecs) (compress : Bool) (bytes : Bytes) : Bytes :=
  if compress then codecs.encodeAll bytes else bytes

def persistFinalProofToDisk (ps : ProofState) (codecs : Codecs) (outputDir : String) (compress : Bool) (files : Files) :
    ProofState × Files × Except String (Option String) :=
  match ps.persistedFinalProofPath with
  | some path => (ps, files, .ok (some path))
  | none =>
    match ps.finalProofPayload codecs with
    | .error e => (ps, files, .error e)
    | .ok none => (ps, files, .ok none)
    | .ok (some (bytes, suffix)) =>
      let finalName := s!"{ps.context.proofUuid}.{suffix}"
      let tempName := s!"{ps.context.proofUuid}.{suffix}.tmp"
      let files := files.write tempName (storedBytes codecs compress bytes)
      let path := s!"{outputDir}/{finalName}"
      ({ ps with persistedFinalProofPath := some path }, files.rename tempName finalName, .ok (some path))

end ProofState

def maxProofUuidLen : Nat := 128

def validateManagerProofUuid (proofUuid : String) : Except String Unit :=
  if proofUuid.isEmpty then .error "must not be empty"
  else if proofUuid.utf8ByteSize > maxProofUuidLen then .error "too long"
  else if !proofUuid.toList.all (fun c => c.isAlphanum || c == '_' || c == '-') then
    .error "contains invalid characters"
  else .ok ()

inductive DownloadResponse where
  | badRequest (message : String)
  | notFound (message : String)
  | internalServerError (message : String)
  | ok (bytes : Bytes)
  deriving DecidableEq

def readPersisted (codecs : Codecs) (compressed : Bool) (bytes : Bytes) : DownloadResponse :=
  if compressed then
    match codecs.decodeAll bytes with
    | .ok bytes => .ok bytes
    | .error e => .internalServerError s!"read persisted proof: {e}"
  else .ok bytes

def downloadProof (codecs : Codecs) (config : ProofConfig) (files : Files) (proofUuid : String) : DownloadResponse :=
  match validateManagerProofUuid proofUuid with
  | .error reason => .badRequest s!"Invalid proof_uuid: {reason}"
  | .ok () =>
    if config.persistFinalProofsDir.isNone then .notFound "proof persistence is disabled"
    else
      match files s!"{proofUuid}.proof.bin", files s!"{proofUuid}.evm.bin" with
      | some bytes, none | none, some bytes => readPersisted codecs config.compressPersistedFinalProofs bytes
      | none, none => .notFound "proof not found"
      | some _, some _ => .internalServerError "multiple persisted proof artifacts found"

def ProofType.suffix : ProofType → String
  | .stark => "proof.bin"
  | .evm => "evm.bin"

def ProofType.other : ProofType → ProofType
  | .stark => .evm
  | .evm => .stark

def artifactName (proofUuid : String) (proofType : ProofType) : String := s!"{proofUuid}.{proofType.suffix}"

section
variable {codecs : Codecs} {ps : ProofState} {files : Files} {proofUuid other : String} {t t' : ProofType}
  {bytes : Bytes}

private theorem artifactName_toList (proofUuid : String) (t : ProofType) :
    (artifactName proofUuid t).toList = proofUuid.toList ++ '.' :: t.suffix.toList := by
  have happend : artifactName proofUuid t = proofUuid ++ "." ++ t.suffix := rfl
  rw [happend, String.toList_append, String.toList_append, List.append_assoc]
  rfl

/-- Different proofs, and different types of one proof, have different artifacts. -/
theorem artifactName_inj (h : artifactName proofUuid t = artifactName other t') : proofUuid = other ∧ t = t' := by
  have hlist := congrArg (fun s => s.toList.reverse) h
  simp only [artifactName_toList, List.reverse_append, List.reverse_cons] at hlist
  cases t <;> cases t' <;> simp [ProofType.suffix] at hlist
  · exact ⟨String.toList_injective hlist, rfl⟩
  · exact ⟨String.toList_injective hlist, rfl⟩

private theorem tempName_ne (t : ProofType) (proofUuid other : String) (t' : ProofType) :
    artifactName other t' ≠ artifactName proofUuid t ++ ".tmp" := by
  intro h
  have hlist := congrArg (fun s => s.toList.reverse) h
  simp only [String.toList_append, artifactName_toList, List.reverse_append, List.reverse_cons] at hlist
  cases t <;> cases t' <;> simp [ProofType.suffix] at hlist

private theorem artifactName_stark (proofUuid : String) : s!"{proofUuid}.proof.bin" =
    artifactName proofUuid .stark := by
  show proofUuid ++ ".proof.bin" = proofUuid ++ "." ++ "proof.bin"
  rw [String.append_assoc]
  rfl

private theorem artifactName_evm (proofUuid : String) : s!"{proofUuid}.evm.bin" = artifactName proofUuid .evm := by
  show proofUuid ++ ".evm.bin" = proofUuid ++ "." ++ "evm.bin"
  rw [String.append_assoc]
  rfl

private theorem suffix_of_payload {suffix : String} (h : ps.finalProofPayload codecs = .ok (some (bytes, suffix))) :
    suffix = ps.context.proofType.suffix := by
  unfold ProofState.finalProofPayload at h
  split at h
  · simp at h
  · cases htype : ps.context.proofType with
    | stark =>
      simp only [htype] at h
      split at h
      · simp at h
      · split at h
        · simp at h
        · simp only [Except.map] at h
          split at h
          · simp at h
          · simp only [Except.ok.injEq, Option.some.injEq, Prod.mk.injEq] at h
            exact h.2.symm
    | evm =>
      simp only [htype] at h
      split at h
      · simp at h
      · simp only [Except.ok.injEq, Option.some.injEq, Prod.mk.injEq] at h
        exact h.2.symm

/-- Persisting a proof writes its payload under its artifact's name and touches no other artifact. -/
theorem persist_payload {suffix dir : String} {compress : Bool} (hpath : ps.persistedFinalProofPath = none)
    (h : ps.finalProofPayload codecs = .ok (some (bytes, suffix))) :
    let written := (ps.persistFinalProofToDisk codecs dir compress files).2.1
    written (artifactName ps.context.proofUuid ps.context.proofType) =
        some (ProofState.storedBytes codecs compress bytes) ∧
      ∀ other t, ¬ (other = ps.context.proofUuid ∧ t = ps.context.proofType) →
        written (artifactName other t) = files (artifactName other t) := by
  obtain rfl := suffix_of_payload h
  have htemp : ∀ other t,
      artifactName other t ≠ artifactName ps.context.proofUuid ps.context.proofType ++ toString ".tmp" :=
    fun other t => tempName_ne _ _ other t
  have hname : s!"{ps.context.proofUuid}.{ps.context.proofType.suffix}" =
      artifactName ps.context.proofUuid ps.context.proofType := rfl
  simp only [ProofState.persistFinalProofToDisk, hpath, h, Files.rename, Files.write, hname]
  refine ⟨?_, fun other t hne => ?_⟩
  · rw [Function.update_of_ne (htemp _ _), Function.update_self, Function.update_self]
  · rw [Function.update_of_ne (htemp _ _), Function.update_of_ne fun he => hne (artifactName_inj he),
      Function.update_of_ne (htemp _ _)]

/-- Of two artifacts the one that exists is read, and decompressed as it was stored. -/
theorem downloadProof_of_stored {config : ProofConfig} {dir : String}
    (hvalid : validateManagerProofUuid proofUuid = .ok ())
    (hdir : config.persistFinalProofsDir = some dir) (hzstd : codecs.decodeAll (codecs.encodeAll bytes) = .ok bytes)
    (hfile : files (artifactName proofUuid t) =
      some (ProofState.storedBytes codecs config.compressPersistedFinalProofs bytes))
    (hother : files (artifactName proofUuid t.other) = none) :
    downloadProof codecs config files proofUuid = .ok bytes := by
  have hread : readPersisted codecs config.compressPersistedFinalProofs
      (ProofState.storedBytes codecs config.compressPersistedFinalProofs bytes) = .ok bytes := by
    cases hc : config.compressPersistedFinalProofs with
    | true => simp [readPersisted, ProofState.storedBytes, hzstd]
    | false => rfl
  cases t with
  | stark =>
    simp only [downloadProof, hvalid, hdir, artifactName_stark, artifactName_evm, hfile, Option.isNone_some,
      Bool.false_eq_true, if_false]
    rw [show files (artifactName proofUuid .evm) = none from hother]
    exact hread
  | evm =>
    simp only [downloadProof, hvalid, hdir, artifactName_stark, artifactName_evm, hfile, Option.isNone_some,
      Bool.false_eq_true, if_false]
    rw [show files (artifactName proofUuid .stark) = none from hother]
    exact hread

end
end EdgeProver
