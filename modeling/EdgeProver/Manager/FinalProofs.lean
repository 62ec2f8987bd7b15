import EdgeProver.Manager.Reclaim

/-! Final proofs on disk over the whole life of a deployment: what `finalize_proof` has written for a completed
proof is what `download_proof` hands back. -/
namespace EdgeProver

/-- The manager's stores, with the directory of final proofs. -/
structure Vault where
  app : AppState
  files : Files
  /-- The final artifact of the proof last sealed under each uuid. -/
  finals : String → Option Bytes

def ProofState.finalArtifact (ps : ProofState) (codecs : Codecs) : Option Bytes :=
  match ps.finalProofPayload codecs with
  | .ok (some (bytes, _)) => some bytes
  | _ => none

/-- The outcome of the persistence that `finalize_proof` acts upon. -/
def persistenceResult : Except String (Option String) → Except String Unit
  | .ok (some _) => .ok ()
  | .ok none => .error "proof ready for finalization without a payload to persist"
  | .error e => .error e

namespace Vault

def start (files : Files) : Vault := ⟨.empty, files, fun _ => none⟩

def proof (v : Vault) (proofUuid : String) : Option ProofState := (v.app.slices proofUuid).proof

/-- The persistence of `finalize_proof`, under the proof's lock. -/
def persist (v : Vault) (codecs : Codecs) (config : ProofConfig) (proofUuid : String) : Vault × Except String Unit :=
  match v.proof proofUuid, config.persistFinalProofsDir with
  | some ps, some dir =>
    if ps.status.isInProgress && ps.isReadyForFinalization then
      let persisted := ps.persistFinalProofToDisk codecs dir config.compressPersistedFinalProofs v.files
      ({ app := v.app.put proofUuid { v.app.slices proofUuid with proof := some persisted.1 }
         files := persisted.2.1
         finals := Function.update v.finals proofUuid (ps.finalArtifact codecs) },
       persistenceResult persisted.2.2)
    else (v, .ok ())
  | _, _ => (v, .ok ())

end Vault

abbrev VaultOutcome := TaskPool.Outcome Vault AppOp (Option Rejection)

/-- A step of the manager, with `finalize_proof` writing to the directory. -/
def AppOp.execStored (codecs : Codecs) (config : ManagerConfig) (c : Choice) (v : Vault) (op : AppOp) : VaultOutcome :=
  match op with
  | .step proofUuid .persist =>
    let persisted := v.persist codecs config.proof proofUuid
    let out := (AppOp.step proofUuid .persist).exec config { c with persisted := persisted.2 } persisted.1.app
    ⟨{ persisted.1 with app := out.state }, out.next, out.spawned, out.result⟩
  | op =>
    let out := op.exec config c v.app
    ⟨{ v with app := out.state }, out.next, out.spawned, out.result⟩

abbrev VaultPool := TaskPool.Pool Vault AppOp
abbrev VaultStep (codecs : Codecs) (config : ManagerConfig) := TaskPool.Step (AppOp.execStored codecs config)
abbrev VaultRun (codecs : Codecs) (config : ManagerConfig) := TaskPool.Run (AppOp.execStored codecs config)

/-- No artifact of the other proof type is there when a sealed proof is persisted. -/
def OneType (V : VaultPool) : AppLabel → Prop
  | .arrive task => isArrival task
  | .run (.step proofUuid .persist) _ => ∀ ps, V.state.proof proofUuid = some ps → ps.status = .inProgress →
      ps.isReadyForFinalization = true → V.state.files (artifactName proofUuid ps.context.proofType.other) = none
  | .run _ _ => True

structure KeptProof (codecs : Codecs) (compress : Bool) (v : Vault) (proofUuid : String) (ps : ProofState) : Prop where
  key : ps.context.proofUuid = proofUuid
  valid : validateManagerProofUuid proofUuid = .ok ()
  fresh : ps.status = .inProgress → ps.persistedFinalProofPath = none
  stored : ps.status = .completed → ∃ bytes, v.finals proofUuid = some bytes ∧
    v.files (artifactName proofUuid ps.context.proofType) = some (ProofState.storedBytes codecs compress bytes) ∧
    v.files (artifactName proofUuid ps.context.proofType.other) = none

section
variable {codecs : Codecs} {config : ManagerConfig} {compress : Bool} {proofUuid : String} {c : Choice} {m : Manager}
  {op : Op} {ps ps' : ProofState} {d : AppState} {v : Vault}

private theorem compactCompletedState_keeps (ps : ProofState) : ps.compactCompletedState.context = ps.context ∧
    ps.compactCompletedState.persistedFinalProofPath = ps.persistedFinalProofPath := by
  unfold ProofState.compactCompletedState
  split <;> exact ⟨rfl, rfl⟩

private theorem finalize_keeps (now : Time) (persisted : Except String Unit) (ps : ProofState) :
    (ps.finalize now persisted).context = ps.context ∧
      (ps.finalize now persisted).persistedFinalProofPath = ps.persistedFinalProofPath ∧
      ((ps.finalize now persisted).status = .inProgress → ps.status = .inProgress) := by
  unfold ProofState.finalize
  dsimp only
  rw [compactCompletedState_status, (compactCompletedState_keeps _).1, (compactCompletedState_keeps _).2]
  split
  · refine ⟨rfl, rfl, ?_⟩
    cases persisted <;> simp
  · exact ⟨rfl, rfl, id⟩

/-- A step keeps the context and the path of a proof, never makes it InProgress again, and completes it only by
`persist`. -/
theorem writeProof_keeps (h : op.writeProof proofUuid c ps = some ps') :
    ps'.context = ps.context ∧ ps'.persistedFinalProofPath = ps.persistedFinalProofPath ∧
      (ps'.status = .inProgress → ps.status = .inProgress) ∧
      (ps'.status = .completed → ps.status = .completed ∨ op = .persist) := by
  cases op with
  | process workerId envelope =>
    simp only [Op.writeProof] at h
    split at h
    · obtain rfl := Option.some.inj h
      exact ⟨rfl, rfl, id, .inl⟩
    · obtain rfl := Option.some.inj h
      rw [ProofState.handleEnvelope_eq]
      split
      · exact ⟨rfl, rfl, id, .inl⟩
      · have hframe := ProofState.frame_handleProofResult { ps with lastUpdated := c.now } envelope.message
        rcases hframe.status with hkeep | ⟨reason, hfailing⟩
        · exact ⟨hframe.context, hframe.persistedFinalProofPath, fun hst => hkeep ▸ hst, fun hst => .inl (hkeep ▸ hst)⟩
        · refine ⟨hframe.context, hframe.persistedFinalProofPath, fun hst => ?_, fun hst => ?_⟩
          all_goals simp [hfailing] at hst
  | evict =>
    simp only [Op.writeProof] at h
    split at h
    · simp at h
    · obtain rfl := Option.some.inj h
      exact ⟨rfl, rfl, id, .inl⟩
  | transition =>
    obtain rfl := Option.some.inj h
    unfold ProofState.transitionFailingToFailed
    split
    · exact ⟨rfl, rfl, by simp, by simp⟩
    · exact ⟨rfl, rfl, id, .inl⟩
  | persist =>
    obtain rfl := Option.some.inj h
    obtain ⟨hcontext, hpath, hst⟩ := finalize_keeps c.now c.persisted ps
    exact ⟨hcontext, hpath, hst, fun _ => .inr rfl⟩
  | dispatchFailed reason =>
    obtain rfl := Option.some.inj h
    unfold ProofState.dispatchFailed
    split
    · exact ⟨rfl, rfl, by simp, by simp⟩
    · exact ⟨rfl, rfl, id, .inl⟩
  | cancel =>
    obtain rfl := Option.some.inj h
    unfold ProofState.cancel
    split
    · exact ⟨rfl, rfl, by simp, by simp⟩
    · exact ⟨rfl, rfl, id, .inl⟩
  | timeoutCheck now =>
    obtain rfl := Option.some.inj h
    unfold ProofState.markTimedOut ProofState.fail
    repeat' split
    all_goals first
      | exact ⟨rfl, rfl, id, .inl⟩
      | exact ⟨rfl, rfl, by simp, by simp⟩
  | markFailing message =>
    obtain rfl := Option.some.inj h
    unfold ProofState.markFailing ProofState.fail
    split
    · exact ⟨rfl, rfl, id, .inl⟩
    · exact ⟨rfl, rfl, by simp, by simp⟩
  | abort message =>
    obtain rfl := Option.some.inj h
    exact ⟨rfl, rfl, by simp [ProofState.abort], by simp [ProofState.abort]⟩
  | recordDeferral count =>
    obtain rfl := Option.some.inj h
    exact ⟨rfl, rfl, id, .inl⟩
  | _ =>
    obtain rfl := Option.some.inj h
    exact ⟨rfl, rfl, id, .inl⟩

private theorem persist_idle (h : ∀ ps, v.proof proofUuid = some ps →
    ¬ (ps.status = .inProgress ∧ ps.isReadyForFinalization = true)) :
    (v.persist codecs config.proof proofUuid).1 = v := by
  unfold Vault.persist
  split
  · rename_i ps dir hps hdir
    rw [if_neg (by simpa using h ps hps)]
  · rfl

/-- The persistence of a sealed proof: outcome, files and the final artifact it records. -/
theorem persist_sealed {dir : String} (hps : v.proof proofUuid = some ps) (hkey : ps.context.proofUuid = proofUuid)
    (hst : ps.status = .inProgress) (hready : ps.isReadyForFinalization = true)
    (hpath : ps.persistedFinalProofPath = none) (hdir : config.proof.persistFinalProofsDir = some dir) :
    let out := v.persist codecs config.proof proofUuid
    (∃ ps', out.1.app = v.app.put proofUuid { v.app.slices proofUuid with proof := some ps' } ∧
        ps'.context = ps.context ∧ ps'.Sealed) ∧
      (out.2 = .ok () → ∃ bytes, out.1.finals proofUuid = some bytes ∧
        out.1.files (artifactName proofUuid ps.context.proofType) =
          some (ProofState.storedBytes codecs config.proof.compressPersistedFinalProofs bytes) ∧
        out.1.files (artifactName proofUuid ps.context.proofType.other) =
          v.files (artifactName proofUuid ps.context.proofType.other)) ∧
      ∀ u, u ≠ proofUuid → out.1.finals u = v.finals u ∧
        ∀ t, out.1.files (artifactName u t) = v.files (artifactName u t) := by
  have hout : v.persist codecs config.proof proofUuid =
      ({ app := v.app.put proofUuid { v.app.slices proofUuid with
          proof := some (ps.persistFinalProofToDisk codecs dir config.proof.compressPersistedFinalProofs v.files).1 }
         files := (ps.persistFinalProofToDisk codecs dir config.proof.compressPersistedFinalProofs v.files).2.1
         finals := Function.update v.finals proofUuid (ps.finalArtifact codecs) },
       persistenceResult
         (ps.persistFinalProofToDisk codecs dir config.proof.compressPersistedFinalProofs v.files).2.2) := by
    simp only [Vault.persist, hps, hdir, hst, hready, ProofStatus.isInProgress, Bool.and_self, if_true]
  simp only [hout]
  have hfinals : ∀ u, u ≠ proofUuid → Function.update v.finals proofUuid (ps.finalArtifact codecs) u = v.finals u :=
    fun u hu => Function.update_of_ne hu _ _
  cases hpayload : ps.finalProofPayload codecs with
  | error e =>
    simp only [ProofState.persistFinalProofToDisk, hpath, hpayload, persistenceResult]
    exact ⟨⟨ps, rfl, rfl, hst, hready⟩, by simp, fun u hu => ⟨hfinals u hu, fun _ => trivial⟩⟩
  | ok payload =>
    cases payload with
    | none =>
      simp only [ProofState.persistFinalProofToDisk, hpath, hpayload, persistenceResult]
      exact ⟨⟨ps, rfl, rfl, hst, hready⟩, by simp, fun u hu => ⟨hfinals u hu, fun _ => trivial⟩⟩
    | some payload =>
      obtain ⟨bytes, suffix⟩ := payload
      obtain ⟨hwritten, hothers⟩ := @persist_payload codecs ps v.files bytes suffix dir
        config.proof.compressPersistedFinalProofs hpath hpayload
      rw [hkey] at hwritten hothers
      refine ⟨⟨_, rfl, ?_, ?_⟩, fun _ => ⟨bytes, ?_, hwritten, hothers _ _ ?_⟩,
        fun u hu => ⟨hfinals u hu, fun t => hothers u t ?_⟩⟩
      · simp only [ProofState.persistFinalProofToDisk, hpath, hpayload]
      · simp only [ProofState.persistFinalProofToDisk, hpath, hpayload]
        exact ⟨hst, hready⟩
      · simp [ProofState.finalArtifact, hpayload]
      · rintro ⟨-, htype⟩
        cases ht : ps.context.proofType <;> simp [ht, ProofType.other] at htype
      · exact fun h => hu h.1

variable {dir : String} {V V' : VaultPool} {l : AppLabel}

private theorem execStored_of_ne {appOp : AppOp} (h : ∀ u, appOp ≠ .step u .persist) :
    (appOp.execStored codecs config c v).state = { v with app := (appOp.exec config c v.app).state } := by
  cases appOp with
  | step u op =>
    cases op with
    | persist => exact absurd rfl (h u)
    | _ => rfl
  | _ => rfl

/-- Every other step leaves the directory and what it holds for each proof alone. -/
theorem kept_app {appOp : AppOp} (hop : ∀ u, appOp ≠ .step u .persist)
    (h : ∀ u ps, v.proof u = some ps → KeptProof codecs compress v u ps)
    (hps' : ((appOp.exec config c v.app).state.slices proofUuid).proof = some ps') :
    KeptProof codecs compress v proofUuid ps' := by
  rcases proof_app hps' with ⟨ps, hps, rfl | ⟨op, rfl, hwrite⟩⟩ | ⟨req, -, rfl, rfl⟩
  · exact h proofUuid _ hps
  · obtain ⟨hcontext, hpath, hprogress, hst⟩ := writeProof_keeps hwrite
    have hk := h proofUuid ps hps
    refine ⟨hcontext ▸ hk.key, hk.valid, fun hnow => hpath ▸ hk.fresh (hprogress hnow), fun hnow => ?_⟩
    rw [hcontext]
    rcases hst hnow with hwas | rfl
    · exact hk.stored hwas
    · exact absurd rfl (hop proofUuid)
  · exact ⟨rfl, req.valid, fun _ => rfl, by simp [ProofRequest.proofState, ProofState.new]⟩

private theorem finalize_completed {now : Time} {persisted : Except String Unit} (hst : ps.status = .inProgress)
    (h : (ps.finalize now persisted).status = .completed) : persisted = .ok () := by
  unfold ProofState.finalize at h
  dsimp only at h
  rw [compactCompletedState_status] at h
  split at h
  · cases persisted with
    | ok u => rfl
    | error e => simp at h
  · simp [hst] at h

private theorem finalize_not_completed {now : Time} {persisted : Except String Unit}
    (hopen : ¬ (ps.status = .inProgress ∧ ps.isReadyForFinalization = true))
    (h : (ps.finalize now persisted).status = .completed) : ps.status = .completed := by
  unfold ProofState.finalize at h
  dsimp only at h
  rwa [compactCompletedState_status, if_neg (by simpa using hopen)] at h

/-- `persist` finalizes the entry of its own proof and leaves the others alone. -/
theorem persist_slices (d : AppState) (w u : String) :
    (((AppOp.step w .persist).exec config c d).state.slices u).proof =
    if u = w then (d.slices w).proof.map (·.finalize c.now c.persisted) else (d.slices u).proof := by
  rw [exec_step (by simp)]
  by_cases hu : u = w
  · subst hu
    simp [Op.exec, goOn, Manager.updateProof]
  · simp [hu]

private theorem kept_step (hdir : config.proof.persistFinalProofsDir = some dir) (hallowed : OneType V l)
    (hstep : VaultStep codecs config V l V')
    (h : ∀ u ps, V.state.proof u = some ps → KeptProof codecs config.proof.compressPersistedFinalProofs V.state u ps) :
    ∀ u ps, V'.state.proof u = some ps → KeptProof codecs config.proof.compressPersistedFinalProofs V'.state u ps := by
  intro u ps' hps'
  cases l with
  | arrive task =>
    cases hstep
    exact h u ps' hps'
  | run op c =>
    have hstate := (TaskPool.ops_run hstep).1
    by_cases hpersist : ∃ w, op = .step w .persist
    · obtain ⟨w, rfl⟩ := hpersist
      rw [hstate] at hps' ⊢
      simp only [AppOp.execStored, Vault.proof, persist_slices] at hps'
      by_cases hsealed : ∃ ps, V.state.proof w = some ps ∧ ps.status = .inProgress ∧ ps.isReadyForFinalization = true
      · obtain ⟨ps, hps, hst, hready⟩ := hsealed
        have hk := h w ps hps
        obtain ⟨⟨qs, happ, hqs, hseal⟩, hok, hothers⟩ :=
          @persist_sealed codecs config w ps V.state dir hps hk.key hst hready (hk.fresh hst) hdir
        by_cases hu : u = w
        · subst hu
          rw [if_pos rfl, happ] at hps'
          simp only [AppState.put_slices, Function.update_self, Option.map_some, Option.some.injEq] at hps'
          have hcontext : ps'.context = ps.context := hps' ▸ (finalize_keeps _ _ qs).1.trans hqs
          refine ⟨hcontext ▸ hk.key, hk.valid, fun hnow => ?_, fun hnow => ?_⟩
          · rw [← hps'] at hnow
            rcases finalize_status hseal c.now (V.state.persist codecs config.proof u).2 with hdone | ⟨e, hdone⟩
            · exact absurd (hdone.symm.trans hnow) (by simp)
            · exact absurd (hdone.symm.trans hnow) (by simp)
          · obtain ⟨bytes, hfinal, hfile, hother⟩ := hok (finalize_completed hseal.1 (hps' ▸ hnow))
            rw [hcontext]
            exact ⟨bytes, hfinal, hfile, hother.trans (hallowed ps hps hst hready)⟩
        · rw [if_neg hu, happ] at hps'
          simp only [AppState.put_slices, Function.update_of_ne hu] at hps'
          have hk' := h u ps' hps'
          obtain ⟨hfinals, hfiles⟩ := hothers u hu
          refine ⟨hk'.key, hk'.valid, hk'.fresh, fun hnow => ?_⟩
          obtain ⟨bytes, hfinal, hfile, hother⟩ := hk'.stored hnow
          exact ⟨bytes, hfinals.trans hfinal, (hfiles _).trans hfile, (hfiles _).trans hother⟩
      · have hidle : (V.state.persist codecs config.proof w).1 = V.state :=
          persist_idle fun ps hps hboth => hsealed ⟨ps, hps, hboth⟩
        rw [hidle] at hps'
        have hk : KeptProof codecs config.proof.compressPersistedFinalProofs V.state u ps' := by
          by_cases hu : u = w
          · subst hu
            rw [if_pos rfl] at hps'
            obtain ⟨ps, hps, rfl⟩ := Option.map_eq_some_iff.mp hps'
            have hk := h u ps hps
            obtain ⟨hcontext, hpath, hprogress⟩ := finalize_keeps c.now (V.state.persist codecs config.proof u).2 ps
            refine ⟨hcontext ▸ hk.key, hk.valid, fun hnow => hpath ▸ hk.fresh (hprogress hnow), fun hnow => ?_⟩
            rw [hcontext]
            exact hk.stored (finalize_not_completed (fun hboth => hsealed ⟨ps, hps, hboth⟩) hnow)
          · rw [if_neg hu] at hps'
            exact h u ps' hps'
        simp only [AppOp.execStored, hidle]
        exact ⟨hk.key, hk.valid, hk.fresh, hk.stored⟩
    · have hne : ∀ w, op ≠ .step w .persist := fun w hop => hpersist ⟨w, hop⟩
      rw [hstate, execStored_of_ne hne] at hps' ⊢
      have hk : KeptProof codecs config.proof.compressPersistedFinalProofs V.state u ps' := kept_app hne h hps'
      exact ⟨hk.key, hk.valid, hk.fresh, hk.stored⟩

end

/-- Along every run in which no sealed proof meets an artifact of the other proof type under its uuid, the final
artifact of a completed proof is what `download_proof` returns. -/
theorem completed_downloadable {codecs : Codecs} {config : ManagerConfig} {dir : String} {files : Files} {V : VaultPool}
    (hdir : config.proof.persistFinalProofsDir = some dir)
    (hzstd : ∀ bytes, codecs.decodeAll (codecs.encodeAll bytes) = .ok bytes)
    (hrun : VaultRun codecs config OneType ⟨.start files, []⟩ V) {proofUuid : String} {ps : ProofState}
    (hproof : V.state.proof proofUuid = some ps) (hcompleted : ps.status = .completed) :
    ∃ bytes, V.state.finals proofUuid = some bytes ∧
      downloadProof codecs config.proof V.state.files proofUuid = .ok bytes := by
  have hkept : ∀ u ps, V.state.proof u = some ps →
      KeptProof codecs config.proof.compressPersistedFinalProofs V.state u ps := by
    refine TaskPool.Run.invariant (I := fun V : VaultPool => ∀ u ps, V.state.proof u = some ps →
      KeptProof codecs config.proof.compressPersistedFinalProofs V.state u ps) ?_ ?_ hrun
    · exact fun V l V' hV hallowed hstep => kept_step hdir hallowed hstep hV
    · intro u ps hps
      simp [Vault.proof, Vault.start, AppState.empty, Manager.empty] at hps
  have hk := hkept proofUuid ps hproof
  obtain ⟨bytes, hfinal, hfile, hother⟩ := hk.stored hcompleted
  exact ⟨bytes, hfinal, downloadProof_of_stored hk.valid hdir (hzstd bytes) hfile hother⟩

def persistingConfig : ManagerConfig :=
  { sampleConfig with proof := { ProofConfig.default with persistFinalProofsDir := some "proofs" } }

/-- A codec that keeps the proof bytes, and a compression that puts one byte in front. -/
def sampleCodecs : Codecs where
  encodeVmStarkProof := fun _ proofBytes _ => .ok proofBytes
  encodeAll := fun bytes => 40 :: bytes
  decodeAll := fun bytes =>
    match bytes with
    | [] => .error "incomplete frame"
    | _ :: bytes => .ok bytes

def typedRequest (proofType : ProofType) : ProofRequest :=
  { sampleRequest "proof" valid_sample 3600 with
    context := sampleContext proofType
    valid := valid_sample }

/-- A proof of one segment, up to its last internal proof but one. -/
def segmentMoves (now : Time) (proofType : ProofType) : List (TaskPool.Move Choice AppOp) :=
  appMoves now [.startProof (typedRequest proofType)] 8 ++ resultMoves now (sampleE2 1) 7 ++
    resultMoves now (sampleApp 0) 8 ++ resultMoves now (sampleLeaf 0) 8 ++ resultMoves now (sampleInternal 0 0 0) 8

def starkMoves : List (TaskPool.Move Choice AppOp) := segmentMoves 0 .stark ++ resultMoves 0 (sampleInternal 1 0 0) 9

/-- A late result evicts the completed Stark proof, and an Evm proof of the same uuid runs to its end. -/
def reuseMoves : List (TaskPool.Move Choice AppOp) :=
  starkMoves ++ resultMoves (301 * 1000000000) (sampleLeaf 0) 5 ++ segmentMoves (301 * 1000000000) .evm ++
    resultMoves (301 * 1000000000) (sampleInternal 1 0 0) 8 ++
    resultMoves (301 * 1000000000) (.evm ⟨sampleContext .evm, ⟨some [42]⟩⟩) 9

def vaultArrivals (_ : VaultPool) : AppLabel → Bool
  | .arrive task => isArrival task
  | .run _ _ => true

def VaultArrivals (_ : VaultPool) : AppLabel → Prop
  | .arrive task => isArrival task
  | .run _ _ => True

private theorem vaultArrivals_of_bool (V : VaultPool) (l : AppLabel) (h : vaultArrivals V l = true) :
    VaultArrivals V l := by
  cases l with
  | arrive task => exact h
  | run op c => trivial

/-- Both artifacts are there, and the completed Evm proof cannot be downloaded. -/
theorem completed_downloadable_fails : ¬ ∀ (codecs : Codecs) (config : ManagerConfig) (dir : String) (files : Files)
    (V : VaultPool) (proofUuid : String) (ps : ProofState), config.proof.persistFinalProofsDir = some dir →
    (∀ bytes, codecs.decodeAll (codecs.encodeAll bytes) = .ok bytes) →
    VaultRun codecs config VaultArrivals ⟨.start files, []⟩ V →
    V.state.proof proofUuid = some ps → ps.status = .completed →
    ∃ bytes, V.state.finals proofUuid = some bytes ∧
      downloadProof codecs config.proof V.state.files proofUuid = .ok bytes := by
  intro hall
  obtain ⟨V, hrun, hV⟩ := TaskPool.exists_run_of_play (AppOp.execStored sampleCodecs persistingConfig) vaultArrivals
    ⟨.start fun _ => none, []⟩ reuseMoves
    (fun V => (V.state.proof "proof").any (·.status == .completed) &&
      downloadProof sampleCodecs persistingConfig.proof V.state.files "proof" ==
        .internalServerError "multiple persisted proof artifacts found") (by decide +kernel)
  obtain ⟨hdone, hdownload⟩ := (Bool.and_eq_true _ _).mp hV
  obtain ⟨ps, hps, hst⟩ := (Option.any_eq_true _ _).mp hdone
  obtain ⟨bytes, -, hbytes⟩ := hall sampleCodecs persistingConfig "proofs" (fun _ => none) V "proof" ps rfl
    (fun _ => rfl)
    (hrun.mono vaultArrivals_of_bool) hps (by simpa using hst)
  rw [hbytes] at hdownload
  simp at hdownload

def oneType (V : VaultPool) : AppLabel → Bool
  | .run (.step proofUuid .persist) _ => (V.state.proof proofUuid).all fun ps =>
      (V.state.files (artifactName proofUuid ps.context.proofType.other)).isNone
  | l => vaultArrivals V l

private theorem oneType_of_bool (V : VaultPool) (l : AppLabel) (h : oneType V l = true) : OneType V l := by
  cases l with
  | arrive task => exact h
  | run op c =>
    cases op with
    | step proofUuid op =>
      cases op with
      | persist =>
        intro ps hps _ _
        simpa [oneType, hps] using h
      | _ => trivial
    | _ => trivial

/-- The Stark proof alone is handed back. -/
theorem completed_downloadable_sample : ∃ V : VaultPool, ∃ bytes, V.state.finals "proof" = some bytes ∧
    downloadProof sampleCodecs persistingConfig.proof V.state.files "proof" = .ok bytes := by
  obtain ⟨V, hrun, hV⟩ := TaskPool.exists_run_of_play (AppOp.execStored sampleCodecs persistingConfig) oneType
    ⟨.start fun _ => none, []⟩ starkMoves (fun V => (V.state.proof "proof").any (·.status == .completed))
    (by decide +kernel)
  obtain ⟨ps, hps, hst⟩ := (Option.any_eq_true _ _).mp hV
  have hdir : persistingConfig.proof.persistFinalProofsDir = some "proofs" := rfl
  exact ⟨V, completed_downloadable hdir (fun _ => rfl) (hrun.mono oneType_of_bool) hps (by simpa using hst)⟩

end EdgeProver
