import EdgeProver.Manager.Effects
import EdgeProver.Scheduler.Ledger

/-! Once the final artifact is recorded: what can still happen to a proof before and after it is
persisted. -/
namespace EdgeProver

/-- A request that reaches a proof under way: a result, a cancellation, a visit of the watchdog, the eviction
pass that a result for another proof ends with. -/
def isRequest : List Op → Bool
  | [.process _ _] | [.cancel] | [.checkFailing, .timeoutCheck _] | [.evict] => true
  | _ => false

/-- Every interleaving of the requests with what they set going. -/
def Requests (_ : World) : WorldLabel → Prop
  | .arrive task => isRequest task
  | .run _ _ => True

/-- The proof is in progress and its final artifact is recorded. -/
def ProofState.Sealed (ps : ProofState) : Prop := ps.status = .inProgress ∧ ps.isReadyForFinalization = true

/-- No dispatch task that is out of retries writes its failure while the proof is sealed. -/
def NoLateDispatchFailure (W : World) : WorldLabel → Prop
  | .run (.dispatchFailed _) _ => ∀ ps, W.state.proof = some ps → ¬ ps.Sealed
  | l => Requests W l

/-- The entry of a sealed proof waits unchanged, but for the notice of a late result. -/
def Waiting (ps : ProofState) (entry : Option ProofState) : Prop :=
  ∃ notice, entry = some { ps with lateResultNoticeEmitted := notice }

def Published (entry : Option ProofState) : Prop :=
  ∃ ps, entry = some ps ∧
    (ps.status = .completed ∨ ∃ e : String, ps.status = .failed s!"persist final proof: {e}")

section
variable {proofUuid : String} {c : Choice} {ps ps' : ProofState} {op : Op}

private theorem ProofState.Sealed.sealed (h : ps.Sealed) : ps.isSealedForResults = true := by
  simp [ProofState.isSealedForResults, h.2]

private theorem prepares_of_isRequest {task : List Op} (h : isRequest task = true) :
    ∀ op ∈ task, op.prepares = false := by
  unfold isRequest at h
  split at h
  · simp [Op.prepares]
  · simp [Op.prepares]
  · simp [Op.prepares]
  · simp [Op.prepares]
  · simp at h

private theorem prepares_eq (op : Op) : op.prepares =
    decide (op.kind ∈ [OpKind.takeStaged, .upload, .fanout, .recordDeferral, .restage, .abort]) := by
  cases op <;> rfl

/-- Nothing leads back to the preparations of `start_proof`. -/
theorem next_prepares (h : op.prepares = false) (m : Manager) :
    ∀ op' ∈ (op.exec proofUuid c m).next ++ (op.exec proofUuid c m).spawned.flatten, op'.prepares = false := by
  intro op' hop'
  have hkind := leadsTo_exec op op' hop'
  rw [prepares_eq] at h ⊢
  generalize op.kind = kind at h hkind
  generalize op'.kind = kind' at hkind ⊢
  revert kind'
  revert h
  cases kind <;> decide

/-- Publication settles the status of a sealed proof. -/
theorem finalize_status (h : ps.Sealed) (now : Time) (persisted : Except String Unit) :
    (ps.finalize now persisted).status = .completed ∨
      ∃ e : String, (ps.finalize now persisted).status = .failed s!"persist final proof: {e}" := by
  have hsealing : (ps.status.isInProgress && ps.isReadyForFinalization) = true := by simp [h.1, h.2]
  cases persisted with
  | ok _ =>
    refine .inl ((compactCompletedState_status _).trans ?_)
    rw [if_pos hsealing]
  | error e =>
    refine .inr ⟨e, (compactCompletedState_status _).trans ?_⟩
    rw [if_pos hsealing]

/-- A sealed proof ignores everything but the notice of a late result, its own publication and the failure
of a dispatch. -/
theorem waiting_write {entry : Option ProofState} (h : Waiting ps entry) (hs : ps.Sealed)
    (hprep : op.prepares = false)
    (hdispatch : (∃ reason, op = .dispatchFailed reason) → ∀ qs, entry = some qs → ¬ qs.Sealed) :
    Waiting ps (entry.bind (op.writeProof proofUuid c)) ∨ Published (entry.bind (op.writeProof proofUuid c)) := by
  obtain ⟨notice, rfl⟩ := h
  set qs : ProofState := { ps with lateResultNoticeEmitted := notice }
  have hsealed : qs.Sealed := hs
  have hkeep : Waiting ps (some qs) := ⟨notice, rfl⟩
  rw [Option.bind_some]
  cases op with
  | process workerId envelope =>
    refine .inl ?_
    simp only [Op.writeProof]
    split
    · exact hkeep
    · rw [ProofState.handleProofResultWithEnvelopeOutcome, if_pos hsealed.sealed]
      exact ⟨true, rfl⟩
  | evict =>
    have hevict : qs.shouldEvict c.now = false := by simp [ProofState.shouldEvict, hsealed.1, hsealed.2]
    exact .inl (by simpa [Op.writeProof, hevict] using hkeep)
  | transition =>
    exact .inl (by simpa [Op.writeProof, ProofState.transitionFailingToFailed, hsealed.1] using hkeep)
  | persist => exact .inr ⟨_, rfl, finalize_status hsealed c.now c.persisted⟩
  | cancel => exact .inl (by simpa [Op.writeProof, ProofState.cancel, hsealed.2] using hkeep)
  | timeoutCheck now =>
    exact .inl (by simpa [Op.writeProof, ProofState.isTimedOut_sealed hsealed.sealed] using hkeep)
  | markFailing message =>
    exact .inl (by simpa [Op.writeProof, ProofState.markFailing_sealed hsealed.sealed] using hkeep)
  | dispatchFailed reason => exact absurd hsealed (hdispatch ⟨reason, rfl⟩ _ rfl)
  | recordDeferral | abort => simp [Op.prepares] at hprep
  | _ => exact .inl hkeep

private theorem published_write {entry : Option ProofState} (h : Published entry) (hprep : op.prepares = false) :
    Published (entry.bind (op.writeProof proofUuid c)) ∨ entry.bind (op.writeProof proofUuid c) = none := by
  obtain ⟨qs, rfl, hst⟩ := h
  rw [Option.bind_some]
  cases hw : op.writeProof proofUuid c qs with
  | none => exact .inr rfl
  | some qs' =>
    have hover : qs.status ≠ .inProgress := by rcases hst with hst | ⟨e, hst⟩ <;> simp [hst]
    rcases writeProof_status_of_over hover hw with hkeep | ⟨reason, -, hfailing | rfl⟩
    · exact .inl ⟨qs', rfl, hkeep ▸ hst⟩
    · rcases hst with hst | ⟨e, hst⟩ <;> simp [hst] at hfailing
    · simp [Op.prepares] at hprep

end

private theorem prepares_of_run {proofUuid : String} {W W' : World} (hprep : ∀ op ∈ W.ops, op.prepares = false)
    (hrun : WorldRun proofUuid Requests W W') : ∀ op ∈ W'.ops, op.prepares = false := by
  refine TaskPool.Run.invariant (I := fun V => ∀ op ∈ V.ops, op.prepares = false) ?_ hprep hrun
  intro V l V' hV hl hstep
  refine TaskPool.forall_ops_step (P := fun op => op.prepares = false) ?_ ?_ hV hstep
  · rintro task rfl
    exact prepares_of_isRequest hl
  · rintro op c rfl h
    exact next_prepares h V.state

private theorem requests_of_noLateDispatchFailure (W : World) (l : WorldLabel) (h : NoLateDispatchFailure W l) :
    Requests W l := by
  cases l with
  | arrive task => exact h
  | run op c => trivial

/-- Once the final artifact of a proof is recorded, in every interleaving in which no dispatch failure is
written to it the proof waits unchanged until it is published, and keeps that status until it is
evicted. -/
theorem safe_of_sealed {proofUuid : String} {ps : ProofState} {W W' : World}
    (hproof : W.state.proof = some ps)
    (hs : ps.Sealed) (hprep : ∀ op ∈ W.ops, op.prepares = false)
    (hrun : WorldRun proofUuid NoLateDispatchFailure W W') :
    Waiting ps W'.state.proof ∨
      ∃ V, WorldRun proofUuid NoLateDispatchFailure W V ∧ WorldRun proofUuid NoLateDispatchFailure V W' ∧
        Published V.state.proof ∧ (Published W'.state.proof ∨ W'.state.proof = none) := by
  induction hrun with
  | refl => exact .inl ⟨ps.lateResultNoticeEmitted, hproof⟩
  | @tail U U' l hrun hallowed hstep ih =>
    cases l with
    | arrive task =>
      cases hstep
      refine ih.imp_right ?_
      rintro ⟨V, hV, hVU, h⟩
      exact ⟨V, hV, hVU.tail hallowed (.arrive task), h⟩
    | run op c =>
      have hop := prepares_of_run hprep (hrun.mono requests_of_noLateDispatchFailure) op (TaskPool.op_mem hstep)
      have hentry : U'.state.proof = U.state.proof.bind (op.writeProof proofUuid c) :=
        (TaskPool.ops_run hstep).1 ▸ exec_proof
      rcases ih with hwait | ⟨V, hV, hVU, hpub, hnow⟩
      · have hdispatch : (∃ reason, op = .dispatchFailed reason) → ∀ qs, U.state.proof = some qs → ¬ qs.Sealed := by
          rintro ⟨reason, rfl⟩
          exact hallowed
        rcases waiting_write hwait hs hop hdispatch with hnext | hnext
        · exact .inl (hentry ▸ hnext)
        · exact .inr ⟨U', hrun.tail hallowed hstep, .refl, hentry ▸ hnext, .inl (hentry ▸ hnext)⟩
      · refine .inr ⟨V, hV, hVU.tail hallowed hstep, hpub, ?_⟩
        rw [hentry]
        rcases hnow with hnow | hnow
        · exact published_write hnow hop
        · exact .inr (by rw [hnow, Option.bind_none])

def sampleChoice : Choice := ⟨0, true, true, .ok (), true, 0, "", "", 0⟩

/-- A result of worker 0 arrives, and the newest task does its next `steps` steps. -/
def deliverResult (result : ProofResult) (steps : Nat) : List (TaskPool.Move Choice Op) :=
  .arrive (resultTask 0 ⟨0, "", result⟩) :: List.replicate steps (.run 0 sampleChoice)

def sampleAdmitted : World := World.admitted (sampleParams .stark) sampleFleet 4 1 none true

/-- `start_proof` sends its kickoff, and the results of one segment come in up to the layer-0 proof. -/
def internalMoves : List (TaskPool.Move Choice Op) :=
  List.replicate 3 (.run 0 sampleChoice) ++ deliverResult (sampleE2 1) 5 ++ deliverResult (sampleApp 0) 6 ++
    deliverResult (sampleLeaf 0) 6 ++ deliverResult (sampleInternal 0 0 0) 5

/-- Three attempts to dispatch the final internal proof, and the worker is given up. -/
def giveUpMoves : List (TaskPool.Move Choice Op) :=
  List.replicate 3 (.run 0 { sampleChoice with sent := false }) ++ [.run 0 sampleChoice]

def sealedMoves : List (TaskPool.Move Choice Op) :=
  internalMoves ++ giveUpMoves ++ deliverResult (sampleInternal 1 0 0) 1

def onlyRequests (_ : World) : WorldLabel → Bool
  | .arrive task => isRequest task
  | .run _ _ => true

theorem requests_of_onlyRequests (W : World) (l : WorldLabel) (h : onlyRequests W l = true) : Requests W l := by
  cases l with
  | arrive task => exact h
  | run op c => trivial

/-- The final artifact is recorded, and then the failure of the dispatch of that proof is written. -/
theorem sealed_fails : ¬ ∀ (p : TreeParams) (fleet : List (Nat × RegisteredWorker))
    (leafPackThreshold maxLeafProvers : Nat)
    (staged : Option StagedInputs) (inputAlreadyUploaded : Bool) (V V' : World) (ps : ProofState),
    WorldRun p.context.proofUuid Requests
      (World.admitted p fleet leafPackThreshold maxLeafProvers staged inputAlreadyUploaded) V →
    V.state.proof = some ps → ps.Sealed → WorldRun p.context.proofUuid Requests V V' →
    Waiting ps V'.state.proof ∨ Published V'.state.proof ∨ V'.state.proof = none := by
  intro hall
  obtain ⟨V, hrun, hV⟩ := TaskPool.exists_run_of_play (Op.exec "proof") onlyRequests sampleAdmitted sealedMoves
    (fun V => V.state.proof.any (fun ps => ps.status.isInProgress && ps.isReadyForFinalization) &&
      (V.play (Op.exec "proof") onlyRequests [.run 1 sampleChoice]).any
        fun V' => V'.state.proof.any (·.status.isFailing)) (by decide +kernel)
  obtain ⟨hready, hplay⟩ := (Bool.and_eq_true _ _).mp hV
  obtain ⟨ps, hps, hsealed⟩ := (Option.any_eq_true _ _).mp hready
  have hs : ps.Sealed := by simpa [ProofState.Sealed] using hsealed
  obtain ⟨V', hrun', hV'⟩ := TaskPool.exists_run_of_play _ _ _ _ _ hplay
  obtain ⟨qs, hqs, hfailing⟩ := (Option.any_eq_true _ _).mp hV'
  have hafter := hall (sampleParams .stark) sampleFleet 4 1 none true V V' ps
    (hrun.mono requests_of_onlyRequests) hps hs (hrun'.mono requests_of_onlyRequests)
  rw [hqs] at hafter
  rcases hafter with ⟨notice, hwait⟩ | ⟨qs', hpub, hst⟩ | hgone
  · obtain rfl := Option.some.inj hwait
    simp [hs.1, ProofStatus.isFailing] at hfailing
  · obtain rfl := Option.some.inj hpub
    rcases hst with hst | ⟨e, hst⟩ <;> simp [hst, ProofStatus.isFailing] at hfailing
  · simp at hgone

def sealedProof : ProofState :=
  { (sampleParams .stark).initial with
    numSegments := some 1
    internalProofs := Function.update (fun _ => none) ⟨1, 0⟩ (some ⟨some [9], 1, 0, 0, none, true⟩) }

def sealedWorld : World :=
  ⟨⟨some sealedProof, some (.initProof sampleFleet 4 1), none⟩, [[.finalizeUnlessFailing, .checkFailing, .evict]]⟩

def noDispatchFailure (W : World) : WorldLabel → Bool
  | .run (.dispatchFailed _) _ => false
  | l => onlyRequests W l

private theorem noLateDispatchFailure_of_noDispatchFailure (W : World) (l : WorldLabel)
    (h : noDispatchFailure W l = true) :
    NoLateDispatchFailure W l := by
  cases l with
  | arrive task => exact h
  | run op c =>
    cases op with
    | dispatchFailed reason => simp [noDispatchFailure] at h
    | _ => trivial

/-- A cancellation comes before the persistence of the final proof. -/
theorem safe_sample : ∃ W', Published W'.state.proof ∧
    (Waiting sealedProof W'.state.proof ∨
      ∃ V, WorldRun "proof" NoLateDispatchFailure sealedWorld V ∧ WorldRun "proof" NoLateDispatchFailure V W' ∧
        Published V.state.proof ∧ (Published W'.state.proof ∨ W'.state.proof = none)) := by
  obtain ⟨W', hrun, hW'⟩ := TaskPool.exists_run_of_play (Op.exec "proof") noDispatchFailure sealedWorld
    (.arrive cancelTask :: .run 0 sampleChoice :: List.replicate 3 (.run 1 sampleChoice))
    (fun W => W.state.proof.any (·.status == .completed)) (by decide +kernel)
  obtain ⟨ps, hps, hst⟩ := (Option.any_eq_true _ _).mp hW'
  have hs : sealedProof.Sealed := ⟨rfl, by decide⟩
  exact ⟨W', ⟨ps, hps, .inl (by simpa using hst)⟩,
    safe_of_sealed (show sealedWorld.state.proof = some sealedProof from rfl) hs
    (by simp [sealedWorld, TaskPool.Pool.ops, Op.prepares])
    (hrun.mono noLateDispatchFailure_of_noDispatchFailure)⟩

end EdgeProver
