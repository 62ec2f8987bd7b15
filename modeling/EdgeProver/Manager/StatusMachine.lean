import EdgeProver.Manager.Sealed
import EdgeProver.ProofState.Frame

/-! The statuses that a proof goes through, whoever writes them. -/
namespace EdgeProver

/-- The changes of status: out of `InProgress` to anywhere, and from `Failing` to `Failed`. -/
inductive StatusStep : ProofStatus → ProofStatus → Prop
  | fail (reason : String) : StatusStep .inProgress (.failing reason)
  | complete : StatusStep .inProgress .completed
  | failAtOnce (reason : String) : StatusStep .inProgress (.failed reason)
  | cancel : StatusStep .inProgress .canceled
  | drain (reason reason' : String) : StatusStep (.failing reason) (.failed reason')

def ProofStatus.isTerminal : ProofStatus → Bool
  | .completed | .failed _ | .canceled => true
  | .inProgress | .failing _ => false

/-- The entry keeps its status, changes it as the machine allows, or is gone. -/
def StatusFollows (entry entry' : Option ProofState) : Prop :=
  ∀ ps ps', entry = some ps → entry' = some ps' → ps'.status = ps.status ∨ StatusStep ps.status ps'.status

/-- `start_proof` gives the proof up only while its status is not terminal. -/
def NoLateAbort (W : World) : WorldLabel → Prop
  | .run (.abort _) _ => ∀ ps, W.state.proof = some ps → ps.status.isTerminal = false
  | l => Requests W l

section
variable {proofUuid : String} {c : Choice} {ps ps' : ProofState} {op : Op}

private theorem StatusStep.not_terminal {old new : ProofStatus} (h : StatusStep old new) : old.isTerminal = false := by
  cases h <;> rfl

/-- Every writer but the abort of `start_proof` looks at the status first. -/
theorem statusStep_write (habort : (∃ message, op = .abort message) → ps.status.isTerminal = false)
    (h : op.writeProof proofUuid c ps = some ps') : ps'.status = ps.status ∨ StatusStep ps.status ps'.status := by
  by_cases hin : ps.status = .inProgress
  · rw [hin]
    cases op with
    | process workerId envelope =>
      simp only [Op.writeProof] at h
      split at h
      · obtain rfl := Option.some.inj h
        exact .inl hin
      · obtain rfl := Option.some.inj h
        rw [ProofState.handleEnvelope_eq]
        split
        · exact .inl hin
        · rcases (ProofState.frame_handleProofResult _ envelope.message).status with hst | ⟨reason, hst⟩
          · exact .inl (hst.trans hin)
          · exact .inr (hst ▸ .fail reason)
    | evict =>
      simp only [Op.writeProof] at h
      split at h
      · simp at h
      · obtain rfl := Option.some.inj h
        exact .inl hin
    | transition =>
      obtain rfl := Option.some.inj h
      exact .inl (by simp [ProofState.transitionFailingToFailed, hin])
    | persist =>
      obtain rfl := Option.some.inj h
      by_cases hs : ps.Sealed
      · rcases finalize_status hs c.now c.persisted with hst | ⟨e, hst⟩
        · exact .inr (hst ▸ .complete)
        · exact .inr (hst ▸ .failAtOnce _)
      · refine .inl ((compactCompletedState_status _).trans ?_)
        rw [if_neg (by simpa [ProofState.Sealed] using hs)]
        exact hin
    | dispatchFailed reason =>
      obtain rfl := Option.some.inj h
      exact .inr (by simpa [ProofState.dispatchFailed, hin] using .fail reason)
    | cancel =>
      obtain rfl := Option.some.inj h
      simp only [ProofState.cancel]
      split
      · exact .inr .cancel
      · exact .inl hin
    | timeoutCheck now =>
      simp only [Op.writeProof] at h
      obtain rfl := Option.some.inj h
      simp only [ProofState.markTimedOut]
      split
      · split
        · exact .inl hin
        · exact .inr (.fail _)
      · exact .inl hin
    | markFailing message =>
      obtain rfl := Option.some.inj h
      simp only [ProofState.markFailing]
      split
      · exact .inl hin
      · exact .inr (.fail _)
    | abort message =>
      obtain rfl := Option.some.inj h
      exact .inr (.failAtOnce message)
    | _ =>
      obtain rfl := Option.some.inj h
      exact .inl hin
  · rcases writeProof_status_of_over hin h with hkeep | ⟨reason, hfailed, hfailing | rfl⟩
    · exact .inl hkeep
    · rw [hfailing, hfailed]
      exact .inr (.drain reason reason)
    · have hlive := habort ⟨reason, rfl⟩
      rw [hfailed]
      cases hst : ps.status with
      | inProgress => exact absurd hst hin
      | failing old => exact .inr (.drain old reason)
      | completed | failed | canceled => simp [hst, ProofStatus.isTerminal] at hlive

/-- One step of any interleaving follows the machine. -/
theorem follows_step {W W' : World} {l : WorldLabel} (hallowed : NoLateAbort W l)
    (hstep : WorldStep proofUuid W l W') : StatusFollows W.state.proof W'.state.proof := by
  intro ps ps' hps hps'
  cases l with
  | arrive task =>
    cases hstep
    obtain rfl := Option.some.inj (hps.symm.trans hps')
    exact .inl rfl
  | run op c =>
    rw [(TaskPool.ops_run hstep).1, exec_proof, hps, Option.bind_some] at hps'
    refine statusStep_write ?_ hps'
    rintro ⟨message, rfl⟩
    exact hallowed ps hps

end

/-- A terminal status stays for as long as the entry does. -/
theorem terminal_of_run {proofUuid : String} {W W' : World} {ps : ProofState} (hproof : W.state.proof = some ps)
    (hterminal : ps.status.isTerminal = true) (hrun : WorldRun proofUuid NoLateAbort W W') :
    ∀ ps', W'.state.proof = some ps' → ps'.status = ps.status := by
  induction hrun with
  | refl =>
    intro ps' hps'
    obtain rfl := Option.some.inj (hproof.symm.trans hps')
    rfl
  | @tail U U' l hrun hallowed hstep ih =>
    intro ps' hps'
    have hfollows := follows_step hallowed hstep
    cases hU : U.state.proof with
    | some qs =>
      have hst := ih qs hU
      rcases hfollows qs ps' hU hps' with hkeep | hchange
      · exact hkeep.trans hst
      · rw [hst] at hchange
        simp [hchange.not_terminal] at hterminal
    | none =>
      -- an entry that is gone is never made again
      cases l with
      | arrive task =>
        cases hstep
        simp [hU] at hps'
      | run op c =>
        rw [(TaskPool.ops_run hstep).1, exec_proof, hU, Option.bind_none] at hps'
        simp at hps'

/-- Along every interleaving in which no abort of `start_proof` meets a terminal status, each step changes the
status as the machine allows, and a terminal status is never replaced. -/
theorem status_machine {proofUuid : String} {W₀ W : World} (hrun : WorldRun proofUuid NoLateAbort W₀ W) :
    (∀ l W', NoLateAbort W l → WorldStep proofUuid W l W' → StatusFollows W.state.proof W'.state.proof) ∧
      ∀ ps ps₀, W₀.state.proof = some ps₀ → ps₀.status.isTerminal = true → W.state.proof = some ps →
        ps.status = ps₀.status :=
  ⟨fun _ _ hallowed hstep => follows_step hallowed hstep,
    fun ps _ hps₀ hterminal hps => terminal_of_run hps₀ hterminal hrun ps hps⟩

/-- The input is being uploaded when the proof is canceled, and then the upload fails. -/
def uploadMoves : List (TaskPool.Move Choice Op) :=
  [.run 0 sampleChoice, .arrive cancelTask, .run 0 sampleChoice, .run 1 { sampleChoice with sent := false }]

def sampleUpload : World := World.admitted (sampleParams .stark) sampleFleet 4 1 (some ⟨some [1], [], [], some 0⟩) false

/-- `Canceled`, once visible, is replaced by `Failed`. -/
theorem status_machine_fails : ¬ ∀ (p : TreeParams) (fleet : List (Nat × RegisteredWorker))
    (leafPackThreshold maxLeafProvers : Nat) (staged : Option StagedInputs) (inputAlreadyUploaded : Bool) (W W' : World)
    (l : WorldLabel), WorldRun p.context.proofUuid Requests
      (World.admitted p fleet leafPackThreshold maxLeafProvers staged inputAlreadyUploaded) W →
    Requests W l → WorldStep p.context.proofUuid W l W' → StatusFollows W.state.proof W'.state.proof := by
  intro hall
  obtain ⟨W, hrun, hW⟩ := TaskPool.exists_run_of_play (Op.exec "proof") onlyRequests sampleUpload uploadMoves
    (fun W => W.state.proof.any (·.status == .canceled) &&
      (W.move (Op.exec "proof") (.run 1 sampleChoice)).any fun moved =>
        onlyRequests W moved.1 && moved.2.state.proof.any fun ps => ps.status.isTerminal && ps.status != .canceled)
    (by decide +kernel)
  obtain ⟨hcanceled, hmove⟩ := (Bool.and_eq_true _ _).mp hW
  obtain ⟨⟨l, W'⟩, hmoved, hboth⟩ := (Option.any_eq_true _ _).mp hmove
  obtain ⟨hallowed, hfailed⟩ := (Bool.and_eq_true _ _).mp hboth
  obtain ⟨ps, hps, hst⟩ := (Option.any_eq_true _ _).mp hcanceled
  obtain ⟨ps', hps', hst'⟩ := (Option.any_eq_true _ _).mp hfailed
  have hcanceled : ps.status = .canceled := by simpa using hst
  rcases hall (sampleParams .stark) sampleFleet 4 1 (some ⟨some [1], [], [], some 0⟩) false W W' l
      (hrun.mono requests_of_onlyRequests) (requests_of_onlyRequests W l hallowed) (TaskPool.step_of_move hmoved)
      ps ps' hps hps' with hkeep | hchange
  · simp [hkeep, hcanceled] at hst'
  · simpa [hcanceled, ProofStatus.isTerminal] using hchange.not_terminal

/-- Arrivals are requests, and `start_proof` does not give up. -/
def noAbort (W : World) : WorldLabel → Bool
  | .run (.abort _) _ => false
  | l => onlyRequests W l

private theorem noLateAbort_of_noAbort (W : World) (l : WorldLabel) (h : noAbort W l = true) : NoLateAbort W l := by
  cases l with
  | arrive task => exact h
  | run op c =>
    cases op with
    | abort message => simp [noAbort] at h
    | _ => trivial

/-- The sample proof is canceled while its kickoff is still to come. -/
theorem status_machine_sample : ∃ W : World, W.state.proof.any (·.status == .canceled) = true ∧
    (∀ l W', NoLateAbort W l → WorldStep "proof" W l W' → StatusFollows W.state.proof W'.state.proof) ∧
    ∀ ps ps₀, sampleAdmitted.state.proof = some ps₀ → ps₀.status.isTerminal = true → W.state.proof = some ps →
      ps.status = ps₀.status := by
  obtain ⟨W, hrun, hW⟩ := TaskPool.exists_run_of_play (Op.exec "proof") noAbort sampleAdmitted
    [.run 0 sampleChoice, .arrive cancelTask, .run 0 sampleChoice] (fun W => W.state.proof.any (·.status == .canceled))
    (by decide +kernel)
  exact ⟨W, hW, status_machine (hrun.mono noLateAbort_of_noAbort)⟩

end EdgeProver
