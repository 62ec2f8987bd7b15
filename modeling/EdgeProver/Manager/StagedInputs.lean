import EdgeProver.Manager.Reclaim

/-! Inputs staged on the manager: what takes each entry away in the end. Uploads carry their time and are swept
once no proof has their uuid; the deferral inputs that `start_proof` stages again are left to their proof. -/
namespace EdgeProver

/-- The staged entry carries no upload time. -/
def Manager.Restaged (m : Manager) : Prop := ∃ staged, m.staged = some staged ∧ staged.stagedAt = none

/-- What removes the staged inputs of the proof is under way. -/
def Unstaging (A : App) (proofUuid : String) : Prop :=
  .step proofUuid .removeStaged ∈ A.ops ∨ .step proofUuid .finalizeUnlessFailing ∈ A.ops

/-- Inputs are staged again only while their removal is ahead; with such inputs, no live proof is evicted, and an
abort that drops nothing leaves them to a removal under way. -/
def Retained (A : App) : AppLabel → Prop
  | .arrive task => isArrival task
  | .run (.step proofUuid (.restage _)) _ => Ahead .removeStaged A proofUuid
  | .run (.step proofUuid (.abort _)) _ => (A.state.slices proofUuid).Restaged → Unstaging A proofUuid
  | .run (.evictRemove proofUuid) _ => (A.state.slices proofUuid).Restaged →
      ∀ ps, (A.state.slices proofUuid).proof = some ps → ps.isLive = false
  | .run _ _ => True

def Op.dropsStaged : Op → Bool
  | .removeStaged | .takeStaged _ => true
  | _ => false

def AppOp.dropsStaged (proofUuid : String) : AppOp → Bool
  | .step v op => v == proofUuid && op.dropsStaged
  | .sweepRemove v => v == proofUuid
  | _ => false

section
variable {config : ManagerConfig} {proofUuid : String} {c : Choice} {m : Manager} {op : Op} {d : AppState} {A A' : App}
  {l : AppLabel}

private theorem workerCompleted_staged (id : Nat) (result : ProofResult) :
    (m.workerCompleted proofUuid id result).2.staged = m.staged := by
  unfold Manager.workerCompleted
  split
  · rfl
  · split <;> rfl

private theorem workerDrained_staged (id : Nat) (result : ProofResult) :
    (m.workerDrained proofUuid id result).2.staged = m.staged := by
  unfold Manager.workerDrained
  split
  · rfl
  · split <;> rfl

/-- A step keeps the staged inputs or drops them, or is the one that stages them again. -/
theorem staged_exec : (op.exec proofUuid c m).state.staged = m.staged ∨
    (op.dropsStaged = true ∧ (op.exec proofUuid c m).state.staged = none) ∨
    ∃ inputs, op = .restage inputs ∧
      (op.exec proofUuid c m).state.staged = some { StagedInputs.empty with deferralInputs := inputs } := by
  cases op with
  | restage inputs => exact .inr (.inr ⟨inputs, rfl, rfl⟩)
  | removeStaged | takeStaged => exact .inr (.inl ⟨rfl, rfl⟩)
  | process workerId envelope =>
    simp only [Op.exec]
    split
    · exact .inl rfl
    · split <;> exact .inl rfl
  | setNumSegments n =>
    simp only [Op.exec, handOut, Manager.setNumSegments]
    split <;> exact .inl rfl
  | enqueue request =>
    simp only [Op.exec, handOut, Manager.enqueueOrAssign]
    split <;> exact .inl rfl
  | workerCompleted workerId result =>
    simp only [Op.exec]
    split <;> exact .inl (workerCompleted_staged workerId result)
  | workerDrained workerId result => exact .inl (workerDrained_staged workerId result)
  | evict | timeoutCheck now | send work retries =>
    simp only [Op.exec]
    split
    · exact .inl rfl
    · split <;> exact .inl rfl
  | checkFailing | upload | fanout | kickoff =>
    simp only [Op.exec]
    split <;> exact .inl rfl
  | _ => exact .inl rfl

/-- Where what is staged for a uuid comes from: it was there, or it is dropped, staged again or uploaded. -/
theorem staged_app {appOp : AppOp} {entry : Option StagedInputs}
    (h : ((appOp.exec config c d).state.slices proofUuid).staged = entry) :
    entry = (d.slices proofUuid).staged ∨ (appOp.dropsStaged proofUuid = true ∧ entry = none) ∨
    (∃ inputs, appOp = .step proofUuid (.restage inputs) ∧
      entry = some { StagedInputs.empty with deferralInputs := inputs }) ∨
    ∃ staged, appOp = .stage proofUuid staged ∧ entry = some { staged with stagedAt := some c.now } := by
  have hput : ∀ (v : String) (m : Manager), (v = proofUuid → m.staged = (d.slices v).staged) →
      ((d.put v m).slices proofUuid).staged = entry → entry = (d.slices proofUuid).staged := by
    intro v m hm hentry
    rw [AppState.put_slices] at hentry
    by_cases hv : proofUuid = v
    · subst hv
      rw [Function.update_self] at hentry
      exact hentry.symm.trans (hm rfl)
    · rw [Function.update_of_ne hv] at hentry
      exact hentry.symm
  cases appOp with
  | step v op =>
    by_cases hevict : op = .evict
    · subst hevict
      exact .inl h.symm
    · rw [exec_step hevict] at h
      by_cases hv : v = proofUuid
      · subst hv
        rw [AppState.put_slices, Function.update_self] at h
        rcases @staged_exec v c (d.slices v) op with hkeep | ⟨hdrops, hnone⟩ | ⟨inputs, rfl, hrestage⟩
        · exact .inl (h.symm.trans hkeep)
        · exact .inr (.inl ⟨by rw [AppOp.dropsStaged, hdrops, beq_self_eq_true]; rfl, h.symm.trans hnone⟩)
        · exact .inr (.inr (.inl ⟨inputs, rfl, h.symm.trans hrestage⟩))
      · exact .inl (hput v _ (fun heq => absurd heq hv) h)
  | stage v staged =>
    by_cases hv : v = proofUuid
    · subst hv
      rw [AppOp.exec, proceed, AppState.put_slices, Function.update_self] at h
      exact .inr (.inr (.inr ⟨staged, rfl, h.symm⟩))
    · exact .inl (hput v _ (fun heq => absurd heq hv) h)
  | sweepRemove v =>
    by_cases hv : v = proofUuid
    · subst hv
      rw [AppOp.exec, proceed, AppState.put_slices, Function.update_self] at h
      exact .inr (.inl ⟨beq_self_eq_true v, h.symm⟩)
    · exact .inl (hput v _ (fun heq => absurd heq hv) h)
  | startProof req | checkBusy req | checkDuplicate req =>
    rw [AppOp.exec] at h
    split at h <;> exact .inl h.symm
  | insertProof req | initProof req =>
    refine .inl (hput req.context.proofUuid _ ?_ h)
    exact fun _ => rfl
  | evictRemove v =>
    refine .inl (hput v _ ?_ h)
    exact fun _ => rfl
  | evictPass now remaining found | sweepPass now remaining found => cases remaining <;> exact .inl h.symm
  | watchdog | sweep now => exact .inl h.symm

private theorem restaged_app {appOp : AppOp} (h : ((appOp.exec config c d).state.slices proofUuid).Restaged) :
    (d.slices proofUuid).Restaged ∨ ∃ inputs, appOp = .step proofUuid (.restage inputs) := by
  obtain ⟨staged, hstaged, htime⟩ := h
  rcases staged_app hstaged with hkeep | ⟨-, hnone⟩ | ⟨inputs, hop, -⟩ | ⟨upload, -, hupload⟩
  · exact .inl ⟨staged, hkeep.symm, htime⟩
  · cases hnone
  · exact .inr ⟨inputs, hop⟩
  · obtain rfl := Option.some.inj hupload
    cases htime

private theorem retained_step (htidy : ∀ task ∈ A.tasks, Tidied task) (hallowed : Retained A l)
    (hstep : AppStep config A l A')
    (h : ∀ u, (A.state.slices u).Restaged → Ahead .removeStaged A u) :
    ∀ u, (A'.state.slices u).Restaged → Ahead .removeStaged A' u := by
  intro u hrestaged
  have hbefore : Ahead .removeStaged A u ∧ ((A.state.slices u).Restaged ∨
      ∃ inputs c, l = .run (.step u (.restage inputs)) c) := by
    cases l with
    | arrive task =>
      cases hstep
      exact ⟨h u hrestaged, .inl hrestaged⟩
    | run op c =>
      rw [(TaskPool.ops_run hstep).1] at hrestaged
      rcases restaged_app hrestaged with hold | ⟨inputs, rfl⟩
      · exact ⟨h u hold, .inl hold⟩
      · exact ⟨hallowed, .inr ⟨inputs, c, rfl⟩⟩
  obtain ⟨hahead, hold⟩ := hbefore
  refine (ahead_step (.inr rfl) htidy hstep ?_ ?_ hahead).resolve_right ?_
  · rintro c rfl
    rcases hold with hold | ⟨inputs, c', hl⟩
    · exact hallowed hold
    · simp at hl
  · rintro - message c rfl
    rcases hold with hold | ⟨inputs, c', hl⟩
    · exact hallowed hold
    · simp at hl
  · rintro ⟨c, rfl⟩
    rw [(TaskPool.ops_run hstep).1] at hrestaged
    obtain ⟨staged, hstaged, -⟩ := hrestaged
    simp [AppOp.exec, Op.exec, goOn] at hstaged

/-- An upload with a time is swept, late enough, once no proof has its uuid. -/
theorem orphaned_of_stagedAt {staged : StagedInputs} {t : Time} (hstaged : m.staged = some staged)
    (htime : staged.stagedAt = some t) : ∃ late, ∀ now, late ≤ now → m.proof = none → m.isOrphaned now = true := by
  refine ⟨t + (orphanedStagedInputTtlSecs * 1000000000 + 1), fun now hnow hnone => ?_⟩
  have hold : t < now - orphanedStagedInputTtlSecs * 1000000000 := by
    refine Int.lt_sub_right_of_add_lt (lt_of_lt_of_le ?_ hnow)
    rw [← Int.add_assoc]
    exact Int.lt_succ _
  simp [Manager.isOrphaned, hnone, hstaged, htime, hold]

end

/-- Along every run in which inputs are staged again only while their removal is ahead, and no eviction or failed
upload takes that removal away, every staged entry is swept once no proof has its uuid, or belongs to a proof
that is not terminal, or its removal is under way. -/
theorem staged_reclaimable {config : ManagerConfig} {A : App} (hrun : AppRun config Retained App.start A)
    (proofUuid : String) {staged : StagedInputs} (hstaged : (A.state.slices proofUuid).staged = some staged) :
    (staged.stagedAt.isSome = true ∧ ∃ late, ∀ now, late ≤ now → (A.state.slices proofUuid).proof = none →
        (A.state.slices proofUuid).isOrphaned now = true) ∨
      (∃ ps, (A.state.slices proofUuid).proof = some ps ∧ (ps.status = .inProgress ∨ ps.status.isFailing = true)) ∨
      Unstaging A proofUuid := by
  cases htime : staged.stagedAt with
  | some t => exact .inl ⟨rfl, orphaned_of_stagedAt hstaged htime⟩
  | none =>
    refine .inr ?_
    suffices (∀ task ∈ A.tasks, Tidied task) ∧ ∀ u, (A.state.slices u).Restaged → Ahead .removeStaged A u by
      refine (this.2 proofUuid ⟨staged, hstaged, htime⟩).imp_left ?_
      rintro ⟨ps, hps, hlive⟩
      exact ⟨ps, hps, (isLive_cases hlive).symm.imp (fun hopen => (ProofState.not_sealed_iff.mp hopen).1) And.left⟩
    refine TaskPool.Run.invariant (I := fun A : App => (∀ task ∈ A.tasks, Tidied task) ∧
      ∀ u, (A.state.slices u).Restaged → Ahead .removeStaged A u) ?_ ?_ hrun
    · intro A l A' hA hallowed hstep
      refine ⟨tidied_step ?_ hstep hA.1, retained_step hA.1 hallowed hstep hA.2⟩
      rintro task rfl
      exact hallowed
    · refine ⟨by simp [App.start], ?_⟩
      rintro u ⟨entry, hentry, -⟩
      simp [App.start, AppState.empty, Manager.empty] at hentry

/-- A deferral proof whose start has uploaded its input and has its states still to fan out. -/
def fanoutMoves : List (TaskPool.Move Choice AppOp) :=
  appMoves 0 [.stage "proof" ⟨some [1], [(0, [2])], [(0, [3])], none⟩] 1 ++
    appMoves 0 [.startProof { sampleRequest "proof" valid_sample 3600 with inputAlreadyUploaded := false }] 7

/-- The proof is canceled, and then the fan-out succeeds. -/
def lateFanoutMoves : List (TaskPool.Move Choice AppOp) :=
  fanoutMoves ++ appMoves 0 [.step "proof" .cancel] 3 ++ List.replicate 5 (.run 1 sampleChoice)

/-- The deferral inputs are staged again after the cancellation dropped them, and nothing takes them away. -/
theorem staged_reclaimable_fails : ¬ ∀ (config : ManagerConfig) (A : App), AppRun config AppArrivals App.start A →
    ∀ proofUuid staged, (A.state.slices proofUuid).staged = some staged →
      staged.stagedAt.isSome = true ∨
      (∃ ps, (A.state.slices proofUuid).proof = some ps ∧ (ps.status = .inProgress ∨ ps.status.isFailing = true)) ∨
      Unstaging A proofUuid := by
  intro hall
  obtain ⟨A, hrun, hA⟩ := TaskPool.exists_run_of_play (AppOp.exec sampleConfig) appArrivals App.start lateFanoutMoves
    (fun A => (A.state.slices "proof").staged.any (·.stagedAt.isNone) &&
      (A.state.slices "proof").proof.all (·.status == .canceled) && A.ops.isEmpty) (by decide +kernel)
  simp only [Bool.and_eq_true, List.isEmpty_iff] at hA
  obtain ⟨⟨hrestaged, hcanceled⟩, hidle⟩ := hA
  obtain ⟨staged, hstaged, htime⟩ := (Option.any_eq_true _ _).mp hrestaged
  rcases hall sampleConfig A (hrun.mono appArrivals_of_bool) "proof" staged hstaged with hsome | ⟨ps, hps, hst⟩ | hunder
  · simp [Option.isNone_iff_eq_none.mp htime] at hsome
  · have hst' : ps.status = .canceled := by simpa [hps] using hcanceled
    simp [hst', ProofStatus.isFailing] at hst
  · simp [Unstaging, hidle] at hunder

def retained (A : App) : AppLabel → Bool
  | .run (.step proofUuid (.restage _)) _ => (A.state.slices proofUuid).proof.any (·.isLive)
  | .run (.step _ (.abort _)) _ => false
  | .run (.evictRemove _) _ => false
  | l => appArrivals A l

private theorem retained_of_bool (A : App) (l : AppLabel) (h : retained A l = true) : Retained A l := by
  cases l with
  | arrive task => exact h
  | run op c =>
    cases op with
    | evictRemove proofUuid => simp [retained] at h
    | step proofUuid op =>
      cases op with
      | restage inputs =>
        obtain ⟨ps, hps, hlive⟩ := (Option.any_eq_true _ _).mp h
        exact .inl ⟨ps, hps, hlive⟩
      | abort message => simp [retained] at h
      | _ => trivial
    | _ => trivial

/-- The start goes on undisturbed, and the deferral inputs wait for the last internal proof. -/
theorem staged_reclaimable_sample : ∃ (A : App) (staged : StagedInputs), staged.stagedAt = none ∧
    ((staged.stagedAt.isSome = true ∧ ∃ late, ∀ now, late ≤ now → (A.state.slices "proof").proof = none →
        (A.state.slices "proof").isOrphaned now = true) ∨
      (∃ ps, (A.state.slices "proof").proof = some ps ∧ (ps.status = .inProgress ∨ ps.status.isFailing = true)) ∨
      Unstaging A "proof") := by
  obtain ⟨A, hrun, hA⟩ := TaskPool.exists_run_of_play (AppOp.exec sampleConfig) retained App.start
    (fanoutMoves ++ List.replicate 5 (.run 0 sampleChoice))
    (fun A => (A.state.slices "proof").staged.any (·.stagedAt.isNone)) (by decide +kernel)
  obtain ⟨staged, hstaged, htime⟩ := (Option.any_eq_true _ _).mp hA
  exact ⟨A, staged, Option.isNone_iff_eq_none.mp htime, staged_reclaimable (hrun.mono retained_of_bool) "proof" hstaged⟩

end EdgeProver
