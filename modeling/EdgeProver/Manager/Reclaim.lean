import EdgeProver.Manager.AppState
import EdgeProver.Manager.Sealed
import EdgeProver.ProofState.Frame

/-! What the manager holds for a proof is given back: as long as the proof is live, something can still
terminate it, and a step that terminates it has the cleanup ahead of it. -/
namespace EdgeProver

/-- A step that ends its proof owes it a later step of the same task. -/
def Op.Owes : Op → Op → Prop
  | .transition, last => last = .removeProof ∨ last = .removeStaged
  | .abort _, last => last = .removeProof
  | _, _ => False

def Tidied : List AppOp → Prop
  | [] => True
  | .step proofUuid op :: rest => (∀ last, op.Owes last → .step proofUuid last ∈ rest) ∧ Tidied rest
  | _ :: rest => Tidied rest

/-- The cleanup step `last` is ahead of the proof: the proof is live, or what runs the step is under way. -/
def Ahead (last : Op) (A : App) (proofUuid : String) : Prop :=
  (∃ ps, (A.state.slices proofUuid).proof = some ps ∧ ps.isLive = true) ∨
    .step proofUuid last ∈ A.ops ∨ .step proofUuid .finalizeUnlessFailing ∈ A.ops

def AppArrivals (_ : App) : AppLabel → Prop
  | .arrive task => isArrival task
  | .run _ _ => True

section
variable {config : ManagerConfig} {proofUuid : String} {c : Choice} {m : Manager} {op last : Op} {ps ps' : ProofState}

private theorem tidied_append {task rest : List AppOp} (h : Tidied task) (hrest : Tidied rest) :
    Tidied (task ++ rest) := by
  induction task with
  | nil => exact hrest
  | cons op task ih =>
    cases op with
    | step u op => exact ⟨fun last hlast => List.mem_append_left _ (h.1 last hlast), ih h.2⟩
    | _ => exact ih h

private theorem owes_of_kind (h : op.Owes last) : op.kind = .transition ∨ op.kind = .abort := by
  cases op <;> simp_all [Op.Owes, Op.kind]

private theorem tidied_steps {ops : List Op} (h : ∀ op ∈ ops, op.kind ≠ .transition ∧ op.kind ≠ .abort) :
    Tidied (ops.map (.step proofUuid)) := by
  induction ops with
  | nil => trivial
  | cons op ops ih =>
    refine ⟨fun last hlast => ?_, ih fun op' hop' => h op' (List.mem_cons_of_mem _ hop')⟩
    have hno := h op List.mem_cons_self
    rcases owes_of_kind hlast with hk | hk
    · exact absurd hk hno.1
    · exact absurd hk hno.2

private theorem tidied_finalize : Tidied (finalizeProof.map (.step proofUuid)) :=
  tidied_steps (by simp [finalizeProof, Op.kind])

private theorem tidied_transition : Tidied ((.transition :: finalizeProof).map (.step proofUuid)) := by
  refine ⟨fun last hlast => ?_, tidied_finalize⟩
  rcases hlast with rfl | rfl <;> simp [finalizeProof]

private theorem tidied_abort {message : String} {ops : List Op} (h : .removeProof ∈ ops)
    (hops : ∀ op ∈ ops, op.kind ≠ .transition ∧ op.kind ≠ .abort) :
    Tidied ((.abort message :: ops).map (.step proofUuid)) :=
  ⟨fun last hlast => by
    obtain rfl : last = .removeProof := hlast
    exact List.mem_map.mpr ⟨_, h, rfl⟩, tidied_steps hops⟩

private theorem tidied_abortProof {message : String} : Tidied ((abortProof message).map (.step proofUuid)) :=
  tidied_abort (by simp) (by simp [Op.kind])

private theorem tidied_afterUpload (req : StartRequest) (staged : StagedInputs) :
    Tidied ((afterUpload req staged).map (.step proofUuid)) := by
  unfold afterUpload
  split <;> exact tidied_steps (by simp [Op.kind, startKickoff])

private theorem tidied_checkStaged (req : StartRequest) (staged : StagedInputs) :
    Tidied ((checkStaged proofUuid req staged).map (.step proofUuid)) := by
  unfold checkStaged
  split
  · exact tidied_abortProof
  · split
    · exact tidied_abortProof
    · split
      · exact tidied_afterUpload req staged
      · split
        · exact tidied_steps (by simp [Op.kind])
        · exact tidied_abortProof

private theorem tidied_exec : Tidied ((op.exec proofUuid c m).next.map (.step proofUuid)) := by
  have hnext : ∀ op' ∈ (op.exec proofUuid c m).next, op'.kind ∈ op.kind.next := fun op' hop' =>
    leadsTo_exec op op' (List.mem_append_left _ hop')
  by_cases hkind : .transition ∉ op.kind.next ∧ .abort ∉ op.kind.next
  · exact tidied_steps fun op' hop' =>
      ⟨fun hk => hkind.1 (hk ▸ hnext op' hop'), fun hk => hkind.2 (hk ▸ hnext op' hop')⟩
  · cases op with
    | checkDrained ttlExpired =>
      simp only [Op.exec]
      split
      · trivial
      · exact tidied_transition
    | takeStaged req => exact tidied_checkStaged _ _
    | upload req staged =>
      simp only [Op.exec]
      split
      · exact tidied_afterUpload _ _
      · exact tidied_abort (by simp) (by simp [Op.kind])
    | fanout req staged =>
      simp only [Op.exec]
      split
      · exact tidied_steps (by simp [goOn, startKickoff, Op.kind])
      · exact tidied_abortProof
    | _ => simp [Op.kind, OpKind.next] at hkind

private theorem tidied_spawned {task : List Op} (h : task ∈ (op.exec proofUuid c m).spawned) :
    Tidied (task.map (.step proofUuid)) := by
  obtain ⟨work, rfl⟩ := spawned_exec h
  exact tidied_steps (by simp [Op.kind])

private theorem isLive_of_failing (h : ps.status.isFailing = true) : ps.isLive = true := by simp [ProofState.isLive, h]

private theorem ProofRequest.proofState_isLive (req : ProofRequest) (config : ManagerConfig) (now : Time) :
    (req.proofState config now).isLive = true := by
  have hready : (req.proofState config now).isReadyForFinalization = false := by
    unfold ProofState.isReadyForFinalization
    split <;> rfl
  rw [ProofState.isLive, hready]
  rfl

theorem isLive_cases (h : ps.isLive = true) :
    (ps.status.isFailing = true ∧ ps.status ≠ .inProgress) ∨ ps.isSealedForResults = false := by
  rcases (Bool.or_eq_true _ _).mp h with hfailing | hopen
  · refine .inl ⟨hfailing, ?_⟩
    rintro hst
    simp [hst, ProofStatus.isFailing] at hfailing
  · refine .inr ?_
    simpa [ProofState.isSealedForResults] using hopen

/-- A handled result leaves the proof live, or `proof_result` goes on to finalize it. -/
theorem live_process {workerId : Nat} {envelope : MessageEnvelope ProofResult} {now : Time}
    (h : ps.isSealedForResults = false) :
    (ps.handleProofResultWithEnvelopeOutcome now envelope).1.isLive = true ∨
      .finalizeUnlessFailing ∈
        afterProcess workerId envelope.message (ps.handleProofResultWithEnvelopeOutcome now envelope).2 := by
  obtain ⟨hst, hready⟩ := ProofState.not_sealed_iff.mp h
  have hframe := ProofState.frame_handleProofResult { ps with lastUpdated := now } envelope.message
  have herror := @ProofState.not_ready_of_error { ps with lastUpdated := now } envelope.message
  simp only [ProofState.handleProofResultWithEnvelopeOutcome, h, Bool.false_eq_true, if_false]
  generalize ProofState.handleProofResult { ps with lastUpdated := now } envelope.message = handled at hframe herror ⊢
  obtain ⟨ps', outcome⟩ := handled
  rcases hframe.status with hkeep | ⟨reason, hfailing⟩
  · have hprogress : ps'.status = .inProgress := hkeep.trans hst
    cases outcome with
    | error e =>
      have hnot := herror hready rfl
      exact .inl (by simp [ProofState.isLive, hprogress, hnot])
    | ok requests =>
      by_cases hnow : ps'.isReadyForFinalization = true
      · exact .inr (by simp [afterProcess, ProofState.isSealedForResults, hnow])
      · exact .inl (by simp [ProofState.isLive, hprogress, hnow])
  · cases outcome <;> exact .inl (isLive_of_failing (by rw [hfailing]; rfl))

/-- A step keeps a live proof live, but for the steps that end it and the result that completes it. -/
theorem live_exec (hproof : m.proof = some ps) (hlive : ps.isLive = true) (hevict : op ≠ .evict) :
    (∃ ps', (op.exec proofUuid c m).state.proof = some ps' ∧ ps'.isLive = true) ∨
      op = .transition ∨ (∃ message, op = .abort message) ∨ op = .cancel ∨
      .finalizeUnlessFailing ∈ (op.exec proofUuid c m).next := by
  have hexec := @exec_proof proofUuid c m op
  rw [hproof, Option.bind_some] at hexec
  rw [hexec]
  rcases isLive_cases hlive with ⟨hfailing, hover⟩ | hopen
  · cases hwrite : op.writeProof proofUuid c ps with
    | none =>
      cases op with
      | evict => exact absurd rfl hevict
      | process workerId envelope =>
        simp only [Op.writeProof] at hwrite
        split at hwrite <;> simp at hwrite
      | _ => simp [Op.writeProof] at hwrite
    | some ps' =>
      obtain ⟨hkeep, -⟩ | ⟨rfl, -⟩ | ⟨message, rfl, -⟩ := writeProof_over hover hwrite
      · exact .inl ⟨ps', rfl, isLive_of_failing (hkeep ▸ hfailing)⟩
      · exact .inr (.inl rfl)
      · exact .inr (.inr (.inl ⟨message, rfl⟩))
  · obtain ⟨hst, hready⟩ := ProofState.not_sealed_iff.mp hopen
    have hsame : ∀ ps' : ProofState, ps'.status = .inProgress → ps'.isReadyForFinalization = false →
        ps'.isLive = true := by
      intro ps' hst' hready'
      simp [ProofState.isLive, hst', hready']
    cases op with
    | evict => exact absurd rfl hevict
    | transition => exact .inr (.inl rfl)
    | abort message => exact .inr (.inr (.inl ⟨message, rfl⟩))
    | cancel => exact .inr (.inr (.inr (.inl rfl)))
    | process workerId envelope =>
      simp only [Op.writeProof, Op.exec, hproof]
      split
      · exact .inl ⟨ps, rfl, hlive⟩
      · exact (live_process hopen).imp (fun hl => ⟨_, rfl, hl⟩) fun hnext => .inr (.inr (.inr hnext))
    | persist =>
      refine .inl ⟨_, rfl, ?_⟩
      simp only [ProofState.finalize, hready, Bool.and_false, Bool.false_eq_true, if_false,
        ProofState.compactCompletedState, hst]
      exact hlive
    | dispatchFailed reason =>
      refine .inl ⟨_, rfl, isLive_of_failing ?_⟩
      simp [ProofState.dispatchFailed, hst, ProofStatus.isInProgress, ProofStatus.isFailing]
    | timeoutCheck now =>
      refine .inl ⟨_, rfl, ?_⟩
      split
      · refine isLive_of_failing ?_
        rw [ProofState.markTimedOut, hopen]
        rfl
      · exact hlive
    | markFailing message =>
      refine .inl ⟨_, rfl, isLive_of_failing ?_⟩
      rw [ProofState.markFailing, hopen]
      rfl
    | recordDeferral count => exact .inl ⟨_, rfl, hsame _ hst hready⟩
    | _ => exact .inl ⟨ps, rfl, hlive⟩

variable {d : AppState} {A A' : App} {l : AppLabel}

theorem exec_step (hevict : op ≠ .evict) : (AppOp.step proofUuid op).exec config c d =
    ⟨d.put proofUuid (op.exec proofUuid c (d.slices proofUuid)).state,
      (op.exec proofUuid c (d.slices proofUuid)).next.map (.step proofUuid),
      (op.exec proofUuid c (d.slices proofUuid)).spawned.map (·.map (.step proofUuid)), none⟩ := by
  cases op with
  | evict => exact absurd rfl hevict
  | _ => rfl

/-- A live proof stays live, but for the steps that end it, the result that completes it, and its eviction. -/
theorem live_app {appOp : AppOp} (hproof : (d.slices proofUuid).proof = some ps) (hlive : ps.isLive = true) :
    (∃ ps', ((appOp.exec config c d).state.slices proofUuid).proof = some ps' ∧ ps'.isLive = true) ∨
      appOp = .step proofUuid .transition ∨ (∃ message, appOp = .step proofUuid (.abort message)) ∨
      appOp = .step proofUuid .cancel ∨ .step proofUuid .finalizeUnlessFailing ∈ (appOp.exec config c d).next ∨
      appOp = .evictRemove proofUuid := by
  have hput : ∀ (v : String) (m : Manager), m.proof = (d.slices v).proof →
      ((d.put v m).slices proofUuid).proof = some ps := by
    intro v m hm
    by_cases hv : proofUuid = v
    · subst hv
      simpa using hm.trans hproof
    · simpa [Function.update_of_ne hv] using hproof
  cases appOp with
  | step v op =>
    by_cases hevict : op = .evict
    · subst hevict
      exact .inl ⟨ps, hproof, hlive⟩
    · rw [exec_step hevict]
      by_cases hv : proofUuid = v
      · subst hv
        simp only [AppState.put_slices, Function.update_self]
        rcases live_exec hproof hlive hevict with hl | rfl | ⟨message, rfl⟩ | rfl | hnext
        · exact .inl hl
        · exact .inr (.inl rfl)
        · exact .inr (.inr (.inl ⟨message, rfl⟩))
        · exact .inr (.inr (.inr (.inl rfl)))
        · exact .inr (.inr (.inr (.inr (.inl (List.mem_map.mpr ⟨_, hnext, rfl⟩)))))
      · exact .inl ⟨ps, by simpa [Function.update_of_ne hv] using hproof, hlive⟩
  | stage v staged => exact .inl ⟨ps, hput v _ rfl, hlive⟩
  | startProof req | checkBusy req | checkDuplicate req =>
    simp only [AppOp.exec]
    split <;> exact .inl ⟨ps, hproof, hlive⟩
  | insertProof req =>
    by_cases hv : proofUuid = req.context.proofUuid
    · refine .inl ⟨req.proofState config c.now, ?_, req.proofState_isLive config c.now⟩
      simp [AppOp.exec, proceed, hv]
    · exact .inl ⟨ps, by simpa [AppOp.exec, proceed, Function.update_of_ne hv] using hproof, hlive⟩
  | initProof req => exact .inl ⟨ps, hput req.context.proofUuid _ rfl, hlive⟩
  | evictPass now remaining found =>
    cases remaining <;> exact .inl ⟨ps, hproof, hlive⟩
  | evictRemove v =>
    by_cases hv : proofUuid = v
    · subst hv
      exact .inr (.inr (.inr (.inr (.inr rfl))))
    · exact .inl ⟨ps, by simpa [AppOp.exec, proceed, Function.update_of_ne hv] using hproof, hlive⟩
  | watchdog => exact .inl ⟨ps, hproof, hlive⟩
  | sweep now => exact .inl ⟨ps, hproof, hlive⟩
  | sweepPass now remaining found =>
    cases remaining <;> exact .inl ⟨ps, hproof, hlive⟩
  | sweepRemove v => exact .inl ⟨ps, hput v _ rfl, hlive⟩

/-- The cleanup stays ahead until it is done, as long as no live proof is evicted and the upload's failure
leaves nothing behind. -/
theorem ahead_step (hlast : last = .removeProof ∨ last = .removeStaged) (htidy : ∀ task ∈ A.tasks, Tidied task)
    (hstep : AppStep config A l A')
    (hevict : ∀ c, l = .run (.evictRemove proofUuid) c →
      ∀ ps, (A.state.slices proofUuid).proof = some ps → ps.isLive = false)
    (habort : last = .removeStaged → ∀ message c, l = .run (.step proofUuid (.abort message)) c →
      .step proofUuid .removeStaged ∈ A.ops ∨ .step proofUuid .finalizeUnlessFailing ∈ A.ops)
    (h : Ahead last A proofUuid) : Ahead last A' proofUuid ∨ ∃ c, l = .run (.step proofUuid last) c := by
  cases l with
  | arrive task =>
    cases hstep
    refine .inl (h.imp_right (Or.imp (fun hop => ?_) fun hop => ?_))
    all_goals
      rw [TaskPool.ops_arrive]
      exact List.mem_append_right _ hop
  | run op c =>
    have hstate := (TaskPool.ops_run hstep).1
    obtain ⟨rest, htask, htask', -⟩ := TaskPool.tasks_run hstep
    have hkeep : ∀ x ∈ A.ops, x ≠ op → x ∈ A'.ops := by
      intro x hx hne
      refine (TaskPool.ops_step hx hstep).resolve_right ?_
      rintro ⟨choice, hl⟩
      exact hne (TaskPool.Label.run.inj hl).1.symm
    have hnext : ∀ x ∈ (op.exec config c A.state).next, x ∈ A'.ops := fun x => TaskPool.next_mem hstep
    have hrest : ∀ x ∈ rest, x ∈ A'.ops := fun x hx =>
      List.mem_flatten.mpr ⟨_, htask', List.mem_append_right _ hx⟩
    rcases h with ⟨ps, hproof, hlive⟩ | hunder | hunder
    · have happ := @live_app config proofUuid c ps A.state op hproof hlive
      rcases happ with hl | rfl | ⟨message, rfl⟩ | rfl | hfinal | rfl
      · exact .inl (.inl (hstate ▸ hl))
      · exact .inl (.inr (.inl (hrest _ ((htidy _ htask).1 last hlast))))
      · rcases hlast with rfl | rfl
        · exact .inl (.inr (.inl (hrest _ ((htidy _ htask).1 .removeProof rfl))))
        · exact .inl (.inr ((habort rfl message c rfl).imp (hkeep _ · (by simp)) (hkeep _ · (by simp))))
      · refine .inl (.inr (.inl (hnext _ ?_)))
        rcases hlast with rfl | rfl <;> simp [AppOp.exec, Op.exec, goOn]
      · exact .inl (.inr (.inr (hnext _ hfinal)))
      · simp [hevict c rfl ps hproof] at hlive
    · by_cases hop : op = .step proofUuid last
      · exact .inr ⟨c, by rw [hop]⟩
      · exact .inl (.inr (.inl (hkeep _ hunder (Ne.symm hop))))
    · by_cases hop : op = .step proofUuid .finalizeUnlessFailing
      · subst hop
        by_cases hfailing : (A.state.slices proofUuid).isFailing = true
        · -- the proof fails in the meantime, and its drain finalizes it
          refine .inl (.inl ?_)
          cases hproof : (A.state.slices proofUuid).proof with
          | none => simp [Manager.isFailing, hproof] at hfailing
          | some ps =>
            refine ⟨ps, ?_, isLive_of_failing (by simpa [Manager.isFailing, hproof] using hfailing)⟩
            rw [hstate]
            simpa [AppOp.exec, Op.exec, goOn] using hproof
        · refine .inl (.inr (.inl (hnext _ ?_)))
          rcases hlast with rfl | rfl <;> simp [AppOp.exec, Op.exec, goOn, hfailing, finalizeProof]
      · exact .inl (.inr (.inr (hkeep _ hunder (Ne.symm hop))))

private theorem tidied_of_no_step {task : List AppOp} (h : ∀ op ∈ task, ∀ u o, op ≠ .step u o) : Tidied task := by
  induction task with
  | nil => trivial
  | cons op task ih =>
    have hrest := ih fun op' hop' => h op' (List.mem_cons_of_mem _ hop')
    cases op with
    | step u o => exact absurd rfl (h _ List.mem_cons_self u o)
    | _ => exact hrest

private theorem tidied_arrival {task : List AppOp} (h : isArrival task = true) : Tidied task := by
  unfold isArrival at h
  split at h
  · trivial
  · trivial
  · exact ⟨fun _ hlast => hlast.elim, trivial⟩
  · exact ⟨fun _ hlast => hlast.elim, trivial⟩
  · trivial
  · simp at h

private theorem tidied_visits (now : Time) (candidates : List String) :
    Tidied (candidates.flatMap fun u => (watchdogTask now).map (.step u)) := by
  induction candidates with
  | nil => trivial
  | cons u candidates ih => exact tidied_append (tidied_steps (by simp [watchdogTask, Op.kind])) ih

private theorem tidied_app (appOp : AppOp) : Tidied (appOp.exec config c d).next ∧
    ∀ task ∈ (appOp.exec config c d).spawned, Tidied task := by
  cases appOp with
  | step u op =>
    by_cases hevict : op = .evict
    · subst hevict
      exact ⟨trivial, by simp [AppOp.exec, proceed]⟩
    · rw [exec_step hevict]
      refine ⟨tidied_exec, fun task htask => ?_⟩
      obtain ⟨ops, hops, rfl⟩ := List.mem_map.mp htask
      exact tidied_spawned hops
  | watchdog =>
    exact ⟨tidied_append (tidied_visits _ _) trivial, by simp [AppOp.exec, proceed]⟩
  | initProof req =>
    exact ⟨⟨fun _ hlast => hlast.elim, trivial⟩, by simp [AppOp.exec, proceed]⟩
  | startProof req | checkBusy req | checkDuplicate req =>
    simp only [AppOp.exec]
    split <;> exact ⟨trivial, by simp [proceed]⟩
  | insertProof req => exact ⟨trivial, by simp [AppOp.exec, proceed]⟩
  | evictPass now remaining found | sweepPass now remaining found =>
    cases remaining with
    | nil => exact ⟨tidied_of_no_step (by simp [AppOp.exec, proceed]), by simp [AppOp.exec, proceed]⟩
    | cons u remaining => exact ⟨trivial, by simp [AppOp.exec, proceed]⟩
  | stage u staged | evictRemove u | sweep now | sweepRemove u => exact ⟨trivial, by simp [AppOp.exec, proceed]⟩

theorem tidied_step (harrive : ∀ task, l = .arrive task → isArrival task = true) (hstep : AppStep config A l A')
    (h : ∀ task ∈ A.tasks, Tidied task) : ∀ task ∈ A'.tasks, Tidied task := by
  intro task htask
  cases l with
  | arrive new =>
    cases hstep
    rcases List.mem_cons.mp htask with rfl | htask
    · exact tidied_arrival (harrive task rfl)
    · exact h task htask
  | run op c =>
    obtain ⟨rest, hmem, -, hall⟩ := TaskPool.tasks_run hstep
    obtain ⟨hnext, hspawned⟩ := @tidied_app config c A.state op
    have hrest : Tidied rest := by
      have hop := h _ hmem
      cases op with
      | step u o => exact hop.2
      | _ => exact hop
    rcases hall task htask with rfl | hs | hold
    · exact tidied_append hnext hrest
    · exact hspawned task hs
    · exact h task hold

/-- Only `init_proof` makes a scheduler entry. -/
theorem scheduler_app {appOp : AppOp} (h : ((appOp.exec config c d).state.slices proofUuid).scheduler.isSome = true) :
    (d.slices proofUuid).scheduler.isSome = true ∨
      ∃ req : ProofRequest, appOp = .initProof req ∧ req.context.proofUuid = proofUuid := by
  have hput : ∀ (v : String) (m : Manager), (m.scheduler.isSome = true → (d.slices v).scheduler.isSome = true) →
      ((d.put v m).slices proofUuid).scheduler.isSome = true → (d.slices proofUuid).scheduler.isSome = true := by
    intro v m hm hsome
    by_cases hv : proofUuid = v
    · subst hv
      exact hm (by simpa using hsome)
    · simpa [Function.update_of_ne hv] using hsome
  cases appOp with
  | step v op =>
    by_cases hevict : op = .evict
    · subst hevict
      exact .inl h
    · rw [exec_step hevict] at h
      refine .inl (hput v _ (fun hsome => ?_) h)
      by_contra hnone
      rw [scheduler_of_none (by simpa using hnone)] at hsome
      simp at hsome
  | initProof req =>
    by_cases hv : req.context.proofUuid = proofUuid
    · exact .inr ⟨req, rfl, hv⟩
    · exact .inl (by simpa [AppOp.exec, proceed, Function.update_of_ne (Ne.symm hv)] using h)
  | startProof req | checkBusy req | checkDuplicate req =>
    simp only [AppOp.exec] at h
    split at h <;> exact .inl h
  | insertProof req =>
    refine .inl (hput req.context.proofUuid _ ?_ h)
    exact fun hsome => hsome
  | evictPass now remaining found | sweepPass now remaining found => cases remaining <;> exact .inl h
  | stage v staged | evictRemove v | sweepRemove v =>
    refine .inl (hput v _ ?_ h)
    exact fun hsome => hsome
  | watchdog | sweep now => exact .inl h

/-- Where the entry of a proof comes from: a step wrote it, or `start_proof` inserted it. -/
theorem proof_app {appOp : AppOp} (h : ((appOp.exec config c d).state.slices proofUuid).proof = some ps') :
    (∃ ps, (d.slices proofUuid).proof = some ps ∧
      (ps' = ps ∨ ∃ op, appOp = .step proofUuid op ∧ op.writeProof proofUuid c ps = some ps')) ∨
    ∃ req : ProofRequest, appOp = .insertProof req ∧ req.context.proofUuid = proofUuid ∧
      ps' = req.proofState config c.now := by
  have hput : ∀ (u : String) (m : Manager), (∀ qs, m.proof = some qs → (d.slices u).proof = some qs) →
      ((d.put u m).slices proofUuid).proof = some ps' → (d.slices proofUuid).proof = some ps' := by
    intro u m hm hsome
    by_cases hu : proofUuid = u
    · subst hu
      exact hm ps' (by simpa using hsome)
    · simpa [Function.update_of_ne hu] using hsome
  have hkeep : (d.slices proofUuid).proof = some ps' → ∃ ps, (d.slices proofUuid).proof = some ps ∧
      (ps' = ps ∨ ∃ op, appOp = .step proofUuid op ∧ op.writeProof proofUuid c ps = some ps') :=
    fun hold => ⟨ps', hold, .inl rfl⟩
  cases appOp with
  | step u op =>
    by_cases hevict : op = .evict
    · subst hevict
      exact .inl (hkeep h)
    · rw [exec_step hevict] at h
      by_cases hu : proofUuid = u
      · subst hu
        simp only [AppState.put_slices, Function.update_self, exec_proof] at h
        obtain ⟨ps, hps, hwrite⟩ := Option.bind_eq_some_iff.mp h
        exact .inl ⟨ps, hps, .inr ⟨op, rfl, hwrite⟩⟩
      · exact .inl (hkeep (by simpa [Function.update_of_ne hu] using h))
  | startProof req | checkBusy req | checkDuplicate req =>
    simp only [AppOp.exec] at h
    split at h <;> exact .inl (hkeep h)
  | insertProof req =>
    by_cases hu : proofUuid = req.context.proofUuid
    · refine .inr ⟨req, rfl, hu.symm, ?_⟩
      rw [hu] at h
      simpa [AppOp.exec, proceed] using h.symm
    · exact .inl (hkeep (by simpa [AppOp.exec, proceed, Function.update_of_ne hu] using h))
  | stage u staged | initProof req | sweepRemove u =>
    refine .inl (hkeep (hput _ _ ?_ h))
    exact fun _ hqs => hqs
  | evictRemove u =>
    refine .inl (hkeep (hput u _ ?_ h))
    exact fun _ hqs => by simp at hqs
  | evictPass now remaining found | sweepPass now remaining found => cases remaining <;> exact .inl (hkeep h)
  | watchdog | sweep now => exact .inl (hkeep h)

end

def sampleConfig : ManagerConfig := ⟨⟨1⟩, .default, ⟨1, 1, 1⟩, .default⟩

/-- A request of a proof on one worker that has its input already. -/
def sampleRequest (proofUuid : String) (valid : validateManagerProofUuid proofUuid = .ok ()) (timeoutSecs : Nat) :
    ProofRequest :=
  ⟨{ sampleContext .stark with proofUuid := proofUuid }, valid, some timeoutSecs, none, true,
    [(0, ⟨"http://worker-0", 0, .full⟩)]⟩

theorem valid_sample : validateManagerProofUuid "proof" = .ok () := rfl

theorem valid_canceled : validateManagerProofUuid "canceled" = .ok () := rfl

/-- The task arrives and does its first `steps` steps at `now`. -/
def appMoves (now : Time) (task : List AppOp) (steps : Nat) : List (TaskPool.Move Choice AppOp) :=
  .arrive task :: List.replicate steps (.run 0 { sampleChoice with now := now })

def resultMoves (now : Time) (result : ProofResult) (steps : Nat) : List (TaskPool.Move Choice AppOp) :=
  appMoves now [.step "proof" (.process 0 ⟨0, "", result⟩)] steps

def appArrivals (_ : App) : AppLabel → Bool
  | .arrive task => isArrival task
  | .run _ _ => true

theorem appArrivals_of_bool (A : App) (l : AppLabel) (h : appArrivals A l = true) : AppArrivals A l := by
  cases l with
  | arrive task => exact h
  | run op c => trivial

end EdgeProver
