import EdgeProver.Manager.Completion
import EdgeProver.Tree.EndToEnd

/-! The composed manager over workers that prove: what it publishes at the end of a run is what one machine makes of the
program. -/
namespace EdgeProver

def Report.request : Report → Option GeneralProveRequest
  | .item work => some work.request
  | _ => none

section
variable {σ P A U M R E : Type} (stack : ProvingStack σ P A U M R E)

/-- The steps go well, and workers report what they owe of what they make for this proof. -/
def Manned (job : ShardedAppProverJob) (run : MeteredRun σ) (p : TreeParams) (numWorkers : Nat) (T : Tracked) :
    DutyLabel → Prop
  | .report workerId envelope report => T.duties.Owes numWorkers run.segments.length workerId envelope.message report ∧
      envelope.message.context.proofUuid = p.context.proofUuid ∧ Made stack job run report.request envelope.message
  | l => Smooth p numWorkers run.segments.length T l

variable {stack} [Inhabited P] {job : ShardedAppProverJob} {run : MeteredRun σ} {stateAt : Nat → σ} {p : TreeParams}
  {fleet : List (Nat × RegisteredWorker)} {leafPackThreshold maxLeafProvers : Nat} {staged : Option StagedInputs}
  {J : Journal}

theorem Sourced.succeeds {emitted : List GeneralProveRequest} {r : ProofResult}
    (h : Sourced stack job run stateAt emitted r) (e : ErrorResult) : r ≠ .error e := by
  rintro rfl
  obtain ⟨⟨req, -, faults, net, task, htask, hr⟩, -⟩ := h
  have hans := answers_of_task stack.roundTrips htask hr
  cases req <;> exact hans.elim

theorem Sourced.proof {emitted : List GeneralProveRequest} {a : AppProof}
    (h : Sourced stack job run stateAt emitted (.app a)) : a.state.proof.isSome = true := by
  obtain ⟨⟨-, bytes, hstate, -⟩, -⟩ := h
  rw [hstate]
  rfl

private theorem Duties.Owes.recursion {D : Duties} {numWorkers n workerId : Nat} {result : ProofResult}
    {report : Report}
    (h : D.Owes numWorkers n workerId result report) (hr : result.isRecursion = true) :
    ∃ item, report = .item item ∧ (workerId, item) ∈ D.items := by
  cases report with
  | executeE2 =>
    obtain ⟨-, r, rfl, -⟩ := h
    simp [ProofResult.isRecursion] at hr
  | segment segment =>
    obtain ⟨-, -, -, -, r, rfl, -⟩ := h
    simp [ProofResult.isRecursion] at hr
  | shard =>
    obtain ⟨-, -, r, rfl⟩ := h
    simp [ProofResult.isRecursion] at hr
  | item item => exact ⟨item, rfl, h.1⟩

private theorem wellRun_manned (htrajectory : Trajectory run stack.segment.executeFromState stateAt)
    (hids : (fleet.map Prod.fst).Nodup) (hne : appEligibleWorkers fleet ≠ [])
    (ha : Arities p.leafArity p.internalArity) (hn : 0 < run.segments.length) :
    WellRun (Sourced stack job run stateAt) p fleet leafPackThreshold maxLeafProvers run.segments.length
      (Manned stack job run p (appEligibleWorkers fleet).length) where
  mono := Sourced.mono
  requests := fun _ _ => id
  runs := fun _ _ _ => id
  owes := fun _ _ _ _ hallowed => hallowed.1
  reports := by
    intro J s L handled accounted workerId envelope report h hallowed
    obtain ⟨howes, hcontext, hmade⟩ := hallowed
    have hkept := (h.underway.settled hids hne).kept
    have hheld {item : EdgeWorkItem} (hitem : (workerId, item) ∈ J.tracked.duties.items) :
      (workerId, item) ∈ L.held := by
      rw [h.underway.followed.items.held.mem_iff]
      simp [hitem]
    have hsourced : Sourced stack job run stateAt s.emitted envelope.message := by
      refine hmade.sourced htrajectory fun q hq => ?_
      cases report with
      | item item =>
        obtain rfl := Option.some.inj hq
        rw [h.underway.followed.items.emitted.mem_iff]
        refine List.mem_append_left _ (List.mem_map_of_mem (hkept.partition.mem_iff.mpr ?_))
        have hmem := List.mem_map_of_mem (f := Prod.snd) (hheld howes.1)
        exact List.mem_append_right _ (List.mem_append_right _ (List.mem_append_left _ hmem))
      | executeE2 | segment | shard => simp [Report.request] at hq
    obtain ⟨m, hd⟩ := disciplined_of_run ha hn h.underway.tree h.underway.accepted h.first
    have haccepted : Accepted p run.segments.length [envelope.message] := by
      refine hd.accepts stack.roundTrips hsourced.1 fun hr => hd.tracks.executeE2.mp ?_
      obtain ⟨item, -, hitem⟩ := howes.recursion hr
      exact h.underway.learned_of_held h.heard hkept (List.ne_nil_of_mem (hheld hitem))
    refine ⟨⟨howes, ⟨hcontext, haccepted, hsourced.succeeds, fun a ha' => (ha' ▸ hsourced).proof⟩, ?_⟩, hsourced⟩
    rintro item rfl
    generalize envelope.message = r at hmade
    cases hmade with
    | task q faults net task _ htask hr => exact answers_of_task stack.roundTrips htask hr

end

/-- What is published at the end of a run of the manager with workers that prove. -/
structure PublishesPlain {σ P A U M R E : Type} [Inhabited P] (stack : ProvingStack σ P A U M R E)
    (job : ShardedAppProverJob) (run : MeteredRun σ) (stateAt : Nat → σ) (p : TreeParams) (m : Manager) (s : TreeState)
    (now : Time) (apps : Nat → ProvedSegment P U) : Prop where
  tree : HonestRun p run.segments.length s
  proof : m.proof = some (s.ps.finalize now (.ok ()))
  status : (s.ps.finalize now (.ok ())).status = .completed
  segments : ∀ c < run.segments.length, stack.plainApp job.alone run stateAt c = .ok (apps c)
  internal : ∃ st final merkle, s.ps.finalInternalState = some st ∧
    StoresPlain stack.sdk apps p run.segments.length st final merkle
  evm : p.context.proofType = .evm → ∃ e bytes evm, s.ps.evmProof = some e ∧ e.proof = some bytes ∧
    stack.sdk.encodeEvmProof evm = .ok bytes ∧ stack.sdk.plainEvm p run.segments.length apps = .ok evm

/-- The whole system. Within the word no handler faults in a run of the manager with workers that prove; and where it
comes to rest, the proof is Completed and the workers are free, and what is published is what one machine makes that
runs the program, proves each segment from the state at its start and folds the proofs level by level: however the
handlers, the dispatches, the workers' jobs and their reports interleave. -/
theorem manned_completes {σ P A U M R E : Type} [Inhabited P] {stack : ProvingStack σ P A U M R E}
    {job : ShardedAppProverJob} {run : MeteredRun σ} {stateAt : Nat → σ} {p : TreeParams}
    {fleet : List (Nat × RegisteredWorker)} {leafPackThreshold maxLeafProvers : Nat} {staged : Option StagedInputs}
    {J : Journal} (htrajectory : Trajectory run stack.segment.executeFromState stateAt)
    (hids : (fleet.map Prod.fst).Nodup) (hne : appEligibleWorkers fleet ≠ [])
    (hrange : ∀ id ∈ appEligibleWorkers fleet, id < (appEligibleWorkers fleet).length)
    (hevm : p.context.proofType = .evm → ∃ entry ∈ fleet, entry.2.workerRole.runsEvmProve = true)
    (ha : Arities p.leafArity p.internalArity) (hn : 0 < run.segments.length) (hw : p.WithinWord run.segments.length)
    (hrun : JournalRun p.context.proofUuid (Manned stack job run p (appEligibleWorkers fleet).length)
      (.kickedOff p fleet leafPackThreshold maxLeafProvers staged) J) :
    (∀ op ∈ J.tracked.world.ops, op.Faultless J.tracked.world.state) ∧
      ((∀ K, ¬ JournalStep p.context.proofUuid (Smooth p (appEligibleWorkers fleet).length run.segments.length) J K) →
        J.tracked.world.state.scheduler = none ∧
          ∃ s now apps, PublishesPlain stack job run stateAt p J.tracked.world.state s now apps) := by
  have hwell : WellRun (Sourced stack job run stateAt) p fleet leafPackThreshold maxLeafProvers run.segments.length
      (Manned stack job run p (appEligibleWorkers fleet).length) := wellRun_manned htrajectory hids hne ha hn
  refine ⟨faultless_of_wellRun hids hne ha hn hw hwell hrun, fun hstuck => ?_⟩
  obtain ⟨hscheduler, s, now, h, hproof, hstatus⟩ := completed_of_stuck hids hne hrange hevm ha hn hwell hrun hstuck
  obtain ⟨apps, happs, hinternal, hevm⟩ := plain_of_sourced ha hn h.tree h.accepted h.delivered h.first h.artifact.2
  exact ⟨hscheduler, s, now, apps, h.tree, hproof, hstatus, happs, hinternal, hevm⟩

def provingWorker : SampleWorker where
  early := 0
  executeE2 := sampleExecuteE2
  app segment := sampleSegmentResult segment (if segment = 0 then [0, 8] else [1, 5, 9])
  answer req :=
    match RecursionSdk.sample.recursionTask .none (fun _ => .ok ()) req with
    | .ok task => task.produced.headD sampleExecuteE2
    | .error _ => sampleExecuteE2

def reportsMade (T : Tracked) : DutyLabel → Bool
  | .report workerId envelope report =>
    T.duties.owes 1 2 workerId envelope.message report && envelope.message.context.proofUuid == "proof" &&
      match report with
      | .executeE2 => decide (envelope.message = sampleExecuteE2)
      | .segment _ => decide (envelope.message ∈ [sampleSegmentResult 0 [0, 8], sampleSegmentResult 1 [1, 5, 9]])
      | .item item =>
        match RecursionSdk.sample.recursionTask .none (fun _ => .ok ()) item.request with
        | .ok task => decide (envelope.message ∈ task.produced)
        | .error _ => false
      | .shard => false
  | l => goesWell (sampleParams .evm) 1 2 T l

private theorem manned_of_reportsMade (T : Tracked) (l : DutyLabel) (h : reportsMade T l = true) :
    Manned countingStack twoSegmentJob.job twoSegments (sampleParams .evm) 1 T l := by
  cases l with
  | request task => simp [reportsMade, goesWell] at h
  | run op c =>
    have hsmooth : Smooth (sampleParams .evm) 1 2 T (.run op c) := smooth_of_goesWell T (.run op c) h
    cases op <;> exact hsmooth
  | report workerId envelope report =>
    simp only [reportsMade, Bool.and_eq_true, beq_iff_eq] at h
    obtain ⟨⟨howes, hcontext⟩, hmade⟩ := h
    refine ⟨Duties.owes_of_bool howes, hcontext, ?_⟩
    generalize envelope.message = r at hmade
    cases report with
    | executeE2 =>
      obtain rfl := of_decide_eq_true hmade
      exact made_twoSegments.2.1
    | segment segment =>
      have hmem := of_decide_eq_true hmade
      simp only [List.mem_cons, List.not_mem_nil, or_false] at hmem
      obtain rfl | rfl := hmem
      · exact made_twoSegments.1
      · exact made_twoSegments.2.2
    | item item =>
      dsimp only at hmade
      split at hmade
      · rename_i task htask
        exact .task _ _ _ task r htask (of_decide_eq_true hmade)
      · simp at hmade
    | shard => simp at hmade

/-- After 55 steps the EVM proof of both segments is published. -/
theorem manned_completes_sample : ∃ (J : Journal) (s : TreeState) (ps : ProofState),
    J.tracked.world.state.scheduler = none ∧ J.tracked.world.state.proof = some ps ∧ ps.status = .completed ∧
      ∃ apps e bytes evm, s.ps.evmProof = some e ∧ e.proof = some bytes ∧
        RecursionSdk.sample.encodeEvmProof evm = .ok bytes ∧
        RecursionSdk.sample.plainEvm (sampleParams .evm) 2 apps = .ok evm := by
  have hplay : ((⟨.kickedOff (sampleParams .evm) sampleFleet 4 1 none, [], []⟩ : Journal).play "proof" reportsMade
      (provingWorker.schedule (.kickedOff (sampleParams .evm) sampleFleet 4 1 none) 55)).any (fun J =>
        J.tracked.world.ops.isEmpty && J.tracked.duties.executed && J.tracked.duties.items.isEmpty &&
          decide ((0, 0) ∈ J.tracked.duties.segments ∧ (0, 1) ∈ J.tracked.duties.segments)) = true := by decide +kernel
  obtain ⟨J, hJ, hdone⟩ := (Option.any_eq_true _ _).mp hplay
  simp only [Bool.and_eq_true, List.isEmpty_iff, decide_eq_true_eq] at hdone
  obtain ⟨⟨⟨hops, hexecuted⟩, hitems⟩, hfirst, hsecond⟩ := hdone
  have hsegments : ∀ id, ∀ segment ∈ shard id 1 2, (id, segment) ∈ J.tracked.duties.segments := by
    intro id segment hmem
    obtain ⟨hlt, hid⟩ := mem_shard.mp hmem
    obtain rfl : id = 0 := hid.symm.trans (Nat.mod_one segment)
    obtain rfl | rfl : segment = 0 ∨ segment = 1 := by omega
    · exact hfirst
    · exact hsecond
  have hworkers : (appEligibleWorkers sampleFleet).length = 1 := rfl
  have hn : twoSegments.segments.length = 2 := rfl
  have hrun : JournalRun "proof" (Manned countingStack twoSegmentJob.job twoSegments (sampleParams .evm)
      (appEligibleWorkers sampleFleet).length) (.kickedOff (sampleParams .evm) sampleFleet 4 1 none) J := by
    rw [hworkers]
    exact journalRun_of_play manned_of_reportsMade .start hJ
  have hstuck : ∀ K, ¬ JournalStep "proof" (Smooth (sampleParams .evm) (appEligibleWorkers sampleFleet).length
      twoSegments.segments.length) J K := by
    rw [hworkers, hn]
    exact stuck_of_done hops hexecuted hsegments hitems
  have hfleet : (sampleParams .evm).context.proofType = .evm →
      ∃ entry ∈ sampleFleet, entry.2.workerRole.runsEvmProve = true := fun _ => ⟨_, List.mem_cons_self, rfl⟩
  have harities : Arities (sampleParams .evm).leafArity (sampleParams .evm).internalArity := ⟨by decide, by decide⟩
  have hw : (sampleParams .evm).WithinWord twoSegments.segments.length := ⟨by decide, by decide⟩
  obtain ⟨-, hrest⟩ := manned_completes trajectory_twoSegments (by decide) (by decide) (by decide) hfleet harities
    (hn ▸ Nat.two_pos) hw hrun
  obtain ⟨hscheduler, s, now, apps, hplain⟩ := hrest hstuck
  exact ⟨J, s, _, hscheduler, hplain.proof, hplain.status, apps, hplain.evm rfl⟩

end EdgeProver
