import EdgeProver.Worker.JobAccounting
import EdgeProver.Worker.Provers

/-! A sharded job against one machine that runs the program by itself and proves each segment from the state at its
start. -/
namespace EdgeProver
open Replace Outcome

/-- `stateAt i` is the state of the program after `i` instructions: the metered execution is suspended on this path, and
the interpreter follows it up to the start of any segment. -/
structure Trajectory {σ : Type} (run : MeteredRun σ) (executeFromState : σ → Nat → Except String σ)
    (stateAt : Nat → σ) : Prop where
  initial : stateAt 0 = run.initial
  suspended : ∀ k, k + 1 < run.segments.length → run.vmStates k = stateAt (run.instrets k)
  replayed : ∀ (i k : Nat) (segment : Segment), segment ∈ run.segments → i + k = segment.instretStart → 0 < k →
    executeFromState (stateAt i) k = .ok (stateAt segment.instretStart)

/-- The job, were there no other prover. -/
def ShardedAppProverJob.alone (job : ShardedAppProverJob) : ShardedAppProverJob :=
  { job with numProvers := 1, proverId := 0, maxAppProvers := 1, resultTx := .none }

/-- Segment `c` on one machine, from the state at its start. -/
def plainSegment {σ P M : Type} (job : ShardedAppProverJob) (tools : SegmentTools σ P M) (run : MeteredRun σ)
    (stateAt : Nat → σ) (c : Nat) : Except SegmentFailure AppProofState :=
  match run.segments[c]? with
  | none => .error (.starkProve "no such segment")
  | some segment =>
    proveSegment job tools
      ⟨⟨stateAt segment.instretStart, segment.instretStart⟩, segment, c, run.isTerminal c⟩

section
variable {σ : Type} {run : MeteredRun σ} {executeFromState : σ → Nat → Except String σ} {stateAt : Nat → σ}

theorem Trajectory.startingIn (h : Trajectory run executeFromState stateAt) {k : Nat} (hk : k < run.segments.length) :
    (run.startingIn k).vmState = stateAt (run.startingIn k).instret := by
  cases k with
  | zero => exact h.initial.symm
  | succ k => exact h.suspended k hk

/-- The fast-forward from the snapshot of the schedule ends at the start of the segment. -/
theorem Trajectory.fastForward_ok {P M : Type} {tools : SegmentTools σ P M}
    (h : Trajectory run tools.executeFromState stateAt)
    {c : Nat} {data : ProveData σ} (hdata : Executor.Scheduled run c data) :
    fastForward tools data = .ok (stateAt data.segment.instretStart) := by
  have hc := (List.getElem?_eq_some_iff.mp hdata.segment).1
  have hvm := h.startingIn (Nat.lt_of_le_of_lt (Nat.sub_le c 1) hc)
  rw [← hdata.snapshot] at hvm
  have hforward := hdata.shortReplay.forward
  rw [fastForward, hvm]
  split
  · next hpos =>
    rw [h.replayed _ _ data.segment (List.mem_of_getElem? hdata.segment) (Nat.add_sub_cancel' hforward) hpos]
    rfl
  · next hnone => rw [show data.snapshot.instret = data.segment.instretStart by omega]

end

namespace Executor
variable {σ : Type} {job : ShardedAppProverJob} {run : MeteredRun σ}

/-- An executor of the shard gets to this point. -/
def Reaches (loop : ExecutorLoop) (job : ShardedAppProverJob) (run : MeteredRun σ)
    (encodeSegments : List Segment → Except String (List Bytes)) (executor : Executor σ) : Prop :=
  Relation.ReflTransGen (ExecutorStep loop job run.metered encodeSegments) (start job run.initial) executor

/-- An executor of the shard sends this, in either copy of the loop. -/
def Sends (job : ShardedAppProverJob) (run : MeteredRun σ) (encodeSegments : List Segment → Except String (List Bytes))
    (data : ProveData σ) : Prop :=
  ∃ loop calls snapshots execState, Reaches loop job run encodeSegments (.sending calls snapshots execState data)

variable {encodeSegments : List Segment → Except String (List Bytes)}

theorem Reaches.onSchedule {loop : ExecutorLoop} (hid : job.proverId < job.numProvers) {executor : Executor σ}
    (h : Reaches loop job run encodeSegments executor) : OnSchedule job run executor := by
  induction h with
  | refl => exact onSchedule_start hid
  | tail _ hstep ih => exact ih.step hid hstep

private theorem endRound_ne_sending {c calls : Nat} {kept snapshots : List (VmSnapshot σ)}
    {last execState : ExecState σ}
    {shouldBreak : Bool} {data : ProveData σ} :
    endRound job c kept last shouldBreak ≠ .sending calls snapshots execState data := by
  intro h
  unfold endRound at h
  split at h
  · cases h
  · split at h <;> cases h

private theorem report_ne_sending {segments : List Segment} {calls : Nat} {snapshots : List (VmSnapshot σ)}
    {execState : ExecState σ} {data : ProveData σ} :
    (report job encodeSegments segments).1 ≠ .sending calls snapshots execState data := by
  intro h
  unfold report at h
  split at h
  · split at h <;> cases h
  · cases h

/-- A segment goes out as terminal when its suspend carries the exit code. -/
theorem isFinal_of_resume {metered : Metered σ} {calls calls' : Nat} {snapshots snapshots' : List (VmSnapshot σ)}
    {execState : ExecState σ} {data : ProveData σ}
    (h : resume job metered calls snapshots = .sending calls' snapshots' execState data) :
    metered calls = .ok execState ∧ ∃ exitCode, execState.exitCode = .ok exitCode ∧ data.isFinal = exitCode.isSome := by
  unfold resume at h
  cases hmetered : metered calls with
  | error e =>
    rw [hmetered] at h
    cases h
  | ok suspended =>
    rw [hmetered] at h
    cases hexit : suspended.exitCode with
    | error e =>
      simp only [hexit] at h
      cases h
    | ok exitCode =>
      simp only [hexit] at h
      split at h
      · cases h
      · cases h
      · next code hcode hok =>
        cases hok
        split at h
        · split at h
          · cases h
          · split at h
            · cases h
            · cases h
              exact ⟨rfl, _, hexit, rfl⟩
        · exact absurd h endRound_ne_sending

private theorem isSome_exitCode {c : Nat} {exitCode : Option Nat} (h : (run.execState c).exitCode = .ok exitCode) :
    exitCode.isSome = run.isTerminal c := by
  unfold MeteredRun.execState at h
  unfold MeteredRun.isTerminal
  dsimp only at h
  split at h
  · next hlast =>
    rw [beq_iff_eq.mpr hlast, Bool.true_and]
    cases hending : run.ending with
    | exits code =>
      rw [hending] at h
      rw [← Except.ok.inj h]
      rfl
    | traps report =>
      rw [hending] at h
      cases h
    | fails report =>
      rw [hending] at h
      rw [← Except.ok.inj h]
      rfl
  · next hmore =>
    rw [← Except.ok.inj h, beq_eq_false_iff_ne.mpr hmore]
    rfl

/-- What is sent is on schedule, and marked as terminal where the program exits and nowhere else. -/
theorem Sends.scheduled (hid : job.proverId < job.numProvers) {data : ProveData σ}
    (h : Sends job run encodeSegments data) :
    Scheduled run data.segmentIdx data ∧ data.isFinal = run.isTerminal data.segmentIdx := by
  obtain ⟨loop, calls, snapshots, execState, hreaches⟩ := h
  obtain ⟨hc, -, -, rfl, hdata⟩ := hreaches.onSchedule hid
  have hidx := hdata.segmentIdx
  refine ⟨by rw [hidx]; exact hdata, ?_⟩
  rcases Relation.ReflTransGen.cases_tail hreaches with hstart | ⟨before, -, hstep⟩
  · cases hstart
  · generalize hafter : Executor.sending calls snapshots (run.execState calls) data = after at hstep
    cases hstep with
    | resume calls' snapshots' =>
      obtain ⟨-, exitCode, hexit, hfinal⟩ := isFinal_of_resume hafter.symm
      rw [hfinal, hidx]
      exact isSome_exitCode hexit
    | sent => exact absurd hafter.symm endRound_ne_sending
    | disconnected => cases hafter
    | report => exact absurd hafter.symm report_ne_sending

end Executor

/-- A segment on schedule comes out as on one machine, from the state at its start. -/
theorem Trajectory.proveSegment_eq {σ P M : Type} {job : ShardedAppProverJob} {tools : SegmentTools σ P M}
    {run : MeteredRun σ} {stateAt : Nat → σ} (h : Trajectory run tools.executeFromState stateAt) {data : ProveData σ}
    (hscheduled : Executor.Scheduled run data.segmentIdx data)
    (hfinal : data.isFinal = run.isTerminal data.segmentIdx) :
    proveSegment job tools data = plainSegment job.alone tools run stateAt data.segmentIdx := by
  have hplain : fastForward tools
      ⟨⟨stateAt data.segment.instretStart, data.segment.instretStart⟩, data.segment, data.segmentIdx, data.isFinal⟩ =
      .ok (stateAt data.segment.instretStart) := by
    rw [fastForward]
    dsimp only
    rw [Nat.sub_self, if_neg (Nat.lt_irrefl 0)]
  rw [plainSegment, hscheduled.segment, ← hfinal]
  dsimp only
  rw [proveSegment, proveSegment, h.fastForward_ok hscheduled, hplain]
  rfl

/-- A sent segment does so whichever prover of however many it is sent by. -/
theorem proveSegment_eq_plain {σ P M : Type} {job : ShardedAppProverJob} {tools : SegmentTools σ P M}
    {run : MeteredRun σ}
    {stateAt : Nat → σ} {encodeSegments : List Segment → Except String (List Bytes)}
    (hid : job.proverId < job.numProvers) (htrajectory : Trajectory run tools.executeFromState stateAt)
    {data : ProveData σ} (hsends : Executor.Sends job run encodeSegments data) :
    proveSegment job tools data = plainSegment job.alone tools run stateAt data.segmentIdx := by
  obtain ⟨hscheduled, hfinal⟩ := hsends.scheduled hid
  exact htrajectory.proveSegment_eq hscheduled hfinal

namespace ParallelState
variable {σ : Type} (s : ParallelState σ)

def inHands : List (ProveData σ) := s.channel ++ s.coordinator.held ++ s.consumers.flatMap Consumer.held

def made : List ProofResult :=
  s.streamed ++ s.coordinator.results ++ s.consumers.flatMap Consumer.results ++
    match s.outcome with
    | some (.ok (.success results)) => results
    | _ => []

end ParallelState

namespace ParallelJob
variable {σ P M : Type} {J : ParallelJob σ} {tools : SegmentTools σ P M} {s s' : ParallelState σ}

/-- A step of a run whose proofs are all made with these tools: any other step leaves no App result that was not
there. -/
inductive StepWith (J : ParallelJob σ) (tools : SegmentTools σ P M) (s : ParallelState σ) : ParallelState σ → Prop
  | prove {data : ProveData σ} {results : List ProofResult} (h : s.coordinator = .proving (some data) results) :
      StepWith J tools s (J.coordinatorProved s tools data results)
  | consumerProve {data : ProveData σ} {results : List ProofResult} {consumers : List (Consumer σ)}
      (h : Replaces s.consumers consumers (.proving (some data) results) (J.consumerProved tools data results).1) :
      StepWith J tools s { s with
        consumers := consumers, streamed := s.streamed ++ (J.consumerProved tools data results).2 }
  | other {s' : ParallelState σ} (h : J.Step s s') (hmade : ∀ r, .app r ∈ s'.made → .app r ∈ s.made) :
      StepWith J tools s s'

theorem StepWith.step (h : J.StepWith tools s s') : J.Step s s' := by
  cases h with
  | prove h => exact .inl (.prove h tools)
  | consumerProve h => exact .inl (.consumerProve tools h)
  | other h => exact h

theorem mem_made {r : ProofResult} : r ∈ s.made ↔ r ∈ s.streamed ∨ r ∈ s.coordinator.results ∨
    (∃ consumer ∈ s.consumers, r ∈ consumer.results) ∨ ∃ results, s.outcome = some (.ok (.success results)) ∧
    r ∈ results := by
  have houtcome : (r ∈ match s.outcome with
      | some (.ok (.success results)) => results
      | _ => []) ↔ ∃ results, s.outcome = some (.ok (.success results)) ∧ r ∈ results := by
    constructor
    · intro h
      split at h
      · next results hsuccess => exact ⟨results, hsuccess, h⟩
      · cases h
    · rintro ⟨results, hsuccess, h⟩
      rw [hsuccess]
      exact h
  rw [ParallelState.made, List.mem_append, List.mem_append, List.mem_append, List.mem_flatMap, houtcome]
  simp only [or_assoc]

private theorem mem_inHands {data : ProveData σ} : data ∈ s.inHands ↔ data ∈ s.channel ∨ data ∈ s.coordinator.held ∨
    ∃ consumer ∈ s.consumers, data ∈ consumer.held := by
  rw [ParallelState.inHands, List.mem_append, List.mem_append, List.mem_flatMap, or_assoc]

private theorem inHands_mono {data : ProveData σ} (hdata : data ∈ s'.inHands) (hchannel : s'.channel ⊆ s.channel)
    (hcoordinator : s'.coordinator.held ⊆ s.coordinator.held)
    (hconsumers : s'.consumers.flatMap Consumer.held ⊆ s.consumers.flatMap Consumer.held) : data ∈ s.inHands := by
  simp only [ParallelState.inHands, List.mem_append] at hdata ⊢
  exact hdata.imp (Or.imp (hchannel ·) (hcoordinator ·)) (hconsumers ·)

private theorem made_mono {r : ProofResult} (hr : r ∈ s'.made) (hstreamed : s'.streamed ⊆ s.streamed)
    (hcoordinator : s'.coordinator.results ⊆ s.coordinator.results)
    (hconsumers : s'.consumers.flatMap Consumer.results ⊆ s.consumers.flatMap Consumer.results)
    (houtcome : s'.outcome = s.outcome) : r ∈ s.made := by
  simp only [ParallelState.made, List.mem_append] at hr ⊢
  rw [houtcome] at hr
  exact hr.imp_left (Or.imp (Or.imp (hstreamed ·) (hcoordinator ·)) (hconsumers ·))

private theorem inHands_step (h : J.Step s s') {data : ProveData σ} (hdata : data ∈ s'.inHands) : data ∈ s.inHands ∨
    ∃ calls snapshots execState, s.executor = some (.sending calls snapshots execState data) := by
  rcases h with hwork | hfault
  · cases hwork with
    | start setup h =>
      left
      rcases @afterSetup_cases σ J s setup with ⟨e, hset⟩ | ⟨-, hset⟩
      · rw [hset] at hdata
        exact inHands_mono hdata (List.Subset.refl _) (List.nil_subset _) (List.Subset.refl _)
      · rw [hset] at hdata
        exact inHands_mono hdata (List.Subset.refl _) (List.nil_subset _) (List.Subset.refl _)
    | resume h | disconnected h | report h | poolFails h | merge h => exact .inl hdata
    | @send calls snapshots execState sent h hroom halive =>
      simp only [ParallelState.inHands, List.mem_append, List.mem_singleton] at hdata ⊢
      rcases hdata with ((hdata | rfl) | hdata) | hdata
      · exact .inl (.inl (.inl hdata))
      · exact .inr ⟨calls, snapshots, execState, h⟩
      · exact .inl (.inl (.inr hdata))
      · exact .inl (.inr hdata)
    | @receive results received rest h hchannel =>
      left
      simp only [mem_inHands] at hdata ⊢
      rw [hchannel]
      rcases hdata with hdata | hdata | hdata
      · exact .inl (List.mem_cons_of_mem _ hdata)
      · obtain rfl := List.mem_singleton.mp hdata
        exact .inl List.mem_cons_self
      · exact .inr (.inr hdata)
    | @prove held results h P M tools =>
      left
      rcases @coordinatorProved_cases σ J s P M tools held results with ⟨e, hset | hset⟩ | ⟨state, -, -, hset⟩
      all_goals
        rw [hset] at hdata
        exact inHands_mono hdata (List.Subset.refl _) (List.nil_subset _) (List.Subset.refl _)
    | loopEnds h | join h =>
      left
      exact inHands_mono hdata (List.Subset.refl _) (List.nil_subset _) (List.Subset.refl _)
    | @consumerReceive results received rest consumers h hchannel =>
      left
      simp only [mem_inHands] at hdata ⊢
      rw [hchannel]
      rcases hdata with hdata | hdata | ⟨consumer, hmem, hdata⟩
      · exact .inl (List.mem_cons_of_mem _ hdata)
      · exact .inr (.inl hdata)
      · rcases h.of_mem_right hmem with rfl | hmem
        · obtain rfl := List.mem_singleton.mp hdata
          exact .inl List.mem_cons_self
        · exact .inr (.inr ⟨consumer, hmem, hdata⟩)
    | @consumerProve held results P M tools consumers h =>
      left
      have hempty : (J.consumerProved tools held results).1.held = [] := by
        unfold consumerProved
        split
        · dsimp only
          split <;> rfl
        · rfl
      exact inHands_mono hdata (List.Subset.refl _) (List.Subset.refl _)
        (h.flatMap_subset Consumer.held (hempty ▸ List.nil_subset _))
    | consumerLoopEnds h =>
      left
      exact inHands_mono hdata (List.Subset.refl _) (List.Subset.refl _)
        (h.flatMap_subset Consumer.held (List.nil_subset _))
  · left
    cases hfault with
    | coordinatorFails | coordinatorGone =>
      exact inHands_mono hdata (List.Subset.refl _) (List.nil_subset _) (List.Subset.refl _)
    | consumerFails message h | consumerGone h =>
      exact inHands_mono hdata (List.Subset.refl _) (List.Subset.refl _)
        (h.flatMap_subset Consumer.held (List.nil_subset _))
    | executorPanics => exact hdata

private theorem mem_streams {results : List ProofResult} {r : ProofResult} (h : r ∈ J.job.streams results) :
    r ∈ results := by
  unfold ShardedAppProverJob.streams at h
  split at h
  · exact h
  · cases h

private theorem mem_keeps {result r : ProofResult} (h : r ∈ J.job.keeps [result]) : r = result := by
  unfold ShardedAppProverJob.keeps at h
  split at h
  · exact List.mem_singleton.mp h
  · cases h

private theorem made_coordinatorProved {data : ProveData σ} {results : List ProofResult}
    (h : s.coordinator = .proving (some data) results) {r : ProofResult}
    (hr : r ∈ (J.coordinatorProved s tools data results).made) :
    r ∈ s.made ∨ ∃ state, proveSegment J.job tools data = .ok state ∧ r = .app ⟨J.job.context, state⟩ := by
  have hkept : s.coordinator.results = results := by rw [h]; rfl
  unfold coordinatorProved at hr
  cases hproved : proveSegment J.job tools data with
  | ok state =>
    rw [hproved] at hr
    simp only [mem_made, Coordinator.results, List.mem_append] at hr ⊢
    rcases hr with (hr | hr) | (hr | hr) | hr
    · exact .inl (.inl hr)
    · exact .inr ⟨state, rfl, List.mem_singleton.mp (mem_streams hr)⟩
    · rw [← hkept] at hr
      exact .inl (.inr (.inl hr))
    · exact .inr ⟨state, rfl, mem_keeps hr⟩
    · exact .inl (.inr (.inr hr))
  | error failure =>
    left
    rw [hproved] at hr
    cases failure with
    | encode e => exact made_mono hr (List.Subset.refl _) (List.nil_subset _) (List.Subset.refl _) rfl
    | fastForward | starkProve | finalMemory | topTree | deferralPath | depth0 =>
      exact made_mono hr (List.Subset.refl _) (hkept ▸ List.Subset.refl _) (List.Subset.refl _) rfl

private theorem made_consumerProved {data : ProveData σ} {results : List ProofResult} {consumers : List (Consumer σ)}
    (h : Replaces s.consumers consumers (.proving (some data) results) (J.consumerProved tools data results).1)
    {r : ProofResult} (hr : r ∈ ParallelState.made { s with
      consumers := consumers, streamed := s.streamed ++ (J.consumerProved tools data results).2 }) :
    r ∈ s.made ∨ ∃ state, proveSegment J.job tools data = .ok state ∧ r = .app ⟨J.job.context, state⟩ := by
  have hnew : ∀ r, r ∈ (J.consumerProved tools data results).2 ∨ r ∈ (J.consumerProved tools data results).1.results →
      r ∈ results ∨ ∃ state, proveSegment J.job tools data = .ok state ∧ r = .app ⟨J.job.context, state⟩ := by
    intro r hr
    unfold consumerProved at hr
    cases hproved : proveSegment J.job tools data with
    | error failure =>
      rw [hproved] at hr
      rcases hr with hr | hr <;> cases hr
    | ok state =>
      rw [hproved] at hr
      dsimp only at hr
      split at hr
      · rcases hr with hr | hr <;> cases hr
      · rcases hr with hr | hr
        · exact .inr ⟨state, rfl, List.mem_singleton.mp (mem_streams hr)⟩
        · exact (List.mem_append.mp hr).imp id fun hr => ⟨state, rfl, mem_keeps hr⟩
  have hheld : ∀ r ∈ results, r ∈ s.made := by
    intro r hr
    exact mem_made.mpr (.inr (.inr (.inl ⟨_, h.mem_left, hr⟩)))
  rcases mem_made.mp hr with hr | hr | ⟨consumer, hmem, hr⟩ | hr
  · rcases List.mem_append.mp hr with hr | hr
    · exact .inl (mem_made.mpr (.inl hr))
    · exact (hnew r (.inl hr)).imp_left (hheld r)
  · exact .inl (mem_made.mpr (.inr (.inl hr)))
  · rcases h.of_mem_right hmem with rfl | hmem
    · exact (hnew r (.inr hr)).imp_left (hheld r)
    · exact .inl (mem_made.mpr (.inr (.inr (.inl ⟨consumer, hmem, hr⟩))))
  · exact .inl (mem_made.mpr (.inr (.inr (.inr hr))))

/-- The ExecuteE2 result of what the executor has run, or is about to report. -/
def ReportsE2 (J : ParallelJob σ) (s : ParallelState σ) (r : ProofResult) : Prop :=
  ∃ segments, (s.executor = some (.reporting segments) ∨
    ∃ result, s.executor = some (.returned (.ok result)) ∧ result.segments = segments) ∧
  Executor.executeE2Result J.job J.encodeSegments segments = .ok r

theorem executeE2Result_isExecuteE2 {job : ShardedAppProverJob}
    {encodeSegments : List Segment → Except String (List Bytes)}
    {segments : List Segment} {r : ProofResult} (h : Executor.executeE2Result job encodeSegments segments = .ok r) :
    r.isExecuteE2 = true := by
  obtain ⟨encoded, -, hr⟩ := bind_ok_iff.mp h
  rw [← Except.ok.inj hr]
  rfl

/-- What a coordinator returns, beside its proofs, is the ExecuteE2 result of what its executor has run. -/
theorem mem_joined {executor : Executor σ} {error : Option String} {results own : List ProofResult}
    (h : coordinatorResult (J.joined executor error results) = .success own) {r : ProofResult} (hr : r ∈ own) :
    r ∈ results ∨ ∃ result, executor = .returned (.ok result) ∧
      Executor.executeE2Result J.job J.encodeSegments result.segments = .ok r := by
  cases hjoined : J.joined executor error results with
  | error e =>
    rw [hjoined] at h
    cases h
  | ok joined =>
    rw [hjoined] at h
    obtain rfl := ProverResult.success.inj h
    cases executor with
    | suspended | sending | reporting | panicked => cases hjoined
    | returned executorJoin =>
      cases error with
      | some e => cases hjoined
      | none =>
        obtain ⟨result, rfl, hresults⟩ := bind_ok_iff.mp hjoined
        split at hresults
        · cases hresults
        · split at hresults
          · obtain ⟨e2, he2, hresults⟩ := bind_ok_iff.mp hresults
            obtain rfl := Except.ok.inj hresults
            rcases List.mem_cons.mp hr with rfl | hr
            · exact .inr ⟨result, rfl, he2⟩
            · exact .inl hr
          · obtain rfl := Except.ok.inj hresults
            exact .inl hr

/-- Nothing but a proof and the ExecuteE2 result is made. -/
theorem made_work (h : J.WorkStep s s') {r : ProofResult} (hr : r ∈ s'.made) : r ∈ s.made ∨
    ((∃ state, r = .app ⟨J.job.context, state⟩) ∧ ∃ (P M : Type) (tools : SegmentTools σ P M), J.StepWith tools s s') ∨
    J.ReportsE2 s r := by
  cases h with
  | @prove data results h P M tools =>
    rcases made_coordinatorProved h hr with hr | ⟨state, -, hr⟩
    · exact .inl hr
    · exact .inr (.inl ⟨⟨state, hr⟩, P, M, tools, .prove h⟩)
  | @consumerProve data results P M tools consumers h =>
    rcases made_consumerProved h hr with hr | ⟨state, -, hr⟩
    · exact .inl hr
    · exact .inr (.inl ⟨⟨state, hr⟩, P, M, tools, .consumerProve h⟩)
  | start setup h =>
    left
    rcases @afterSetup_cases σ J s setup with ⟨e, hset⟩ | ⟨-, hset⟩
    all_goals
      rw [hset] at hr
      exact made_mono hr (List.Subset.refl _) (List.nil_subset _) (List.Subset.refl _) rfl
  | resume h | send h | disconnected h => exact .inl hr
  | @report segments h =>
    simp only [mem_made, List.mem_append] at hr ⊢
    rcases hr with (hr | hr) | hr
    · exact .inl (.inl hr)
    · refine .inr (.inr ⟨segments, .inl h, ?_⟩)
      have he2 : r ∈ (Executor.report (σ := σ) J.job J.encodeSegments segments).2 := mem_streams hr
      unfold Executor.report at he2
      split at he2
      · split at he2
        · cases he2
        · next result hresult => rwa [List.mem_singleton.mp he2]
      · cases he2
    · exact .inl (.inr hr)
  | receive h | loopEnds h =>
    exact .inl (made_mono hr (List.Subset.refl _) (h ▸ List.Subset.refl _) (List.Subset.refl _) rfl)
  | @join executor error results h hexecutor hended =>
    cases hjoined : coordinatorResult (J.joined executor error results) with
    | error e =>
      rw [hjoined] at hr
      exact .inl (made_mono hr (List.Subset.refl _) (List.nil_subset _) (List.Subset.refl _) rfl)
    | success own =>
      rw [hjoined] at hr
      simp only [mem_made, Coordinator.results] at hr ⊢
      rcases hr with hr | hr | hr
      · exact .inl (.inl hr)
      · rcases mem_joined hjoined hr with hr | ⟨result, rfl, he2⟩
        · exact .inl (.inr (.inl (h ▸ hr)))
        · exact .inr (.inr ⟨_, .inr ⟨result, hexecutor, rfl⟩, he2⟩)
      · exact .inl (.inr (.inr hr))
  | consumerReceive h =>
    exact .inl (made_mono hr (List.Subset.refl _) (List.Subset.refl _)
      (h.flatMap_subset Consumer.results (List.Subset.refl _)) rfl)
  | consumerLoopEnds h =>
    exact .inl (made_mono hr (List.Subset.refl _) (List.Subset.refl _)
      (h.flatMap_subset Consumer.results (List.Subset.refl _)) rfl)
  | @poolFails e h hopen =>
    left
    rw [mem_made] at hr ⊢
    rcases hr with hr | hr | hr | ⟨results, hsuccess, -⟩
    · exact .inl hr
    · exact .inr (.inl hr)
    · exact .inr (.inr (.inl hr))
    · cases hsuccess
  | @merge result h hall hopen =>
    left
    rw [mem_made] at hr ⊢
    rcases hr with hr | hr | hr | ⟨results, hsuccess, hr⟩
    · exact .inl hr
    · exact .inr (.inl hr)
    · exact .inr (.inr (.inl hr))
    · obtain ⟨own, rfl, -, rfl⟩ := merged_success hall (Except.ok.inj (Option.some.inj hsuccess))
      rcases List.mem_append.mp hr with hr | hr
      · exact .inr (.inl (by rw [h]; exact hr))
      · obtain ⟨consumer, hmem, hr⟩ := List.mem_flatMap.mp hr
        exact .inr (.inr (.inl ⟨consumer, hmem, Consumer.mem_results_of_proofs hr⟩))

theorem made_fault (h : FaultStep s s') {r : ProofResult} (hr : r ∈ s'.made) : r ∈ s.made := by
  cases h with
  | coordinatorFails | coordinatorGone =>
    exact made_mono hr (List.Subset.refl _) (List.nil_subset _) (List.Subset.refl _) rfl
  | consumerFails message h | consumerGone h =>
    exact made_mono hr (List.Subset.refl _) (List.Subset.refl _)
      (h.flatMap_subset Consumer.results (List.nil_subset _)) rfl
  | executorPanics => exact hr

/-- The job's executor is one of its shard, what is in hand it has sent, and the App results are the proofs of that. -/
structure Traced (J : ParallelJob σ) (tools : SegmentTools σ P M) (s : ParallelState σ) : Prop where
  executor : ∀ executor, s.executor = some executor → J.job.proverId < J.job.numProvers ∧
    (Executor.Reaches .parallel J.job J.run J.encodeSegments executor ∨ ∃ message, executor = .panicked message)
  inHands : ∀ data ∈ s.inHands, J.job.proverId < J.job.numProvers ∧ Executor.Sends J.job J.run J.encodeSegments data
  made : ∀ r, .app r ∈ s.made → r.context = J.job.context ∧ J.job.proverId < J.job.numProvers ∧
    ∃ data, Executor.Sends J.job J.run J.encodeSegments data ∧ proveSegment J.job tools data = .ok r.state

private theorem traced_start : Traced J tools J.start := by
  constructor
  · exact nofun
  · intro data hdata
    simp only [mem_inHands, ParallelJob.start, List.mem_replicate] at hdata
    rcases hdata with hdata | hdata | ⟨consumer, ⟨-, rfl⟩, hdata⟩ <;> cases hdata
  · intro r hr
    simp only [mem_made, ParallelJob.start, List.mem_replicate] at hr
    rcases hr with hr | hr | ⟨consumer, ⟨-, rfl⟩, hr⟩ | ⟨results, hr, -⟩ <;> cases hr

private theorem Traced.executor_step (h : Traced J tools s) (hstep : J.Step s s') (executor : Executor σ)
    (hexecutor : s'.executor = some executor) : J.job.proverId < J.job.numProvers ∧
    (Executor.Reaches .parallel J.job J.run J.encodeSegments executor ∨ ∃ message, executor = .panicked message) := by
  have hnext : ∀ before, s.executor = some before → before.isRunning = true →
      ExecutorStep .parallel J.job J.run.metered J.encodeSegments before executor →
      J.job.proverId < J.job.numProvers ∧
        (Executor.Reaches .parallel J.job J.run J.encodeSegments executor ∨
          ∃ message, executor = .panicked message) := by
    intro before hbefore hrunning hloop
    obtain ⟨hid, hreaches | ⟨message, rfl⟩⟩ := h.executor before hbefore
    · exact ⟨hid, .inl (hreaches.tail hloop)⟩
    · cases hrunning
  rcases hstep with hwork | hfault
  · cases hwork with
    | start setup hstarting =>
      rcases @afterSetup_cases σ J s setup with ⟨e, hset⟩ | ⟨hid, hset⟩
      · rw [hset] at hexecutor
        exact h.executor executor hexecutor
      · rw [hset] at hexecutor
        obtain rfl := Option.some.inj hexecutor
        exact ⟨hid, .inl .refl⟩
    | resume hbefore =>
      obtain rfl := Option.some.inj hexecutor
      exact hnext _ hbefore rfl (.resume _ _)
    | send hbefore =>
      obtain rfl := Option.some.inj hexecutor
      exact hnext _ hbefore rfl (.sent _ _ _ _)
    | disconnected hbefore =>
      obtain rfl := Option.some.inj hexecutor
      exact hnext _ hbefore rfl (.disconnected _ _ _ _)
    | report hbefore =>
      obtain rfl := Option.some.inj hexecutor
      exact hnext _ hbefore rfl (.report _)
    | @prove data results hheld P M tools =>
      rcases @coordinatorProved_cases σ J s P M tools data results with ⟨e, hset | hset⟩ | ⟨state, -, -, hset⟩
      all_goals
        rw [hset] at hexecutor
        exact h.executor executor hexecutor
    | receive | loopEnds | join | consumerReceive | consumerProve | consumerLoopEnds | poolFails | merge =>
      exact h.executor executor hexecutor
  · cases hfault with
    | executorPanics message hbefore =>
      obtain rfl := Option.some.inj hexecutor
      exact ⟨(h.executor _ hbefore).1, .inr ⟨message, rfl⟩⟩
    | coordinatorFails | coordinatorGone | consumerFails | consumerGone => exact h.executor executor hexecutor

theorem Traced.step (h : Traced J tools s) (hstep : J.StepWith tools s s') : Traced J tools s' := by
  refine ⟨h.executor_step hstep.step, fun data hdata => ?_, fun r hr => ?_⟩
  · rcases inHands_step hstep.step hdata with hdata | ⟨calls, snapshots, execState, hsending⟩
    · exact h.inHands data hdata
    · obtain ⟨hid, hreaches | ⟨message, hpanicked⟩⟩ := h.executor _ hsending
      · exact ⟨hid, _, _, _, _, hreaches⟩
      · cases hpanicked
  · have hproof : ∀ data ∈ s.inHands, ∀ state, proveSegment J.job tools data = .ok state →
        ProofResult.app r = .app ⟨J.job.context, state⟩ → r.context = J.job.context ∧
          J.job.proverId < J.job.numProvers ∧
        ∃ data, Executor.Sends J.job J.run J.encodeSegments data ∧ proveSegment J.job tools data = .ok r.state := by
      rintro data hdata state hproved ⟨⟩
      obtain ⟨hid, hsends⟩ := h.inHands data hdata
      exact ⟨rfl, hid, data, hsends, hproved⟩
    cases hstep with
    | @prove data results hheld =>
      rcases made_coordinatorProved hheld hr with hr | ⟨state, hproved, he⟩
      · exact h.made r hr
      · exact hproof data (mem_inHands.mpr (.inr (.inl (by rw [hheld]; exact List.mem_singleton_self _))))
          state hproved he
    | @consumerProve data results consumers hheld =>
      rcases made_consumerProved hheld hr with hr | ⟨state, hproved, he⟩
      · exact h.made r hr
      · exact hproof data (mem_inHands.mpr (.inr (.inr ⟨_, hheld.mem_left, List.mem_singleton_self _⟩)))
          state hproved he
    | other _ hmade => exact h.made r (hmade r hr)

theorem traced_of_run (h : Relation.ReflTransGen (J.StepWith tools) J.start s) : Traced J tools s := by
  induction h with
  | refl => exact traced_start
  | tail _ hstep ih => exact ih.step hstep

end ParallelJob

/-- Whatever the order of the steps, however the program ends, and whatever fails on the way: an App result that a
parallel job has streamed, kept or returned is the one that a single machine comes to, which proves the segment from
the state at its start. -/
theorem parallelJob_plain {σ P M : Type} (J : ParallelJob σ) (tools : SegmentTools σ P M) {stateAt : Nat → σ}
    (htrajectory : Trajectory J.run tools.executeFromState stateAt)
    {s : ParallelState σ} (hrun : Relation.ReflTransGen (J.StepWith tools) J.start s) {r : AppProof}
    (hr : .app r ∈ s.made) :
    r.context = J.job.context ∧ plainSegment J.job.alone tools J.run stateAt r.state.segmentIdx = .ok r.state := by
  obtain ⟨hcontext, hid, data, hsends, hproved⟩ := (ParallelJob.traced_of_run hrun).made r hr
  refine ⟨hcontext, ?_⟩
  rw [(proveSegment_ok hproved).1, ← proveSegment_eq_plain hid htrajectory hsends]
  exact hproved

/-- A program of two segments, suspended one instruction into the second, whose state counts its instructions. -/
def twoSegments : MeteredRun Nat where
  initial := 0
  segments := [⟨0, 10, []⟩, ⟨10, 10, []⟩]
  vmStates k := 10 * (k + 1) + 1
  instrets k := 10 * (k + 1) + 1
  ending := .exits 0
  first := by simp
  contiguous k segment next h hnext := by
    match k with
    | 0 =>
      simp at h hnext
      simp [← h, ← hnext]
    | k + 1 => simp at hnext
  inside k next h := by
    match k with
    | 0 =>
      simp at h
      simp [← h]
    | k + 1 => simp at h

def countingTools : SegmentTools Nat Bytes Unit where
  executeFromState vmState k := .ok (vmState + k)
  prove vmState _ := .ok ([if vmState = 10 then 9 else 8], some ())
  memoryTopTree := true
  terminalDeferralPathBytes _ := .ok [7]
  terminalDepth0DeferralProofsBytes _ _ := .ok none
  encodeProof proof memory := RecursionSdk.sample.encodeProof ⟨proof, memory.map fun _ => 5⟩

theorem trajectory_twoSegments : Trajectory twoSegments countingTools.executeFromState id where
  initial := rfl
  suspended _ _ := rfl
  replayed _ _ _ _ hstart _ := congrArg _ hstart

/-- A deferral job with a single prover and one consumer beside its coordinator. -/
def twoSegmentJob : ParallelJob Nat where
  job := ⟨sampleContext .evm, 1, 0, 2, .receiverOpen, ["deferral"]⟩
  parallel := by decide
  run := twoSegments
  encodeSegments _ := .ok []

/-- The consumer proves the second segment, from the seed, before the coordinator is done with the first. -/
theorem run_twoSegments : ∃ s : ParallelState Nat,
    Relation.ReflTransGen (twoSegmentJob.StepWith countingTools) twoSegmentJob.start s ∧
      s.outcome = some (.ok (.success [])) ∧ s.streamed.map ProofResult.appSegment = [some 1, none, some 0] ∧
      .app ⟨sampleContext .evm, ⟨some [1, 5, 9], 1, some [7], none⟩⟩ ∈ s.streamed := by
  have hgo : ∀ {t next : ParallelState Nat},
      Relation.ReflTransGen (twoSegmentJob.StepWith countingTools) twoSegmentJob.start t →
      twoSegmentJob.WorkStep t next → (∀ r, .app r ∈ next.made → .app r ∈ t.made) →
      Relation.ReflTransGen (twoSegmentJob.StepWith countingTools) twoSegmentJob.start next :=
    fun hrun hwork hmade => hrun.tail (.other (.inl hwork) hmade)
  have hsetup := hgo .refl (.start (.ok ()) rfl) fun r hr => hr
  have hresumed := hgo hsetup (.resume rfl) fun r hr => hr
  have hsent := hgo hresumed (.send rfl (by decide) rfl) fun r hr => hr
  have hreceived := hgo hsent (.receive rfl rfl) fun r hr => hr
  have hresumedAgain := hgo hreceived (.resume rfl) fun r hr => hr
  have hsentAgain := hgo hresumedAgain (.send rfl (by decide) rfl) fun r hr => hr
  have hconsumed := hgo hsentAgain (.consumerReceive ⟨[], [], rfl, rfl⟩ rfl) fun r hr => hr
  have hconsumerProved := hconsumed.tail (.consumerProve ⟨[], [], rfl, rfl⟩)
  have hreported := hgo hconsumerProved (.report rfl) fun r hr => by
    rcases List.mem_cons.mp hr with hproof | hr
    · exact List.mem_cons.mpr (.inl hproof)
    · cases List.mem_singleton.mp hr
  have hproved := hreported.tail (.prove rfl)
  have hended := hgo hproved (.loopEnds rfl rfl rfl) fun r hr => hr
  have hconsumerEnded := hgo hended (.consumerLoopEnds ⟨[], [], rfl, rfl⟩ rfl rfl) fun r hr => hr
  have hjoined := hgo hconsumerEnded (.join rfl rfl rfl) fun r hr => hr
  have hmerged := hgo hjoined (.merge rfl rfl rfl) fun r hr => hr
  exact ⟨_, hmerged, rfl, rfl, List.mem_cons_self⟩

/-- The single machine comes to the consumer's proof of the second segment. -/
theorem parallelJob_plain_two : plainSegment twoSegmentJob.job.alone countingTools twoSegments id 1 =
    .ok ⟨some [1, 5, 9], 1, some [7], none⟩ := by
  obtain ⟨s, hrun, -, -, hstreamed⟩ := run_twoSegments
  exact (parallelJob_plain twoSegmentJob countingTools trajectory_twoSegments hrun
    (ParallelJob.mem_made.mpr (.inl hstreamed))).2

end EdgeProver
