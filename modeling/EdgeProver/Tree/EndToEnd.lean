import EdgeProver.Tree.PlainProver
import EdgeProver.Worker.Replay

/-! The whole system against one machine: shards of app provers, the manager's tree and the recursion workers on one
side, a run of the program that is proved segment by segment and folded level by level on the other. -/
namespace EdgeProver
open FoldMachine ProofState Outcome LevelFold Executor

/-- What the workers prove with. Their app proofs go through the codec of all other proofs, with the user public values
of the final memory; `A` are memory images. -/
structure ProvingStack (σ P A U M R E : Type) where
  sdk : RecursionSdk P U M R E
  segment : SegmentTools σ P A
  userPublicValues : A → U
  encodes : ∀ proof memory, segment.encodeProof proof memory = sdk.encodeProof ⟨proof, memory.map userPublicValues⟩
  roundTrips : sdk.RoundTrips

section
variable {σ P A U M R E : Type} (stack : ProvingStack σ P A U M R E)

/-- Segment `c` on one machine, before its proof is encoded. -/
def ProvingStack.plainApp (job : ShardedAppProverJob) (run : MeteredRun σ) (stateAt : Nat → σ) (c : Nat) :
    Except SegmentFailure (ProvedSegment P U) :=
  match run.segments[c]? with
  | none => .error (.starkProve "no such segment")
  | some segment => do
    let vmState := stateAt segment.instretStart
    let (proof, finalMemory) ← (stack.segment.prove vmState segment).mapError .starkProve
    let (memory, finalMerklePathBytes, deferralMerkleProofsBytes) ← terminalParts job stack.segment
      ⟨⟨vmState, segment.instretStart⟩, segment, c, run.isTerminal c⟩ finalMemory
    return ⟨⟨proof, memory.map stack.userPublicValues⟩, finalMerklePathBytes, deferralMerkleProofsBytes⟩

inductive SystemStep (job : ShardedAppProverJob) (run : MeteredRun σ) : TreeState → TreeState → Prop where
  /-- The segments, as the executor of a shard counts them. -/
  | executeE2 (s : TreeState) (now : Time) (envelope : MessageEnvelope ProofResult) (shard : CheckedJob)
      (loop : ExecutorLoop) (encodeSegments : List Segment → Except String (List Bytes)) (segments : List Segment) :
      shard.job.alone = job.alone → Reaches loop shard.job run encodeSegments (.reporting segments) →
      executeE2Result shard.job encodeSegments segments = .ok envelope.message →
      (∀ q ∈ s.delivered, q.isExecuteE2 = false) → SystemStep job run s (s.deliver s.outstanding now envelope)
  /-- A segment that the executor of a shard sent, proved. -/
  | app (s : TreeState) (now : Time) (envelope : MessageEnvelope ProofResult) (shard : CheckedJob)
      (encodeSegments : List Segment → Except String (List Bytes)) (data : ProveData σ) (r : AppProof) :
      shard.job.alone = job.alone → Sends shard.job run encodeSegments data →
      proveSegment shard.job stack.segment data = .ok r.state → envelope.message = .app r →
      (∀ q ∈ s.delivered, q.appSegment ≠ some r.state.segmentIdx) →
      SystemStep job run s (s.deliver s.outstanding now envelope)
  /-- What the task of an outstanding request produced, on any worker. -/
  | answer (s : TreeState) (now : Time) (envelope : MessageEnvelope ProofResult)
      (before after : List GeneralProveRequest) (req : GeneralProveRequest) (faults : PoolFaults) (net : Network)
      (task : TaskEnd) : s.outstanding = before ++ req :: after → stack.sdk.recursionTask faults net req = .ok task →
      envelope.message ∈ task.produced → SystemStep job run s (s.deliver (before ++ after) now envelope)

/-- What the workers make: the ExecuteE2 result of a shard's executor, the App result of a segment that such an executor
sent, and what the task of a request produced. -/
inductive Made (job : ShardedAppProverJob) (run : MeteredRun σ) : Option GeneralProveRequest → ProofResult → Prop where
  | executeE2 (shard : CheckedJob) (loop : ExecutorLoop) (encodeSegments : List Segment → Except String (List Bytes))
      (segments : List Segment) (r : ProofResult) : shard.job.alone = job.alone →
      Reaches loop shard.job run encodeSegments (.reporting segments) →
      executeE2Result shard.job encodeSegments segments = .ok r → Made job run none r
  | app (shard : CheckedJob) (encodeSegments : List Segment → Except String (List Bytes)) (data : ProveData σ)
      (r : AppProof) : shard.job.alone = job.alone → Sends shard.job run encodeSegments data →
      proveSegment shard.job stack.segment data = .ok r.state → Made job run none (.app r)
  | task (req : GeneralProveRequest) (faults : PoolFaults) (net : Network) (task : TaskEnd) (r : ProofResult) :
      stack.sdk.recursionTask faults net req = .ok task → r ∈ task.produced → Made job run (some req) r

def SystemRun (job : ShardedAppProverJob) (run : MeteredRun σ) (p : TreeParams) : TreeState → Prop :=
  Relation.ReflTransGen (SystemStep stack job run) (.start p)

variable {stack} {job : ShardedAppProverJob} {run : MeteredRun σ} {stateAt : Nat → σ} {p : TreeParams}
  {s s' : TreeState}

private theorem plainApp_of_plainSegment {c : Nat} {state : AppProofState}
    (h : plainSegment job stack.segment run stateAt c = .ok state) : ∃ app bytes,
      stack.plainApp job run stateAt c = .ok app ∧ stack.sdk.encodeProof app.proof = .ok bytes ∧
      state = ⟨some bytes, c, app.finalMerklePathBytes, app.deferralMerkleProofsBytes⟩ ∧ c < run.segments.length := by
  unfold plainSegment at h
  unfold ProvingStack.plainApp
  cases hsegment : run.segments[c]? with
  | none =>
    rw [hsegment] at h
    cases h
  | some segment =>
    rw [hsegment] at h
    dsimp only at h
    unfold proveSegment at h
    obtain ⟨vmState, hforward, h⟩ := bind_ok_iff.mp h
    rw [fastForward] at hforward
    dsimp only at hforward
    rw [Nat.sub_self, if_neg (Nat.lt_irrefl 0)] at hforward
    obtain rfl := Except.ok.inj hforward
    obtain ⟨⟨proof, finalMemory⟩, hprove, h⟩ := bind_ok_iff.mp h
    obtain ⟨⟨memory, path, depth0⟩, hparts, h⟩ := bind_ok_iff.mp h
    obtain ⟨bytes, hencode, h⟩ := bind_ok_iff.mp h
    refine ⟨⟨⟨proof, memory.map stack.userPublicValues⟩, path, depth0⟩, bytes, ?_, ?_, (Except.ok.inj h).symm, ?_⟩
    · exact bind_ok_iff.mpr ⟨_, hprove, bind_ok_iff.mpr ⟨_, hparts, rfl⟩⟩
    · rw [← stack.encodes]
      exact mapError_ok_iff.mp hencode
    · exact (List.getElem?_eq_some_iff.mp hsegment).1

private theorem plainApp_inner {c : Nat} (hc : c + 1 < run.segments.length) {app : ProvedSegment P U}
    (h : stack.plainApp job run stateAt c = .ok app) : app.proof.userPublicValues = none ∧
      app.finalMerklePathBytes = none ∧ app.deferralMerkleProofsBytes = none := by
  unfold ProvingStack.plainApp at h
  cases hsegment : run.segments[c]? with
  | none =>
    rw [hsegment] at h
    cases h
  | some segment =>
    rw [hsegment, MeteredRun.isTerminal_inner hc] at h
    obtain ⟨⟨proof, finalMemory⟩, -, h⟩ := bind_ok_iff.mp h
    obtain ⟨⟨memory, path, depth0⟩, hparts, h⟩ := bind_ok_iff.mp h
    obtain ⟨rfl, rfl, rfl⟩ : none = memory ∧ none = path ∧ none = depth0 := by
      simpa only [Prod.mk.injEq] using Except.ok.inj hparts
    rw [← Except.ok.inj h]
    exact ⟨rfl, rfl, rfl⟩

/-- What one machine makes of the segments, the ones it can prove. -/
def ProvingStack.plainApps [Inhabited P] (stack : ProvingStack σ P A U M R E) (job : ShardedAppProverJob)
    (run : MeteredRun σ) (stateAt : Nat → σ) (c : Nat) : ProvedSegment P U :=
  match stack.plainApp job run stateAt c with
  | .ok app => app
  | .error _ => ⟨⟨default, none⟩, none, none⟩

section
variable [Inhabited P] (htrajectory : Trajectory run stack.segment.executeFromState stateAt)
include htrajectory

omit htrajectory in
private theorem plainApps_eq {c : Nat} {app : ProvedSegment P U} (h : stack.plainApp job run stateAt c = .ok app) :
    stack.plainApps job run stateAt c = app := by
  rw [ProvingStack.plainApps, h]

omit htrajectory in
private theorem onlyTerminal_plainApps (n : Nat) (hn : n = run.segments.length) :
    OnlyTerminal (stack.plainApps job run stateAt) n := by
  intro c hc
  cases h : stack.plainApp job run stateAt c with
  | ok app =>
    rw [plainApps_eq h]
    exact plainApp_inner (hn ▸ hc) h
  | error failure =>
    rw [ProvingStack.plainApps, h]
    exact ⟨rfl, rfl, rfl⟩

private theorem plainApp_of_proved {shard : CheckedJob} {encodeSegments : List Segment → Except String (List Bytes)}
    {data : ProveData σ} {state : AppProofState} (halone : shard.job.alone = job.alone)
    (hsends : Sends shard.job run encodeSegments data)
    (hproved : proveSegment shard.job stack.segment data = .ok state) :
    ∃ bytes, stack.plainApp job.alone run stateAt state.segmentIdx =
    .ok (stack.plainApps job.alone run stateAt state.segmentIdx) ∧
      stack.sdk.encodeProof (stack.plainApps job.alone run stateAt state.segmentIdx).proof = .ok bytes ∧
      state = ⟨some bytes, state.segmentIdx,
        (stack.plainApps job.alone run stateAt state.segmentIdx).finalMerklePathBytes,
        (stack.plainApps job.alone run stateAt state.segmentIdx).deferralMerkleProofsBytes⟩ ∧
      state.segmentIdx < run.segments.length := by
  have hidx := (proveSegment_ok hproved).1
  rw [proveSegment_eq_plain shard.proverId_lt htrajectory hsends, ← hidx, halone] at hproved
  obtain ⟨app, bytes, happ, hbytes, hstate, hlt⟩ := plainApp_of_plainSegment hproved
  rw [plainApps_eq happ]
  exact ⟨bytes, happ, hbytes, hstate, hlt⟩

/-- What a delivered result comes from, and that one machine can make its segment. -/
def Sourced (stack : ProvingStack σ P A U M R E) (job : ShardedAppProverJob) (run : MeteredRun σ) (stateAt : Nat → σ)
    (emitted : List GeneralProveRequest) (r : ProofResult) : Prop :=
  Origin stack.sdk (stack.plainApps job.alone run stateAt) run.segments.length emitted r ∧
    ∀ c, r.appSegment = some c → stack.plainApp job.alone run stateAt c = .ok (stack.plainApps job.alone run stateAt c)

omit htrajectory in
theorem Sourced.mono {emitted emitted' : List GeneralProveRequest} {r : ProofResult} (hsub : emitted ⊆ emitted')
    (h : Sourced stack job run stateAt emitted r) : Sourced stack job run stateAt emitted' r :=
  ⟨h.1.mono hsub, h.2⟩

theorem Made.sourced {req : Option GeneralProveRequest} {r : ProofResult} {emitted : List GeneralProveRequest}
    (h : Made stack job run req r) (hreq : ∀ q, req = some q → q ∈ emitted) :
    Sourced stack job run stateAt emitted r := by
  cases h with
  | executeE2 shard loop encodeSegments segments _ halone hreaches hresult =>
    obtain rfl : segments = run.segments := hreaches.onSchedule shard.proverId_lt
    obtain ⟨encoded, -, hmsg⟩ := bind_ok_iff.mp hresult
    obtain rfl := Except.ok.inj hmsg
    exact ⟨⟨rfl, rfl⟩, fun c hc => by simp [ProofResult.appSegment] at hc⟩
  | app shard encodeSegments data a halone hsends hproved =>
    obtain ⟨bytes, happ, hbytes, hstate, hlt⟩ := plainApp_of_proved htrajectory halone hsends hproved
    refine ⟨⟨hlt, bytes, hstate, stack.roundTrips.proof _ _ hbytes⟩, fun c hc => ?_⟩
    obtain rfl := Option.some.inj hc
    exact happ
  | task q faults net task _ htask hr =>
    have hans := answers_of_task stack.roundTrips htask hr
    refine ⟨origin_of_task stack.roundTrips (hreq q rfl) htask hr, fun c hc => ?_⟩
    cases r <;> cases q <;> first | exact hans.elim | simp [ProofResult.appSegment] at hc

theorem SystemStep.fleet (h : SystemStep stack job run s s') :
    FleetStep stack.sdk (stack.plainApps job.alone run stateAt) run.segments.length s s' := by
  cases h with
  | executeE2 now envelope shard loop encodeSegments segments halone hreaches hresult hfresh =>
    obtain rfl : segments = run.segments := hreaches.onSchedule shard.proverId_lt
    obtain ⟨encoded, -, hmsg⟩ := bind_ok_iff.mp hresult
    exact .executeE2 s now envelope _ (Except.ok.inj hmsg).symm rfl rfl hfresh
  | app now envelope shard encodeSegments data r halone hsends hproved hmsg hfresh =>
    obtain ⟨bytes, -, hbytes, hstate, hlt⟩ := plainApp_of_proved htrajectory halone hsends hproved
    exact .app s now envelope r bytes hmsg hlt hstate (stack.roundTrips.proof _ _ hbytes) hfresh
  | answer now envelope before after req faults net task hout htask hr =>
    exact .answer s now envelope before after req faults net task hout htask hr

theorem SystemRun.fleet (h : SystemRun stack job run p s) :
    FleetRun stack.sdk (stack.plainApps job.alone run stateAt) p run.segments.length s :=
  Relation.ReflTransGen.mono (fun _ _ hstep => hstep.fleet htrajectory) _ _ h

/-- One machine can prove every segment that was delivered. -/
theorem SystemRun.delivered (h : SystemRun stack job run p s) {c : Nat}
    (hc : ∃ q ∈ s.delivered, q.appSegment = some c) :
    stack.plainApp job.alone run stateAt c = .ok (stack.plainApps job.alone run stateAt c) := by
  induction h with
  | refl =>
    obtain ⟨q, hq, -⟩ := hc
    cases hq
  | @tail s s' _ hstep ih =>
    obtain ⟨q, hq, hidx⟩ := hc
    have hlast : ∀ rest now envelope, s' = s.deliver rest now envelope → q ∈ s.delivered ∨ q = envelope.message := by
      rintro rest now envelope rfl
      exact (List.mem_append.mp hq).imp_right List.mem_singleton.mp
    cases hstep with
    | executeE2 now envelope shard loop encodeSegments segments halone hreaches hresult hfresh =>
      rcases hlast _ _ _ rfl with hq | rfl
      · exact ih ⟨q, hq, hidx⟩
      · obtain ⟨encoded, -, hmsg⟩ := bind_ok_iff.mp hresult
        rw [← Except.ok.inj hmsg] at hidx
        cases hidx
    | app now envelope shard encodeSegments data r halone hsends hproved hmsg hfresh =>
      rcases hlast _ _ _ rfl with hq | rfl
      · exact ih ⟨q, hq, hidx⟩
      · rw [hmsg] at hidx
        obtain rfl := Option.some.inj hidx
        obtain ⟨bytes, happ, -⟩ := plainApp_of_proved htrajectory halone hsends hproved
        exact happ
    | answer now envelope before after req faults net task hout htask hr =>
      rcases hlast _ _ _ rfl with hq | rfl
      · exact ih ⟨q, hq, hidx⟩
      · have hans := answers_of_task stack.roundTrips htask hr
        generalize envelope.message = r at hans hidx
        cases r with
        | app r => cases req <;> exact hans.elim
        | executeE2 | leaf | internal | evm | error => cases hidx

end

/-- A tree that took only what the workers made leaves what one machine makes. -/
theorem plain_of_sourced [Inhabited P] (ha : Arities p.leafArity p.internalArity) (hn : 0 < run.segments.length)
    (hrun : HonestRun p run.segments.length s) (hacc : Accepted p run.segments.length s.delivered)
    (hsourced : ∀ r ∈ s.delivered, Sourced stack job run stateAt s.emitted r) (hfirst : ExecuteE2First s.delivered)
    (hready : s.ps.isReadyForFinalization = true) :
    ∃ apps, (∀ c < run.segments.length, stack.plainApp job.alone run stateAt c = .ok (apps c)) ∧
      (∃ st final merkle, s.ps.finalInternalState = some st ∧
        StoresPlain stack.sdk apps p run.segments.length st final merkle) ∧
      (p.context.proofType = .evm → ∃ e bytes evm, s.ps.evmProof = some e ∧ e.proof = some bytes ∧
        stack.sdk.encodeEvmProof evm = .ok bytes ∧ stack.sdk.plainEvm p run.segments.length apps = .ok evm) := by
  have hcodec := stack.roundTrips
  have hterminal := @onlyTerminal_plainApps σ P A U M R E stack job.alone run stateAt _ _ rfl
  have horigin := fun r hr => (hsourced r hr).1
  obtain ⟨m, hd⟩ := disciplined_of_run ha hn hrun hacc hfirst
  have hcomplete := hd.tracks.complete_of_ready ha hn hready
  obtain ⟨q, st, final, merkle, hfpd, hplain⟩ :=
    storesPlain_of_ready hcodec ha hn hrun hacc horigin hterminal hfirst hready
  refine ⟨stack.plainApps job.alone run stateAt, fun c hc => ?_, ⟨st, final, merkle, hfpd.slot, hplain⟩, fun hevm => ?_⟩
  · obtain ⟨r, hr, hsegment⟩ := hcomplete.apps c hc
    exact (hsourced r hr).2 c hsegment
  · exact evm_of_stored hcodec ha hn hrun hacc horigin hevm hready hfpd hplain

/-- Within the word a run of the system is one of the machine. Once the manager can finalize, its final proof is the
one of a single machine that runs the program, proves each segment from the state at its start and folds the proofs
level by level: however the segments are dealt out to shards, whatever snapshots they start from, and whichever worker
answers which request in whichever order after the segment count. -/
theorem system_plain [Inhabited P] (htrajectory : Trajectory run stack.segment.executeFromState stateAt)
    (ha : Arities p.leafArity p.internalArity) (hn : 0 < run.segments.length)
    (hw : p.WithinWord run.segments.length) (hrun : SystemRun stack job run p s) (hfirst : ExecuteE2First s.delivered)
    (hready : s.ps.isReadyForFinalization = true) :
    (∀ overflowChecks, WordRun overflowChecks p run.segments.length s) ∧
    ∃ apps, (∀ c < run.segments.length, stack.plainApp job.alone run stateAt c = .ok (apps c)) ∧
      (∃ st final merkle, s.ps.finalInternalState = some st ∧
        StoresPlain stack.sdk apps p run.segments.length st final merkle) ∧
      (p.context.proofType = .evm → ∃ e bytes evm, s.ps.evmProof = some e ∧ e.proof = some bytes ∧
        stack.sdk.encodeEvmProof evm = .ok bytes ∧ stack.sdk.plainEvm p run.segments.length apps = .ok evm) := by
  have hcodec := stack.roundTrips
  have hfleet := hrun.fleet htrajectory
  have hhonest := hfleet.honest hcodec
  refine ⟨fun overflowChecks => (wordRun_iff ha hn hw).mpr hhonest, ?_⟩
  refine plain_of_sourced ha hn hhonest (hfleet.accepted hcodec ha hn hfirst) (fun r hr => ?_) hfirst hready
  exact ⟨(hfleet.origin hcodec).2 r hr, fun c hc => hrun.delivered htrajectory ⟨r, hr, hc⟩⟩

end

def countingStack : ProvingStack Nat Bytes Unit UInt8 Unit Bytes Bytes where
  sdk := .sample
  segment := countingTools
  userPublicValues _ := 5
  encodes _ _ := rfl
  roundTrips := RecursionSdk.roundTrips_sample

theorem SystemRun.feed {p : TreeParams} {s : TreeState} (h : SystemRun countingStack twoSegmentJob.job twoSegments p s)
    {r : ProofResult} (hmade : Made countingStack twoSegmentJob.job twoSegments none r)
    (hfresh : ∀ q ∈ s.delivered, (r.isExecuteE2 && q.isExecuteE2) = false ∧ ∀ c, r.appSegment = some c →
      q.appSegment ≠ some c) :
    SystemRun countingStack twoSegmentJob.job twoSegments p (s.feed r) := by
  cases hmade with
  | executeE2 shard loop encodeSegments segments _ halone hreaches hresult =>
    refine h.tail (.executeE2 s 0 ⟨0, "", r⟩ shard loop encodeSegments segments halone hreaches hresult fun q hq => ?_)
    obtain ⟨encoded, -, hmsg⟩ := Outcome.bind_ok_iff.mp hresult
    obtain rfl := Except.ok.inj hmsg
    exact (hfresh q hq).1
  | app shard encodeSegments data a halone hsends hproved =>
    exact h.tail (.app s 0 ⟨0, "", .app a⟩ shard encodeSegments data a halone hsends hproved rfl fun q hq =>
      (hfresh q hq).2 _ rfl)

/-- Both segments and the count come from the executor of the only prover. -/
theorem made_twoSegments : Made countingStack twoSegmentJob.job twoSegments none (sampleSegmentResult 0 [0, 8]) ∧
    Made countingStack twoSegmentJob.job twoSegments none sampleExecuteE2 ∧
    Made countingStack twoSegmentJob.job twoSegments none (sampleSegmentResult 1 [1, 5, 9]) := by
  have hstart : Reaches .parallel twoSegmentJob.job twoSegments (fun _ => .ok []) _ := .refl
  have hfirst := hstart.tail (.resume 0 [⟨0, 0⟩])
  have hnext := (hfirst.tail (.sent 0 [⟨0, 0⟩] _ _)).tail (.resume 1 [⟨0, 0⟩, ⟨11, 11⟩])
  have hended := hnext.tail (.sent 1 [⟨11, 11⟩] _ _)
  exact ⟨.app ⟨twoSegmentJob.job, by decide⟩ _ _ _ rfl ⟨_, _, _, _, hfirst⟩ rfl,
    .executeE2 ⟨twoSegmentJob.job, by decide⟩ _ _ _ _ rfl hended rfl,
    .app ⟨twoSegmentJob.job, by decide⟩ _ _ _ rfl ⟨_, _, _, _, hnext⟩ rfl⟩

private theorem systemRun_sample : SystemRun countingStack twoSegmentJob.job twoSegments
    (sampleParams .evm) plainFleet := by
  have h0 : SystemRun countingStack twoSegmentJob.job twoSegments (sampleParams .evm) _ := .refl
  have h3 := ((h0.feed made_twoSegments.1 (by decide)).feed made_twoSegments.2.1 (by decide)).feed made_twoSegments.2.2
    (by decide)
  refine plainFleet_of_answers (fun s rest req task r hout htask hr h => ?_) h3
  rw [TreeState.answer, hout, List.tail_cons]
  exact h.tail (.answer s 0 ⟨0, "", r⟩ [] rest req _ _ task hout htask hr)

/-- The EVM proof of two segments, merged with their deferral tail. -/
theorem system_plain_sample :
    ∃ apps, (∀ c < 2, countingStack.plainApp twoSegmentJob.job.alone twoSegments id c = .ok (apps c)) ∧
    (∃ st final merkle, plainFleet.ps.finalInternalState = some st ∧
      StoresPlain .sample apps (sampleParams .evm) 2 st final merkle) ∧
    (ProofType.evm = .evm → ∃ e bytes evm, plainFleet.ps.evmProof = some e ∧ e.proof = some bytes ∧
      RecursionSdk.sample.encodeEvmProof evm = .ok bytes ∧
      RecursionSdk.sample.plainEvm (sampleParams .evm) 2 apps = .ok evm) :=
  (@system_plain _ _ _ _ _ _ _ countingStack _ _ _ _ _ _ trajectory_twoSegments ⟨by decide, by decide⟩ Nat.two_pos
    ⟨by decide, by decide⟩ systemRun_sample executeE2First_sample (by decide)).2

end EdgeProver
