import EdgeProver.Lib.Pipeline
import EdgeProver.Worker.Replay

/-! A sharded app job on a single app worker: the executor thread beside the prover, around one bounded channel of
segments. -/
namespace EdgeProver
open Outcome Pipeline

/-- The job that one app worker runs by itself, and the program that it runs. -/
structure SerialJob (σ : Type) where
  job : ShardedAppProverJob
  run : MeteredRun σ
  encodeSegments : List Segment → Except String (List Bytes)

/-- How the prover's loop ends early. -/
structure ProverFailure where
  failure : SegmentFailure
  segmentIdx : Nat

def ProverFailure.report (failed : ProverFailure) : String := failed.failure.coordinatorReport failed.segmentIdx

def ShardedAppProverJob.appProof (job : ShardedAppProverJob) (state : AppProofState) : ProofResult :=
  .app ⟨job.context, state⟩

/-- `prove_sharded_app_with_prover`, of what its inner function returns. -/
def shardedAppResult : Except String (List ProofResult) → ProverResult
  | .ok results => .success results
  | .error e => .error s!"Sharded app prove failed: {e}"

namespace SerialJob
variable {σ P M : Type} (J : SerialJob σ) (tools : SegmentTools σ P M)

def executorMove : Executor σ → Pipeline.Move (Executor σ) (ProveData σ) (Executor σ) ProofResult
  | .suspended calls snapshots => .work [] (.resume J.job J.run.metered calls snapshots)
  | .sending calls snapshots execState data => .send data (.endRound J.job calls snapshots execState data.isFinal)
  | .reporting segments =>
    .work (J.job.streams (Executor.report (σ := σ) J.job J.encodeSegments segments).2)
      (Executor.report J.job J.encodeSegments segments).1
  | .returned result => .stop (.returned result)
  | .panicked message => .stop (.panicked message)

/-- The body of the prover's loop: the results that it keeps, and what it streams. -/
def proveNext (results : List ProofResult) (data : ProveData σ) :
    Except ProverFailure (List ProofResult × List ProofResult) :=
  match proveSegment J.job tools data with
  | .ok state => .ok (results ++ J.job.keeps [J.job.appProof state], J.job.streams [J.job.appProof state])
  | .error failure => .error ⟨failure, data.segmentIdx⟩

def parties : Parties (Executor σ) (ProveData σ) (Executor σ) (List ProofResult) ProverFailure ProofResult where
  move := J.executorMove
  refused := .returned (.error ExecutorLoop.serial.disconnected)
  consume := J.proveNext tools
  capacity := 2

abbrev State (σ : Type) :=
  Pipeline.State (Executor σ) (ProveData σ) (Executor σ) (List ProofResult) ProverFailure ProofResult

def start : State σ := .start (.start J.job J.run.initial) []

/-- What `prove_sharded_app_impl_with_prover` returns, once it does. A proof that cannot be encoded returns at once; any
other failure waits for the executor, and counts unless that has panicked. -/
def answer (s : State σ) : Option (Except String (List ProofResult)) :=
  match s.consumer, s.producer with
  | .failed ⟨.encode e, _⟩, _ => some (.error e)
  | .failed _, .ended (.panicked message) => some (.error s!"Executor thread panicked: {message}")
  | .failed failed, .ended _ => some (.error failed.report)
  | .drained results, .ended executor => some (executor.finish J.job J.encodeSegments results)
  | _, _ => none

/-- What `prove_sharded_app_with_prover` may return: of a job that is refused, or of a run of the two threads. -/
inductive Returns (setup : Except String Unit) : ProverResult → Prop
  | refused {e : String} (h : (J.job.validate >>= fun _ => setup) = .error e) :
    Returns setup (shardedAppResult (.error e))
  | ran {s : State σ} {answer : Except String (List ProofResult)} (h : (J.job.validate >>= fun _ => setup) = .ok ())
      (hrun : Relation.ReflTransGen (Pipeline.Step (J.parties tools)) J.start s) (hanswer : J.answer s = some answer) :
      Returns setup (shardedAppResult answer)

variable (stateAt : Nat → σ)

/-- The proofs of the shard, one segment after the other, each from the state at its start. -/
def plainProofs (segments : List Nat) : Except ProverFailure (List AppProofState) :=
  segments.mapM fun c => (plainSegment J.job.alone tools J.run stateAt c).mapError fun failure => ⟨failure, c⟩

def plainE2 : Except String (List ProofResult) :=
  if J.job.proverId = 0 then (Executor.executeE2Result J.job J.encodeSegments J.run.segments).map fun e2 =>
    [e2] else .ok []

/-- The results of the shard, the ExecuteE2 result and the proofs; a proof that fails counts before it. -/
def plainResults : Except String (List ProofResult × List ProofResult) := do
  let states ← (J.plainProofs tools stateAt (J.job.ownedBelow J.run.segments.length)).mapError ProverFailure.report
  let e2s ← J.plainE2
  return (e2s, states.map J.job.appProof)

/-- The answer of the shard: results that are not streamed. -/
def plainAnswer : Except String (List ProofResult) :=
  (J.plainResults tools stateAt).map fun results => J.job.keeps (results.1 ++ results.2)

end SerialJob

namespace Executor
variable {σ : Type} {job : ShardedAppProverJob} {run : MeteredRun σ}

private theorem exitCode_exits (hexits : run.ending = .exits 0) (c : Nat) :
    (run.execState c).exitCode = .ok (if c + 1 = run.segments.length then some 0 else none) := by
  simp only [MeteredRun.execState, hexits]
  split <;> rfl

private theorem resume_other (hexits : run.ending = .exits 0) {c : Nat} (hc : c < run.segments.length)
    (hother : job.owns c = false) (snapshots : List (VmSnapshot σ)) :
    resume job run.metered c snapshots = endRound job c snapshots (run.execState c) (c + 1 == run.segments.length) := by
  have hmetered : run.metered c = .ok (run.execState c) := if_pos hc
  have hidx : (run.execState c).segments.length - 1 = c := by rw [length_segments hc, Nat.add_sub_cancel]
  unfold resume
  rw [hmetered]
  dsimp only
  rw [hidx, exitCode_exits hexits]
  by_cases hlast : c + 1 = run.segments.length
  · rw [if_pos hlast, beq_iff_eq.mpr hlast]
    exact if_neg (beq_eq_false_iff_ne.mp hother)
  · rw [if_neg hlast, beq_eq_false_iff_ne.mpr hlast]
    exact if_neg (beq_eq_false_iff_ne.mp hother)

private theorem resume_ne_returned (hexits : run.ending = .exits 0) {c : Nat} (hc : c < run.segments.length)
    (snapshots : List (VmSnapshot σ)) (e : String) : resume job run.metered c snapshots ≠ .returned (.error e) := by
  intro hfailed
  have hmetered : run.metered c = .ok (run.execState c) := if_pos hc
  have hidx : (run.execState c).segments.length - 1 = c := by rw [length_segments hc, Nat.add_sub_cancel]
  cases howns : job.owns c with
  | false =>
    rw [resume_other hexits hc howns] at hfailed
    unfold endRound at hfailed
    split at hfailed
    · cases hfailed
    · split at hfailed <;> cases hfailed
  | true =>
    unfold resume at hfailed
    rw [hmetered] at hfailed
    dsimp only at hfailed
    rw [hidx, exitCode_exits hexits] at hfailed
    by_cases hlast : c + 1 = run.segments.length
    all_goals
      first | rw [if_pos hlast] at hfailed | rw [if_neg hlast] at hfailed
      dsimp only at hfailed
      rw [if_pos (beq_iff_eq.mp howns)] at hfailed
      split at hfailed
      · cases hfailed
      · split at hfailed <;> cases hfailed

/-- A round of a program that exits sends its segment, if that is owned, and ends the loop at the last one. -/
theorem resume_exits (hid : job.proverId < job.numProvers) (hexits : run.ending = .exits 0) {c : Nat}
    (hc : c < run.segments.length) {snapshots : List (VmSnapshot σ)} (h : OnSchedule job run (.suspended c snapshots)) :
    (job.owns c = true ∧ ∃ rest data, resume job run.metered c snapshots = .sending c rest (run.execState c) data ∧
      data.isFinal = (c + 1 == run.segments.length)) ∨
    (job.owns c = false ∧
      resume job run.metered c snapshots = endRound job c snapshots (run.execState c)
      (c + 1 == run.segments.length)) := by
  obtain ⟨-, rfl⟩ := h
  obtain ⟨e, hfailed⟩ | ⟨shouldBreak, -, -, ⟨howns, segment, -, hsending⟩ | ⟨hother, -⟩⟩ :=
    @resume_cases σ job hid run c
  · exact absurd hfailed (resume_ne_returned hexits hc _ e)
  · refine .inl ⟨howns, _, _, hsending, ?_⟩
    obtain ⟨-, code, hcode, hfinal⟩ := isFinal_of_resume hsending
    rw [hfinal, ← Except.ok.inj ((exitCode_exits hexits c).symm.trans hcode)]
    by_cases hlast : c + 1 = run.segments.length
    · rw [if_pos hlast, beq_iff_eq.mpr hlast]
      rfl
    · rw [if_neg hlast, beq_eq_false_iff_ne.mpr hlast]
      rfl
  · exact .inr ⟨hother, resume_other hexits hc hother _⟩

/-- After its round the executor reports, or goes on with the next segment. -/
theorem endRound_exits {c : Nat} (hc : c < run.segments.length) {snapshots : List (VmSnapshot σ)}
    (h : OnSchedule job run (endRound job c snapshots (run.execState c) (c + 1 == run.segments.length))) :
    (c + 1 = run.segments.length ∧
      endRound job c snapshots (run.execState c) (c + 1 == run.segments.length) = .reporting run.segments) ∨
    (c + 1 < run.segments.length ∧ ∃ next,
      endRound job c snapshots (run.execState c) (c + 1 == run.segments.length) = .suspended (c + 1) next ∧
      OnSchedule job run (.suspended (c + 1) next)) := by
  by_cases hlast : c + 1 = run.segments.length
  · rw [beq_iff_eq.mpr hlast] at h ⊢
    have hsegments : (run.execState c).segments = run.segments := h
    exact .inl ⟨hlast, congrArg _ hsegments⟩
  · rw [beq_eq_false_iff_ne.mpr hlast] at h ⊢
    refine .inr ⟨by omega, ?_⟩
    unfold endRound at h ⊢
    rw [if_neg Bool.false_ne_true] at h ⊢
    split at h
    · next hsaves => exact ⟨_, if_pos hsaves, h⟩
    · next hsaves => exact ⟨_, if_neg hsaves, h⟩

end Executor

namespace SerialJob
variable {σ P M : Type} {J : SerialJob σ} {tools : SegmentTools σ P M}

/-- By itself the executor sends these segments, on schedule, and then reports. -/
def Plays (J : SerialJob σ) (tools : SegmentTools σ P M) (executor : Executor σ) (segments : List Nat) : Prop :=
  ∃ moves items, Produces (J.parties tools) executor moves items
      (J.job.streams (Executor.report (σ := σ) J.job J.encodeSegments J.run.segments).2)
      (Executor.report J.job J.encodeSegments J.run.segments).1 ∧
    items.map (·.segmentIdx) = segments ∧
    ∀ data ∈ items, Executor.Scheduled J.run data.segmentIdx data ∧
      data.isFinal = J.run.isTerminal data.segmentIdx

private theorem plays_reporting : Plays J tools (.reporting J.run.segments) [] := by
  have hended : ∃ result, (Executor.report (σ := σ) J.job J.encodeSegments J.run.segments).1 = .returned result := by
    unfold Executor.report
    split
    · split
      · exact ⟨_, rfl⟩
      · exact ⟨_, rfl⟩
    · exact ⟨_, rfl⟩
  obtain ⟨result, hresult⟩ := hended
  refine ⟨2, [], ?_, rfl, fun data hdata => absurd hdata List.not_mem_nil⟩
  have hstop : (J.parties tools).move (Executor.report J.job J.encodeSegments J.run.segments).1 =
      .stop (Executor.report J.job J.encodeSegments J.run.segments).1 := by
    rw [hresult]
    rfl
  have hwork := Produces.work (P := J.parties tools) (x := .reporting J.run.segments) rfl (.stop hstop)
  rwa [List.append_nil] at hwork

variable (hid : J.job.proverId < J.job.numProvers) (hexits : J.run.ending = .exits 0)
include hid hexits

private theorem plays_suspended {c : Nat} (hc : c < J.run.segments.length) {snapshots : List (VmSnapshot σ)}
    (h : Executor.OnSchedule J.job J.run (.suspended c snapshots)) :
    Plays J tools (.suspended c snapshots) ((List.range' c (J.run.segments.length - c)).filter J.job.owns) := by
  induction hleft : J.run.segments.length - c generalizing c snapshots with
  | zero => omega
  | succ left ih =>
    have hround : ∀ snapshots, Executor.OnSchedule J.job J.run
          (Executor.endRound J.job c snapshots (J.run.execState c) (c + 1 == J.run.segments.length)) →
        Plays J tools (Executor.endRound J.job c snapshots (J.run.execState c) (c + 1 == J.run.segments.length))
          ((List.range' (c + 1) left).filter J.job.owns) := by
      intro snapshots hschedule
      rcases Executor.endRound_exits hc hschedule with ⟨hlast, hreporting⟩ | ⟨hmore, next, hnext, hschedule⟩
      · obtain rfl : left = 0 := by omega
        rw [hreporting]
        exact plays_reporting
      · rw [hnext]
        exact ih hmore hschedule (by omega)
    have hstep := h.step hid (@ExecutorStep.resume _ .serial _ _ J.encodeSegments c snapshots)
    rw [List.range'_succ, List.filter_cons]
    rcases Executor.resume_exits hid hexits hc h with ⟨howns, rest, data, hsending, hfinal⟩ | ⟨hother, hround'⟩
    · rw [hsending] at hstep
      have hsent := hstep.step hid (@ExecutorStep.sent _ .serial _ _ J.encodeSegments c rest _ data)
      obtain ⟨-, -, -, -, hdata⟩ := hstep
      rw [hfinal] at hsent
      obtain ⟨moves, items, hproduces, hsegments, hitems⟩ := hround rest hsent
      have hidx := hdata.segmentIdx
      have hmove : (J.parties tools).move (.suspended c snapshots) = .work []
        (.sending c rest (J.run.execState c) data) :=
        congrArg _ hsending
      rw [← hfinal] at hproduces
      refine ⟨_, data :: items, .work hmove (.send rfl hproduces), ?_, ?_⟩
      · rw [if_pos howns, List.map_cons, hsegments, hidx]
      · intro other hother
        rcases List.mem_cons.mp hother with rfl | hother
        · rw [hidx]
          exact ⟨hdata, hfinal.trans (MeteredRun.isTerminal_exits hexits c).symm⟩
        · exact hitems other hother
    · rw [hround'] at hstep
      obtain ⟨moves, items, hproduces, hsegments, hitems⟩ := hround snapshots hstep
      have hmove : (J.parties tools).move (.suspended c snapshots) =
          .work [] (Executor.endRound J.job c snapshots (J.run.execState c) (c + 1 == J.run.segments.length)) :=
        congrArg _ hround'
      refine ⟨_, items, .work hmove hproduces, ?_, hitems⟩
      rw [if_neg (Bool.eq_false_iff.mp hother), hsegments]

omit hid hexits

private theorem keeps_append (job : ShardedAppProverJob) (results others : List ProofResult) :
    job.keeps (results ++ others) = job.keeps results ++ job.keeps others := by
  unfold ShardedAppProverJob.keeps
  split <;> rfl

private theorem streams_append (job : ShardedAppProverJob) (results others : List ProofResult) :
    job.streams (results ++ others) = job.streams results ++ job.streams others := by
  unfold ShardedAppProverJob.streams
  split <;> rfl

private theorem consumeAll_plain {stateAt : Nat → σ} (htrajectory : Trajectory J.run tools.executeFromState stateAt)
    {items : List (ProveData σ)} (hitems : ∀ data ∈ items, Executor.Scheduled J.run data.segmentIdx data ∧
      data.isFinal = J.run.isTerminal data.segmentIdx) (results : List ProofResult) :
    (J.parties tools).consumeAll results items =
      (J.plainProofs tools stateAt (items.map (·.segmentIdx))).map fun states =>
        (results ++ J.job.keeps (states.map J.job.appProof), J.job.streams (states.map J.job.appProof)) := by
  induction items generalizing results with
  | nil =>
    have hkeeps : J.job.keeps [] = [] := ite_self _
    have hstreams : J.job.streams [] = [] := ite_self _
    show Except.ok (results, []) = Except.ok (results ++ J.job.keeps [], J.job.streams [])
    rw [hkeeps, hstreams, List.append_nil]
  | cons data items ih =>
    obtain ⟨hscheduled, hfinal⟩ := hitems data List.mem_cons_self
    have hrest := ih fun other hother => hitems other (List.mem_cons_of_mem _ hother)
    have hproved : proveSegment J.job tools data = plainSegment J.job.alone tools J.run stateAt data.segmentIdx :=
      htrajectory.proveSegment_eq hscheduled hfinal
    rw [Parties.consumeAll, List.map_cons, plainProofs, List.mapM_cons, ← hproved]
    have hnext : (J.parties tools).consume results data = J.proveNext tools results data := rfl
    rw [hnext, proveNext]
    cases proveSegment J.job tools data with
    | error failure => rfl
    | ok state =>
      dsimp only
      rw [hrest, ← plainProofs]
      cases J.plainProofs tools stateAt (items.map (·.segmentIdx)) with
      | error failed => rfl
      | ok states =>
        have hsplit : (state :: states).map J.job.appProof = [J.job.appProof state] ++ states.map J.job.appProof := rfl
        show Except.ok (results ++ J.job.keeps [J.job.appProof state] ++ J.job.keeps (states.map J.job.appProof),
            J.job.streams [J.job.appProof state] ++ J.job.streams (states.map J.job.appProof)) =
          Except.ok (results ++ J.job.keeps ((state :: states).map J.job.appProof),
            J.job.streams ((state :: states).map J.job.appProof))
        rw [hsplit, keeps_append, streams_append, List.append_assoc]

private theorem report_cases (J : SerialJob σ) :
    (∃ e, J.plainE2 = .error e ∧ J.job.resultTx ≠ .none ∧
      (Executor.report (σ := σ) J.job J.encodeSegments J.run.segments).1 = .returned (.error e)) ∨
    ((Executor.report (σ := σ) J.job J.encodeSegments J.run.segments).1 =
        .returned (.ok ⟨J.run.segments, J.run.segments.length⟩) ∧
      (J.job.resultTx ≠ .none →
        J.plainE2 = .ok (Executor.report (σ := σ) J.job J.encodeSegments J.run.segments).2)) := by
  unfold Executor.report
  by_cases hstreams : Executor.streamsE2 J.job = true
  · rw [if_pos hstreams]
    obtain ⟨htx, hfirst⟩ := Bool.and_eq_true_iff.mp hstreams
    rw [plainE2, if_pos (beq_iff_eq.mp hfirst)]
    cases Executor.executeE2Result J.job J.encodeSegments J.run.segments with
    | error e => exact .inl ⟨e, rfl, bne_iff_ne.mp htx, rfl⟩
    | ok e2 => exact .inr ⟨rfl, fun _ => rfl⟩
  · rw [if_neg hstreams]
    refine .inr ⟨rfl, fun htx => ?_⟩
    have hother : J.job.proverId ≠ 0 := by
      intro hfirst
      exact hstreams (Bool.and_eq_true_iff.mpr ⟨bne_iff_ne.mpr htx, beq_iff_eq.mpr hfirst⟩)
    rw [plainE2, if_neg hother]

private theorem finish_report (J : SerialJob σ) (hsegments : J.run.segments ≠ []) (proofs : List ProofResult) :
    (Executor.report (σ := σ) J.job J.encodeSegments J.run.segments).1.finish J.job J.encodeSegments
    (J.job.keeps proofs) =
      J.plainE2.map fun e2s => J.job.keeps (e2s ++ proofs) := by
  rcases report_cases J with ⟨e, he2, -, hreport⟩ | ⟨hreport, he2⟩
  · rw [hreport, he2]
    rfl
  · have hlength : ¬J.run.segments.length = 0 := fun hnone => hsegments (List.length_eq_zero_iff.mp hnone)
    rw [hreport]
    show (if J.run.segments.length = 0 then _ else _) = _
    rw [if_neg hlength]
    by_cases htx : J.job.resultTx = .none
    · have hkeeps : ∀ results, J.job.keeps results = results := fun results => if_pos htx
      simp only [hkeeps]
      by_cases hfirst : J.job.proverId = 0
      · rw [if_pos ⟨hfirst, htx⟩, plainE2, if_pos hfirst]
        cases Executor.executeE2Result J.job J.encodeSegments J.run.segments with
        | error e => rfl
        | ok e2 => rfl
      · rw [if_neg (fun h => hfirst h.1), plainE2, if_neg hfirst]
        rfl
    · have hkeeps : ∀ results, J.job.keeps results = [] := fun results => if_neg htx
      rw [if_neg (fun h => htx h.2), he2 htx, hkeeps]
      show _ = Except.ok (J.job.keeps _)
      rw [hkeeps]
      rfl

private theorem streams_report_plain (J : SerialJob σ) {e2s : List ProofResult} (h : J.plainE2 = .ok e2s) :
    J.job.streams (Executor.report (σ := σ) J.job J.encodeSegments J.run.segments).2 = J.job.streams e2s := by
  rcases report_cases J with ⟨e, he2, -⟩ | ⟨-, he2⟩
  · cases he2.symm.trans h
  · by_cases htx : J.job.resultTx = .none
    · have hstreams : ∀ results, J.job.streams results = [] := fun results =>
        if_neg (by rw [htx]; exact ResultTx.noConfusion)
      rw [hstreams, hstreams]
    · rw [Except.ok.inj ((he2 htx).symm.trans h)]

/-- How the job stands that came to this answer. -/
structure AnswersPlainly (J : SerialJob σ) (tools : SegmentTools σ P M) (stateAt : Nat → σ) (s : State σ)
    (answer : Except String (List ProofResult)) : Prop where
  plain : answer = J.plainAnswer tools stateAt
  /-- A success has streamed its results in the order of the segments, and the ExecuteE2 result at some point. -/
  streamed : ∀ results, answer = .ok results → ∃ e2s proofs, J.plainResults tools stateAt = .ok (e2s, proofs) ∧
    s.producerSaid = J.job.streams e2s ∧ s.consumerSaid = J.job.streams proofs

private theorem report_returned (J : SerialJob σ) :
    ∃ result, (Executor.report (σ := σ) J.job J.encodeSegments J.run.segments).1 = .returned result := by
  rcases report_cases J with ⟨e, -, -, hreport⟩ | ⟨hreport, -⟩
  · exact ⟨_, hreport⟩
  · exact ⟨_, hreport⟩

theorem plays_start (tools : SegmentTools σ P M) (hid : J.job.proverId < J.job.numProvers)
    (hexits : J.run.ending = .exits 0)
    (hsegments : J.run.segments ≠ []) :
    Plays J tools (.start J.job J.run.initial) (J.job.ownedBelow J.run.segments.length) := by
  have hplays : Plays J tools _ _ :=
    plays_suspended hid hexits (List.length_pos_iff.mpr hsegments) (Executor.onSchedule_start hid)
  rwa [Nat.sub_zero, ← List.range_eq_range'] at hplays

/-- A failed prover answers with its failure, unless its executor has panicked. -/
theorem answer_of_failed {s : State σ} {failed : ProverFailure} (hconsumer : s.consumer = .failed failed)
    (hreturned : ∀ executor, s.producer = .ended executor → ∃ result, executor = .returned result)
    {answer : Except String (List ProofResult)} (hanswer : J.answer s = some answer) :
    answer = .error failed.report := by
  obtain ⟨failure, segmentIdx⟩ := failed
  rw [SerialJob.answer, hconsumer] at hanswer
  cases hproducer : s.producer with
  | running executor =>
    rw [hproducer] at hanswer
    cases failure with
    | encode e => exact (Option.some.inj hanswer).symm
    | fastForward | starkProve | finalMemory | topTree | deferralPath | depth0 => cases hanswer
  | ended executor =>
    obtain ⟨result, rfl⟩ := hreturned executor hproducer
    rw [hproducer] at hanswer
    cases failure with
    | encode | fastForward | starkProve | finalMemory | topTree | deferralPath | depth0 =>
      exact (Option.some.inj hanswer).symm

/-- Where the two threads have come to an answer, it is that of one machine. -/
theorem answersPlainly {stateAt : Nat → σ} (htrajectory : Trajectory J.run tools.executeFromState stateAt)
    (hsegments : J.run.segments ≠ []) {items : List (ProveData σ)}
    (howned : items.map (·.segmentIdx) = J.job.ownedBelow J.run.segments.length)
    (hitems : ∀ data ∈ items, Executor.Scheduled J.run data.segmentIdx data ∧
      data.isFinal = J.run.isTerminal data.segmentIdx) {s : State σ}
    (halong : Along (J.parties tools) [] items
      (J.job.streams (Executor.report (σ := σ) J.job J.encodeSegments J.run.segments).2)
      (Executor.report J.job J.encodeSegments J.run.segments).1 s)
    {answer : Except String (List ProofResult)} (hanswer : J.answer s = some answer) :
    AnswersPlainly J tools stateAt s answer := by
  have hplain := consumeAll_plain htrajectory hitems []
  rw [howned] at hplain
  obtain ⟨result, hreturned⟩ := report_returned J
  cases hconsumer : s.consumer with
  | waiting results | busy results data =>
    rw [SerialJob.answer, hconsumer] at hanswer
    cases hanswer
  | failed failed =>
    obtain ⟨herror, hended⟩ := halong.of_failed hconsumer
    have hfailed : J.plainProofs tools stateAt (J.job.ownedBelow J.run.segments.length) = .error failed := by
      rw [hplain] at herror
      cases hproofs : J.plainProofs tools stateAt (J.job.ownedBelow J.run.segments.length) with
      | ok states =>
        rw [hproofs] at herror
        cases herror
      | error e =>
        rw [hproofs] at herror
        exact congrArg _ (Except.error.inj herror)
    have hreport : answer = .error failed.report := by
      refine answer_of_failed hconsumer (fun executor hproducer => ?_) hanswer
      rcases hended executor hproducer with rfl | rfl
      · exact ⟨result, hreturned⟩
      · exact ⟨_, rfl⟩
    have hplainAnswer : J.plainResults tools stateAt = .error failed.report := by
      rw [plainResults, hfailed]
      rfl
    refine ⟨?_, fun results hok => ?_⟩
    · rw [plainAnswer, hplainAnswer, hreport]
      rfl
    · cases hreport.symm.trans hok
  | drained results =>
    obtain ⟨hconsumed, hended, hsaid⟩ := halong.of_drained hconsumer
    rw [hplain] at hconsumed
    obtain ⟨states, hproofs, hresults⟩ := map_ok_iff.mp hconsumed
    obtain ⟨rfl, hstreamed⟩ := Prod.mk.inj hresults
    have hfinish : answer = J.plainE2.map fun e2s => J.job.keeps (e2s ++ states.map J.job.appProof) := by
      rw [← finish_report J hsegments]
      rw [SerialJob.answer, hconsumer, hended] at hanswer
      exact (Option.some.inj hanswer).symm
    have hplainResults : J.plainResults tools stateAt = J.plainE2.map fun e2s => (e2s, states.map J.job.appProof) := by
      rw [plainResults, hproofs]
      cases J.plainE2 <;> rfl
    refine ⟨?_, fun results hok => ?_⟩
    · rw [plainAnswer, hplainResults, hfinish]
      cases J.plainE2 <;> rfl
    · obtain ⟨e2s, he2, -⟩ := map_ok_iff.mp (hfinish.symm.trans hok)
      refine ⟨e2s, states.map J.job.appProof, ?_, ?_, hstreamed.symm⟩
      · rw [hplainResults, he2]
        rfl
      · rw [hsaid, streams_report_plain J he2]

/-- Where neither thread can go on, the job has its answer. -/
theorem answer_of_stuck {s : State σ} (hstuck : ∀ next, ¬Pipeline.Step (J.parties tools) s next) :
    (J.answer s).isSome = true := by
  obtain ⟨⟨executor, hproducer⟩, hconsumer⟩ := ended_of_stuck (show 0 < 2 by decide) hstuck
  rcases hconsumer with ⟨⟨failure, segmentIdx⟩, hfailed⟩ | ⟨results, hdrained⟩
  · rw [SerialJob.answer, hfailed, hproducer]
    cases failure <;> cases executor <;> rfl
  · rw [SerialJob.answer, hdrained, hproducer]
    rfl

private theorem validate_ok {job : ShardedAppProverJob} (h : job.validate = .ok ()) :
    job.proverId < job.numProvers := by
  unfold ShardedAppProverJob.validate at h
  split at h
  · cases h
  · split at h
    · cases h
    · next hlt => exact Nat.lt_of_not_le hlt

end SerialJob

/-- Whatever the order of the two threads' steps, a sharded app job on one app worker returns what a single machine
does that runs the program and proves the segments of the shard one after the other; every run is finite, where
neither thread can go on there is an answer, and a success has streamed what it does not return. -/
theorem serialJob_plain {σ P M : Type} (J : SerialJob σ) (tools : SegmentTools σ P M) (setup : Except String Unit)
    {stateAt : Nat → σ} (htrajectory : Trajectory J.run tools.executeFromState stateAt)
    (hexits : J.run.ending = .exits 0) (hsegments : J.run.segments ≠ []) :
    (∀ result, J.Returns tools setup result →
      result = shardedAppResult (J.job.validate >>= fun _ => setup >>= fun _ => J.plainAnswer tools stateAt)) ∧
    (J.job.validate = .ok () → ∀ s, Relation.ReflTransGen (Pipeline.Step (J.parties tools)) J.start s →
      Progress.Ends (Pipeline.Step (J.parties tools)) s ∧
      ((∀ next, ¬Pipeline.Step (J.parties tools) s next) → (J.answer s).isSome = true) ∧
      ∀ answer, J.answer s = some answer → SerialJob.AnswersPlainly J tools stateAt s answer) := by
  have hran : J.job.validate = .ok () → ∀ s, Relation.ReflTransGen (Pipeline.Step (J.parties tools)) J.start s →
      Progress.Ends (Pipeline.Step (J.parties tools)) s ∧
      ∀ answer, J.answer s = some answer → SerialJob.AnswersPlainly J tools stateAt s answer := by
    intro hvalid s hrun
    obtain ⟨moves, items, hproduces, howned, hitems⟩ :=
      SerialJob.plays_start tools (SerialJob.validate_ok hvalid) hexits hsegments
    refine ⟨?_, fun answer => ?_⟩
    · obtain ⟨weight, hweight⟩ := weighs_of_run hproduces hrun
      exact ends_of_weighs hweight
    · exact SerialJob.answersPlainly htrajectory hsegments howned hitems (along_of_run hproduces hrun)
  refine ⟨fun result hreturns => ?_, fun hvalid s hrun => ?_⟩
  · cases hreturns with
    | @refused e h =>
      have hrefused : (J.job.validate >>= fun _ => setup >>= fun _ => J.plainAnswer tools stateAt) = .error e := by
        rw [← bind_assoc, h]
        rfl
      rw [hrefused]
    | @ran s answer h hrun hanswer =>
      obtain ⟨⟨⟩, hvalid, hsetup⟩ := bind_ok_iff.mp h
      rw [hvalid, hsetup, ((hran hvalid s hrun).2 answer hanswer).plain]
      rfl
  · obtain ⟨hends, hanswers⟩ := hran hvalid s hrun
    exact ⟨hends, SerialJob.answer_of_stuck, hanswers⟩

/-- The first of two provers, which owns the first of two segments. -/
def twoSegmentShard : SerialJob Nat where
  job := ⟨sampleContext .evm, 2, 0, 1, .receiverOpen, ["deferral"]⟩
  run := twoSegments
  encodeSegments _ := .ok []

/-- Its threads come to an end, with the ExecuteE2 result and the proof of the first segment streamed. -/
theorem serialJob_plain_two : ∃ s, Relation.ReflTransGen (Pipeline.Step (twoSegmentShard.parties countingTools))
      twoSegmentShard.start s ∧ twoSegmentShard.answer s = some (.ok []) ∧
    s.producerSaid = [.executeE2 ⟨sampleContext .evm, 2, [], 0⟩] ∧
    s.consumerSaid = [.app ⟨sampleContext .evm, some [0, 8], 0, none, none⟩] := by
  have hserial := (serialJob_plain twoSegmentShard countingTools (.ok ()) trajectory_twoSegments rfl (by decide)).2 rfl
  obtain ⟨s, hrun, hstuck⟩ := (hserial _ .refl).1.exists_last
  obtain ⟨-, hsome, hanswers⟩ := hserial s hrun
  obtain ⟨answer, hanswer⟩ := Option.isSome_iff_exists.mp (hsome hstuck)
  obtain ⟨hplain, hstreamed⟩ := hanswers answer hanswer
  obtain rfl : answer = .ok [] := hplain
  obtain ⟨e2s, proofs, hresults, hproducer, hconsumer⟩ := hstreamed [] rfl
  obtain ⟨rfl, rfl⟩ := Prod.mk.inj (Except.ok.inj hresults)
  exact ⟨s, hrun, hanswer, hproducer, hconsumer⟩

end EdgeProver
