import EdgeProver.Worker.JobRun
import EdgeProver.Worker.SerialJob

/-! A sharded app job on several app workers against the same job on one. -/
namespace EdgeProver
open Outcome

/-- The job, were its shard proved on a single app worker. -/
def ParallelJob.serial {σ : Type} (J : ParallelJob σ) : SerialJob σ where
  job := { J.job with maxAppProvers := 1 }
  run := J.run
  encodeSegments := J.encodeSegments

namespace ParallelJob
variable {σ P M : Type} {J : ParallelJob σ} {tools : SegmentTools σ P M} {s : ParallelState σ}

private theorem steps_of_stepsWith (h : Relation.ReflTransGen (J.StepWith tools) J.start s) :
    Relation.ReflTransGen J.Step J.start s := h.lift id fun _ _ hstep => hstep.step

private theorem checked_of_success (inv : JobInv J s) {results : List ProofResult}
    (hsuccess : s.outcome = some (.ok (.success results))) : J.job.proverId < J.job.numProvers := by
  obtain ⟨own, hanswered, -, -⟩ := inv.closed results hsuccess
  obtain ⟨result, hreturned⟩ := inv.joined (by rw [hanswered]; rfl)
  exact (inv.sound _ hreturned).1

private theorem made_of_run (hopen : J.job.resultTx ≠ .receiverClosed)
    (hrun : Relation.ReflTransGen (J.StepWith tools) J.start s)
    {r : ProofResult} (hr : r ∈ s.made) :
    (∃ a, r = .app a) ∨ Executor.executeE2Result J.job J.encodeSegments J.run.segments = .ok r := by
  induction hrun with
  | refl =>
    simp only [mem_made, ParallelJob.start, List.mem_replicate] at hr
    rcases hr with hr | hr | ⟨consumer, ⟨-, rfl⟩, hr⟩ | ⟨results, hr, -⟩ <;> cases hr
  | @tail before after hbefore hstep ih =>
    have inv : JobInv J before := JobInv.run jobInv_start hopen (steps_of_stepsWith hbefore)
    rcases hstep.step with hwork | hfault
    · rcases made_work hwork hr with hold | ⟨⟨state, happ⟩, -⟩ | ⟨segments, hexecutor, he2⟩
      · exact ih hold
      · exact .inl ⟨_, happ⟩
      · suffices hsegments : segments = J.run.segments from .inr (hsegments ▸ he2)
        rcases hexecutor with hreporting | ⟨result, hreturned, rfl⟩
        · obtain ⟨-, hschedule | ⟨message, hpanicked⟩⟩ := inv.sound _ hreporting
          · exact hschedule
          · cases hpanicked
        · obtain ⟨-, hschedule | ⟨message, hpanicked⟩⟩ := inv.sound _ hreturned
          · exact (hschedule result rfl).1
          · cases hpanicked
    · exact ih (made_fault hfault hr)

end ParallelJob

namespace ShardEmitted
variable {σ : Type} {J : ParallelJob σ} {emitted : List ProofResult}

/-- With one result for each segment and one ExecuteE2 result at most, no result is there twice. -/
theorem nodup (h : ShardEmitted J emitted) (hkinds : ∀ r ∈ emitted, (∃ a, r = .app a) ∨ r.isExecuteE2 = true) :
    emitted.Nodup := by
  have honce : ∀ p : ProofResult → Bool, emitted.countP p ≤ 1 → ∀ r, p r = true → emitted.count r ≤ 1 := by
    intro p hp r hr
    refine le_trans (List.countP_mono_left fun other _ hother => ?_) hp
    rw [beq_iff_eq.mp hother]
    exact hr
  apply List.nodup_iff_count_le_one.mpr
  intro r
  by_cases hr : r ∈ emitted
  · rcases hkinds r hr with ⟨a, rfl⟩ | he2
    · refine honce (·.appSegment == some a.state.segmentIdx) ?_ _ (beq_self_eq_true _)
      rw [h.segments]
      split <;> omega
    · refine honce (·.isExecuteE2) ?_ _ he2
      rw [h.executeE2]
      split <;> omega
  · rw [List.count_eq_zero_of_not_mem hr]
    exact Nat.zero_le 1

private theorem mem_owned (h : ShardEmitted J emitted) {c : Nat} :
    c ∈ J.job.ownedBelow J.run.segments.length ↔ ∃ a, .app a ∈ emitted ∧ a.state.segmentIdx = c := by
  have hthere : (∃ a, .app a ∈ emitted ∧ a.state.segmentIdx = c) ↔ 0 < emitted.countP (·.appSegment == some c) := by
    rw [List.countP_pos_iff]
    constructor
    · rintro ⟨a, ha, rfl⟩
      exact ⟨_, ha, beq_self_eq_true _⟩
    · rintro ⟨r, hr, hsegment⟩
      cases r with
      | app a => exact ⟨a, hr, Option.some.inj (beq_iff_eq.mp hsegment)⟩
      | executeE2 | leaf | internal | evm | error => cases beq_iff_eq.mp hsegment
  rw [hthere, h.segments, ← count_ownedBelow, List.count_pos_iff]

private theorem executeE2_there (h : ShardEmitted J emitted) :
    (∃ r ∈ emitted, r.isExecuteE2 = true) ↔ J.job.proverId = 0 := by
  rw [← List.countP_pos_iff (p := ProofResult.isExecuteE2), h.executeE2]
  split
  · next hfirst => exact ⟨fun _ => hfirst, fun _ => Nat.one_pos⟩
  · next hfirst => exact ⟨fun h => absurd h (Nat.lt_irrefl 0), fun h => absurd h hfirst⟩

end ShardEmitted

namespace SerialJob
variable {σ P M : Type} {J : SerialJob σ} {tools : SegmentTools σ P M} {stateAt : Nat → σ}

def IsPlain (J : SerialJob σ) (tools : SegmentTools σ P M) (stateAt : Nat → σ) (r : ProofResult) : Prop :=
  J.job.proverId = 0 ∧ Executor.executeE2Result J.job J.encodeSegments J.run.segments = .ok r ∨
  ∃ c ∈ J.job.ownedBelow J.run.segments.length, ∃ state,
    plainSegment J.job.alone tools J.run stateAt c = .ok state ∧ r = J.job.appProof state

private theorem plainSegment_segmentIdx {job : ShardedAppProverJob} {run : MeteredRun σ} {c : Nat}
    {state : AppProofState}
    (h : plainSegment job tools run stateAt c = .ok state) : state.segmentIdx = c := by
  unfold plainSegment at h
  split at h
  · cases h
  · exact (proveSegment_ok h).1

/-- Where every segment of the shard can be proved and the ExecuteE2 result be encoded, these are the results. -/
theorem plainResults_ok
    (hproved : ∀ c ∈ J.job.ownedBelow J.run.segments.length, ∃ state,
      plainSegment J.job.alone tools J.run stateAt c = .ok state)
    (he2 : J.job.proverId = 0 → ∃ e2, Executor.executeE2Result J.job J.encodeSegments J.run.segments = .ok e2) :
    ∃ e2s proofs, J.plainResults tools stateAt = .ok (e2s, proofs) ∧ (e2s ++ proofs).Nodup ∧
      ∀ r, r ∈ e2s ++ proofs ↔ J.IsPlain tools stateAt r := by
  obtain ⟨states, hstates⟩ := forall₂_of_exists hproved
  have hproofs : J.plainProofs tools stateAt (J.job.ownedBelow J.run.segments.length) = .ok states :=
    mapM_ok_iff.mpr (hstates.imp fun c state hstate => mapError_ok_iff.mpr hstate)
  have he2s : ∃ e2s, J.plainE2 = .ok e2s ∧ e2s.Nodup ∧
      ∀ r, r ∈ e2s ↔ J.job.proverId = 0 ∧ Executor.executeE2Result J.job J.encodeSegments J.run.segments = .ok r := by
    by_cases hfirst : J.job.proverId = 0
    · obtain ⟨e2, he2⟩ := he2 hfirst
      refine ⟨[e2], ?_, List.nodup_singleton e2, fun r => ?_⟩
      · rw [plainE2, if_pos hfirst, he2]
        rfl
      · rw [List.mem_singleton, he2]
        exact ⟨fun hr => ⟨hfirst, congrArg _ hr.symm⟩, fun hr => (Except.ok.inj hr.2).symm⟩
    · refine ⟨[], ?_, List.nodup_nil, fun r => ?_⟩
      · rw [plainE2, if_neg hfirst]
      · exact ⟨fun hr => absurd hr List.not_mem_nil, fun hr => absurd hr.1 hfirst⟩
  obtain ⟨e2s, hplainE2, hnodup, hmem⟩ := he2s
  have hsegments : J.job.ownedBelow J.run.segments.length = states.map (·.segmentIdx) := by
    rw [← List.forall₂_eq_eq_eq, List.forall₂_map_right_iff]
    exact hstates.imp fun c state hstate => (plainSegment_segmentIdx hstate).symm
  have honce : (states.map J.job.appProof).Nodup := by
    have howned : (J.job.ownedBelow J.run.segments.length).Nodup := List.nodup_range.filter _
    rw [hsegments] at howned
    refine (List.Nodup.of_map _ howned).map fun state other h => ?_
    cases h
    rfl
  refine ⟨e2s, states.map J.job.appProof, ?_, ?_, fun r => ?_⟩
  · rw [plainResults, hproofs, hplainE2]
    rfl
  · refine List.nodup_append.mpr ⟨hnodup, honce, fun e2 he2 proof hproof => ?_⟩
    obtain ⟨state, -, rfl⟩ := List.mem_map.mp hproof
    rintro rfl
    cases ParallelJob.executeE2Result_isExecuteE2 ((hmem _).mp he2).2
  · rw [List.mem_append, hmem, List.mem_map]
    refine or_congr_right ⟨?_, ?_⟩
    · rintro ⟨state, hstate, rfl⟩
      obtain ⟨c, hc, hplain⟩ := exists_of_forall₂ hstates.flip state hstate
      exact ⟨c, hc, state, hplain, rfl⟩
    · rintro ⟨c, hc, state, hplain, rfl⟩
      obtain ⟨there, hthere, hsame⟩ := exists_of_forall₂ hstates c hc
      obtain rfl := Except.ok.inj (hsame.symm.trans hplain)
      exact ⟨there, hthere, rfl⟩

/-- An answer of the shard that keeps or streams its results has lost none of them. -/
theorem AnswersPlainly.results {s : State σ} {answer : Except String (List ProofResult)}
    (h : AnswersPlainly J tools stateAt s answer) (hopen : J.job.resultTx ≠ .receiverClosed)
    {e2s proofs : List ProofResult}
    (hplain : J.plainResults tools stateAt = .ok (e2s, proofs)) :
    ∃ results, answer = .ok results ∧ s.producerSaid ++ s.consumerSaid ++ results = e2s ++ proofs := by
  have hanswer : answer = .ok (J.job.keeps (e2s ++ proofs)) := by
    rw [h.plain, plainAnswer, hplain]
    rfl
  obtain ⟨e2s', proofs', hplain', hproducer, hconsumer⟩ := h.streamed _ hanswer
  obtain ⟨rfl, rfl⟩ := Prod.mk.inj (Except.ok.inj (hplain.symm.trans hplain'))
  refine ⟨_, hanswer, ?_⟩
  rw [hproducer, hconsumer, ShardedAppProverJob.keeps, ShardedAppProverJob.streams, ShardedAppProverJob.streams]
  cases htx : J.job.resultTx with
  | none => rfl
  | receiverOpen => exact List.append_nil _
  | receiverClosed => exact absurd htx hopen

end SerialJob

namespace ParallelJob
variable {σ P M : Type} {J : ParallelJob σ} {tools : SegmentTools σ P M} {stateAt : Nat → σ} {s : ParallelState σ}

/-- What a job that succeeded has made in parallel, it makes on one machine. -/
theorem perm_plain (hopen : J.job.resultTx ≠ .receiverClosed)
    (htrajectory : Trajectory J.run tools.executeFromState stateAt)
    (hrun : Relation.ReflTransGen (J.StepWith tools) J.start s) {results : List ProofResult}
    (hsuccess : s.outcome = some (.ok (.success results))) :
    ∃ e2s proofs, J.serial.plainResults tools stateAt = .ok (e2s, proofs) ∧
      (s.streamed ++ results).Perm (e2s ++ proofs) := by
  have hemitted := (JobInv.run jobInv_start hopen (steps_of_stepsWith hrun)).accounted hsuccess
  have hmade : ∀ r ∈ s.streamed ++ results, r ∈ s.made := by
    intro r hr
    rcases List.mem_append.mp hr with hr | hr
    · exact mem_made.mpr (.inl hr)
    · exact mem_made.mpr (.inr (.inr (.inr ⟨results, hsuccess, hr⟩)))
  have hkinds : ∀ r ∈ s.streamed ++ results, (∃ a, r = .app a) ∨
      Executor.executeE2Result J.job J.encodeSegments J.run.segments = .ok r :=
    fun r hr => made_of_run hopen hrun (hmade r hr)
  have happ : ∀ a, .app a ∈ s.streamed ++ results → a.context = J.job.context ∧
      plainSegment J.job.alone tools J.run stateAt a.state.segmentIdx = .ok a.state := by
    intro a ha
    obtain ⟨hcontext, hid, data, hsends, hproved⟩ := (traced_of_run hrun).made a (hmade _ ha)
    rw [(proveSegment_ok hproved).1, ← proveSegment_eq_plain hid htrajectory hsends]
    exact ⟨hcontext, hproved⟩
  have he2 : ∀ r ∈ s.streamed ++ results, r.isExecuteE2 = true →
      Executor.executeE2Result J.job J.encodeSegments J.run.segments = .ok r := by
    intro r hr hkind
    rcases hkinds r hr with ⟨a, rfl⟩ | he2
    · cases hkind
    · exact he2
  have hmem : ∀ r, r ∈ s.streamed ++ results ↔ J.serial.IsPlain tools stateAt r := by
    intro r
    constructor
    · intro hr
      rcases hkinds r hr with ⟨a, rfl⟩ | hr2
      · obtain ⟨hcontext, hplain⟩ := happ a hr
        refine .inr ⟨_, hemitted.mem_owned.mpr ⟨a, hr, rfl⟩, _, hplain, ?_⟩
        show ProofResult.app ⟨a.context, a.state⟩ = .app ⟨J.job.context, a.state⟩
        rw [hcontext]
      · exact .inl ⟨hemitted.executeE2_there.mp ⟨r, hr, executeE2Result_isExecuteE2 hr2⟩, hr2⟩
    · rintro (⟨hfirst, hr2⟩ | ⟨c, hc, state, hplain, rfl⟩)
      · obtain ⟨there, hthere, hkind⟩ := hemitted.executeE2_there.mpr hfirst
        obtain rfl := Except.ok.inj ((he2 there hthere hkind).symm.trans hr2)
        exact hthere
      · obtain ⟨a, ha, rfl⟩ := hemitted.mem_owned.mp hc
        obtain ⟨hcontext, hsame⟩ := happ a ha
        obtain rfl := Except.ok.inj (hsame.symm.trans hplain)
        show ProofResult.app ⟨J.job.context, a.state⟩ ∈ _
        rwa [← hcontext]
  obtain ⟨e2s, proofs, hplain, hnodup, hplainMem⟩ := @SerialJob.plainResults_ok σ P M J.serial tools stateAt
    (fun c hc => by
      obtain ⟨a, ha, rfl⟩ := hemitted.mem_owned.mp hc
      exact ⟨a.state, (happ a ha).2⟩)
    (fun hfirst => by
      obtain ⟨there, hthere, hkind⟩ := hemitted.executeE2_there.mpr hfirst
      exact ⟨there, he2 there hthere hkind⟩)
  have hemittedOnce : (s.streamed ++ results).Nodup :=
    hemitted.nodup fun r hr => (hkinds r hr).imp_right executeE2Result_isExecuteE2
  refine ⟨e2s, proofs, hplain, ?_⟩
  exact (List.perm_ext_iff_of_nodup hemittedOnce hnodup).mpr fun r => (hmem r).trans (hplainMem r).symm

end ParallelJob

/-- Where a sharded app job succeeds on several app workers, it succeeds on one, and both paths emit the same results
up to their order. -/
theorem parallel_eq_serial {σ P M : Type} (J : ParallelJob σ) (tools : SegmentTools σ P M)
    (hopen : J.job.resultTx ≠ .receiverClosed) {stateAt : Nat → σ}
    (htrajectory : Trajectory J.run tools.executeFromState stateAt) (hexits : J.run.ending = .exits 0)
    (hsegments : J.run.segments ≠ []) {s : ParallelState σ}
    (hrun : Relation.ReflTransGen (J.StepWith tools) J.start s) {results : List ProofResult}
    (hsuccess : s.outcome = some (.ok (.success results))) {t : SerialJob.State σ}
    (hserial : Relation.ReflTransGen (Pipeline.Step (J.serial.parties tools)) J.serial.start t)
    {answer : Except String (List ProofResult)} (hanswer : J.serial.answer t = some answer) :
    ∃ serialResults, answer = .ok serialResults ∧
      (s.streamed ++ results).Perm (t.producerSaid ++ t.consumerSaid ++ serialResults) := by
  obtain ⟨e2s, proofs, hplain, hperm⟩ := ParallelJob.perm_plain hopen htrajectory hrun hsuccess
  have hid : J.serial.job.proverId < J.serial.job.numProvers :=
    ParallelJob.checked_of_success (JobInv.run jobInv_start hopen (ParallelJob.steps_of_stepsWith hrun)) hsuccess
  obtain ⟨moves, items, hproduces, howned, hitems⟩ := SerialJob.plays_start tools hid hexits hsegments
  have hplainly := SerialJob.answersPlainly htrajectory hsegments howned hitems
    (Pipeline.along_of_run hproduces hserial) hanswer
  obtain ⟨serialResults, hok, hall⟩ := hplainly.results hopen hplain
  exact ⟨serialResults, hok, by rw [hall]; exact hperm⟩

/-- The consumer proves the second segment before the coordinator is done with the first; on one app worker the same
three results come out. -/
theorem parallel_eq_serial_two : ∃ (s : ParallelState Nat) (t : SerialJob.State Nat) (serialResults : List ProofResult),
    s.streamed.map ProofResult.appSegment = [some 1, none, some 0] ∧ s.outcome = some (.ok (.success [])) ∧
      twoSegmentJob.serial.answer t = some (.ok serialResults) ∧
      (s.streamed ++ []).Perm (t.producerSaid ++ t.consumerSaid ++ serialResults) := by
  obtain ⟨s, hrun, houtcome, hstreamed, -⟩ := run_twoSegments
  obtain ⟨moves, items, hproduces, -⟩ :=
    SerialJob.plays_start (J := twoSegmentJob.serial) countingTools (by decide) rfl (by decide)
  obtain ⟨weight, hweight⟩ := Pipeline.weighs_of_run hproduces .refl
  obtain ⟨t, hserial, hstuck⟩ := (Pipeline.ends_of_weighs hweight).exists_last
  obtain ⟨answer, hanswer⟩ := Option.isSome_iff_exists.mp (SerialJob.answer_of_stuck hstuck)
  obtain ⟨serialResults, rfl, hperm⟩ := parallel_eq_serial twoSegmentJob countingTools
    (by decide) trajectory_twoSegments rfl
    (by decide) hrun houtcome hserial hanswer
  exact ⟨s, t, serialResults, hstreamed, houtcome, hanswer, hperm⟩

end EdgeProver
