import EdgeProver.Manager.DrainSound
import EdgeProver.Manager.DrainTtl

/-! The drain comes to its end: no worker has more slots taken than there are items and reports under way on it,
as long as the handlers account for what they handle. -/
namespace EdgeProver
open Replace

/-- The worker has its shard only. Unless it is one of `failing`, whose shards end with an Error, every segment it
reported is accounted for or about to be. -/
structure Duties.Waiting (D : Duties) (numWorkers : Nat) (failing : List Nat) (known : Option Nat) (load : Nat)
    (reports : List ProofResult) (w : EdgeWorkerState) : Prop where
  marked : w.Marked
  empty : load = 0
  ending : w.id ∉ D.failed ∧ reports.filter ProofResult.givesBack = [] ∨
    w.id ∈ D.failed ∧ ∃ e, reports.filter ProofResult.givesBack = [.error e]
  unfinished : workerCompletedAllSegments w.id w.completedSegments numWorkers known = false
  told : w.id ∉ failing → ∀ segment, (w.id, segment) ∈ D.segments →
    segment ∈ w.completedSegments ∨ segment ∈ reports.filterMap ProofResult.segment

/-- Every slot of the worker is taken by an item or by a report that is being handled. -/
structure Busy (load : Nat) (reports : List ProofResult) (w : EdgeWorkerState) : Prop where
  free : w.runs .shardedAppProve = false
  slots : w.activeProofCount ≤ load + reports.countP ProofResult.givesBack
  active : w.activeProofCount ≤ w.activeProofs.length

/-- No slot of the worker is taken for nothing. -/
def Bounded (D : Duties) (numWorkers : Nat) (failing : List Nat) (known : Option Nat) (load : Nat)
    (reports : List ProofResult) (w : EdgeWorkerState) : Prop :=
  D.Waiting numWorkers failing known load reports w ∨ Busy load reports w

namespace Busy
variable {load : Nat} {reports : List ProofResult} {w : EdgeWorkerState}

/-- An idle worker takes no slot. -/
theorem idle (hcount : w.activeProofCount = 0) (hproofs : w.activeProofs = []) : Busy load reports w :=
  ⟨by simp [EdgeWorkerState.runs, hproofs], by omega, by omega⟩

theorem finishShard (h : Busy load reports w) : Busy load reports w.finishShard := by
  have hsame : w.finishShard.activeProofs = w.activeProofs := by
    refine List.filter_eq_self.mpr fun active hactive => ?_
    have hother := List.any_eq_false.mp h.free active hactive
    simpa using hother
  refine ⟨EdgeWorkerState.runs_of_sublist h.free List.filter_sublist, ?_, ?_⟩
  · exact (Nat.sub_le _ _).trans h.slots
  · rw [hsame]
    exact (Nat.sub_le _ _).trans h.active

theorem finish {result : ProofResult} (h : Busy load (result :: reports) w) (hback : result.givesBack = true)
    (step : Step) : Busy load reports (w.finish step) := by
  have hslots := h.slots
  rw [List.countP_cons_of_pos hback] at hslots
  refine ⟨EdgeWorkerState.runs_of_sublist h.free List.eraseP_sublist, ?_, ?_⟩
  · simp only [EdgeWorkerState.finish]
    omega
  · have hactive := h.active
    have hlength := List.length_eraseP (p := (·.step == step)) (l := w.activeProofs)
    simp only [EdgeWorkerState.finish]
    split at hlength <;> omega

theorem finishFirst {e : ErrorResult} (h : Busy load (.error e :: reports) w) : Busy load reports w.finishFirst := by
  have hslots := h.slots
  rw [List.countP_cons_of_pos rfl] at hslots
  have hactive := h.active
  unfold EdgeWorkerState.finishFirst
  split
  · rename_i hnone
    have hlength := congrArg List.length (List.isEmpty_iff.mp hnone)
    rw [List.length_nil] at hlength
    exact ⟨h.free, by omega, by omega⟩
  · refine ⟨EdgeWorkerState.runs_of_sublist h.free (List.eraseIdx_sublist _ _), ?_, ?_⟩
    · simp only
      omega
    · simp only
      rw [List.length_eraseIdx]
      split <;> omega

end Busy

namespace Bounded
variable {D : Duties} {numWorkers load : Nat} {failing : List Nat} {known : Option Nat}
  {reports reports' : List ProofResult} {w : EdgeWorkerState}

theorem congr (h : Bounded D numWorkers failing known load reports w) {D' : Duties}
    (hsegments : ∀ segment, (w.id, segment) ∈ D'.segments ↔ (w.id, segment) ∈ D.segments)
    (hfailed : w.id ∈ D'.failed ↔ w.id ∈ D.failed) (hreports : reports.Perm reports') :
    Bounded D' numWorkers failing known load reports' w := by
  have hback := hreports.filter ProofResult.givesBack
  refine h.imp (fun hw => ⟨hw.marked, hw.empty, ?_, hw.unfinished, fun hnot segment hmem => ?_⟩) fun hb => ?_
  · obtain ⟨hwhole, hnil⟩ | ⟨hmem, e, hone⟩ := hw.ending
    · exact .inl ⟨fun hmem => hwhole (hfailed.mp hmem), (hnil ▸ hback).nil_eq.symm⟩
    · exact .inr ⟨hfailed.mpr hmem, e, List.perm_singleton.mp (hone ▸ hback).symm⟩
  · rw [← (hreports.filterMap ProofResult.segment).mem_iff]
    exact hw.told hnot segment ((hsegments segment).mp hmem)
  · exact ⟨hb.free, hreports.countP_eq _ ▸ hb.slots, hb.active⟩

/-- A new item takes a slot of its own. -/
theorem give (h : Bounded D numWorkers failing known load reports w) {item : EdgeWorkItem}
    (htakes : w.workerRole.takes item.step = true)
    (hfree : w.activeProofCount = 0 ∨ w.runs .shardedAppProve = false) :
    Bounded D numWorkers failing known (load + 1) reports (w.assign item) := by
  obtain hw | hb := h
  · obtain hzero | hruns := hfree
    · have := hw.marked.2.1
      omega
    · rw [hw.marked.runs] at hruns
      simp at hruns
  · have hslots := hb.slots
    have hactive := hb.active
    refine .inr ⟨EdgeWorkerState.runs_assign htakes hb.free, ?_, ?_⟩
    · simp only [EdgeWorkerState.assign]
      omega
    · simp only [EdgeWorkerState.assign, List.length_append, List.length_singleton]
      omega

private theorem busy_of_answer {result : ProofResult}
    (h : Bounded D numWorkers failing known load (result :: reports) w)
    (hback : result.givesBack = true) (hitem : ∀ e, result ≠ .error e) : Busy load (result :: reports) w := by
  refine h.resolve_left fun hw => ?_
  have hending := hw.ending
  rw [List.filter_cons_of_pos hback] at hending
  obtain ⟨-, hnil⟩ | ⟨-, e, hone⟩ := hending
  · simp at hnil
  · exact hitem e (List.cons.inj hone).1

private theorem insertSegment {appProof : AppProof}
    (h : Bounded D numWorkers failing known load (.app appProof :: reports) w) :
    Bounded D numWorkers failing known load reports (w.complete numWorkers known (.app appProof)).2 := by
  simp only [EdgeWorkerState.complete]
  obtain hw | hb := h
  · split
    · obtain ⟨hcount, hproofs⟩ := EdgeWorkerState.Marked.finishShard_idle
        (show (w.insertSegment appProof.state.segmentIdx).Marked from hw.marked)
      exact .inr (.idle hcount hproofs)
    · rename_i hnot
      refine .inl ⟨hw.marked, hw.empty, hw.ending, by simpa using hnot, fun hsound segment hmem => ?_⟩
      obtain hin | hin := hw.told hsound segment hmem
      · exact .inl (Finset.mem_insert_of_mem hin)
      · obtain rfl | hin := List.mem_cons.mp hin
        · exact .inl (Finset.mem_insert_self _ _)
        · exact .inr hin
  · have hrest : Busy load reports (w.insertSegment appProof.state.segmentIdx) := ⟨hb.free, hb.slots, hb.active⟩
    split
    · exact .inr hrest.finishShard
    · exact .inr hrest

/-- A result that is accounted for gives back what it occupied. -/
theorem complete {result : ProofResult} (h : Bounded D numWorkers failing known load (result :: reports) w) :
    Bounded D numWorkers failing known load reports (w.complete numWorkers known result).2 := by
  cases result with
  | app appProof => exact h.insertSegment
  | executeE2 e2 =>
    exact h.imp (fun hw => ⟨hw.marked, hw.empty, hw.ending, hw.unfinished, hw.told⟩) fun hb =>
      ⟨hb.free, hb.slots, hb.active⟩
  | leaf leafProof => exact .inr ((h.busy_of_answer rfl fun e he => by simp at he).finish rfl .leafProve)
  | internal internalProof => exact .inr ((h.busy_of_answer rfl fun e he => by simp at he).finish rfl .internalProve)
  | evm evmProof => exact .inr ((h.busy_of_answer rfl fun e he => by simp at he).finish rfl .evmProve)
  | error e =>
    obtain hw | hb := h
    · obtain ⟨hcount, hproofs⟩ := hw.marked.finishFirst
      exact .inr (.idle hcount hproofs)
    · exact .inr hb.finishFirst

/-- The segment count gives back the slots of the shards that are complete. -/
theorem releaseShard (h : Bounded D numWorkers failing known load reports w) (n : Nat) :
    Bounded D numWorkers failing (some n) load reports (w.releaseShard numWorkers n) := by
  unfold EdgeWorkerState.releaseShard
  obtain hw | hb := h
  · split
    · obtain ⟨hcount, hproofs⟩ := hw.marked.finishShard_idle
      exact .inr (.idle hcount hproofs)
    · rename_i hnot
      refine .inl ⟨hw.marked, hw.empty, hw.ending, ?_, hw.told⟩
      have hcount := hw.marked.2.1
      simp only [EdgeWorkerState.shardDone, Bool.and_eq_true, decide_eq_true_eq, Bool.or_eq_true, not_and_or,
        not_or] at hnot
      simpa using (hnot.resolve_left (by omega)).2
  · split
    · exact .inr hb.finishShard
    · exact .inr hb

private theorem lose {result : ProofResult} (h : Bounded D numWorkers failing known load (result :: reports) w)
    (hback : result.givesBack = false) (hlost : result.segment = none ∨ w.id ∈ failing) :
    Bounded D numWorkers failing known load reports w := by
  refine h.imp (fun hw => ⟨hw.marked, hw.empty, ?_, hw.unfinished, fun hnot segment hmem => ?_⟩) fun hb => ?_
  · have hending := hw.ending
    rwa [List.filter_cons_of_neg (by simp [hback])] at hending
  · have htold := hw.told hnot segment hmem
    rwa [List.filterMap_cons_none (hlost.resolve_right hnot)] at htold
  · have hslots := hb.slots
    rw [List.countP_cons_of_neg (by simp [hback])] at hslots
    exact ⟨hb.free, hslots, hb.active⟩

theorem reportSegment (h : Bounded D numWorkers failing known load reports w) (appProof : AppProof) :
    Bounded (D.report w.id (.segment appProof.state.segmentIdx)) numWorkers failing known load
      (.app appProof :: reports) w := by
  refine h.imp (fun hw => ⟨hw.marked, hw.empty, hw.ending, hw.unfinished, fun hnot segment hmem => ?_⟩) fun hb =>
    ⟨hb.free, hb.slots, hb.active⟩
  obtain heq | hold := List.mem_cons.mp hmem
  · exact .inr ((Prod.mk.inj heq).2 ▸ List.mem_cons_self)
  · exact (hw.told hnot segment hold).imp_right (List.mem_cons_of_mem _)

theorem reportShard (h : Bounded D numWorkers failing known load reports w) (hwhole : w.id ∉ D.failed)
    (e : ErrorResult) :
    Bounded (D.report w.id .shard) numWorkers failing known load (.error e :: reports) w := by
  refine h.imp (fun hw => ⟨hw.marked, hw.empty, .inr ⟨List.mem_cons_self, e, ?_⟩, hw.unfinished, hw.told⟩) fun hb => ?_
  · have hnone := hw.ending.resolve_right fun hfailed => hwhole hfailed.1
    rw [List.filter_cons_of_pos rfl, hnone.2]
  · have hslots := hb.slots
    refine ⟨hb.free, ?_, hb.active⟩
    rw [List.countP_cons_of_pos rfl]
    omega

theorem reportE2 (h : Bounded D numWorkers failing known load reports w) (e2 : ExecuteE2Result) :
    Bounded D numWorkers failing known load (.executeE2 e2 :: reports) w :=
  h.imp (fun hw => ⟨hw.marked, hw.empty, hw.ending, hw.unfinished, hw.told⟩) fun hb => ⟨hb.free, hb.slots, hb.active⟩

theorem reportItem (h : Bounded D numWorkers failing known (load + 1) reports w) {result : ProofResult}
    (hback : result.givesBack = true) : Bounded D numWorkers failing known load (result :: reports) w := by
  obtain hw | hb := h
  · have := hw.empty
    omega
  · have hslots := hb.slots
    refine .inr ⟨hb.free, ?_, hb.active⟩
    rw [List.countP_cons_of_pos hback]
    omega

end Bounded

def AllBounded (D : Duties) (failing : List Nat) (ops : List Op) (st : EdgeProofState) : Prop :=
  ∀ w ∈ st.workers, Bounded D st.numWorkers failing st.numSegments (sendsTo w.id ops + D.itemsOf w.id)
    (reportsOf w.id ops) w

namespace AllBounded
variable {D : Duties} {failing : List Nat} {op : Op} {ops ops' : List Op} {st st' : EdgeProofState}

/-- Steps and duties with the same under way are bounded as well. -/
theorem congr (h : AllBounded D failing ops st) {D' : Duties} (hsegments : D'.segments = D.segments)
    (hfailed : D'.failed = D.failed) (hload : ∀ id, sendsTo id ops' + D'.itemsOf id = sendsTo id ops + D.itemsOf id)
    (hreports : ∀ id, (reportsOf id ops).Perm (reportsOf id ops')) : AllBounded D' failing ops' st := fun w hw => by
  rw [hload]
  exact (h w hw).congr (by simp [hsegments]) (by rw [hfailed]) (hreports w.id)

theorem perm (h : AllBounded D failing ops st) (hops : ops.Perm ops') : AllBounded D failing ops' st :=
  h.congr rfl rfl (fun id => by rw [sendsTo_perm id hops]) fun id => reportsOf_perm id hops

/-- A step that sends nothing and carries no report of a worker of the proof is over. -/
theorem drop (h : AllBounded D failing (op :: ops) st) (hsend : ∀ id, op.sendsTo id = false)
    (hcarries : ∀ w ∈ st.workers, op.carries w.id = none) : AllBounded D failing ops st := fun w hw => by
  have hsends : sendsTo w.id (op :: ops) = sendsTo w.id ops := List.countP_cons_of_neg (by simp [hsend])
  have hreports : reportsOf w.id (op :: ops) = reportsOf w.id ops := List.filterMap_cons_none (hcarries w hw)
  have hold := h w hw
  rwa [hsends, hreports] at hold

/-- A result is accounted for. -/
theorem applyCompletion (h : AllBounded D failing (op :: ops) st) (hids : (st.workers.map (·.id)).Nodup)
    {proofUuid : String} {workerId : Nat} {result : ProofResult} {freed : Bool} (hsend : ∀ id, op.sendsTo id = false)
    (hop : ∀ id, op.carries id = if workerId = id then some result else none)
    (hcall : st.applyCompletion proofUuid workerId result = .ok (freed, st')) : AllBounded D failing ops st' := by
  obtain ⟨worker, workers, hreplaces, rfl, -, rfl⟩ := EdgeProofState.applyCompletion_ok hcall
  have hid := (EdgeProofState.complete_static worker st.numWorkers st.numSegments result).1
  have hsends (id : Nat) : sendsTo id (op :: ops) = sendsTo id ops := List.countP_cons_of_neg (by simp [hsend])
  intro w hw
  obtain rfl | ⟨hmem, hne⟩ := hreplaces.other_of_mem_right (·.id) hids hid hw
  · have hold := h worker hreplaces.mem_left
    have hreports : reportsOf worker.id (op :: ops) = result :: reportsOf worker.id ops :=
      List.filterMap_cons_some (by rw [hop, if_pos rfl])
    rw [hsends, hreports] at hold
    rw [hid]
    exact hold.complete
  · have hreports : reportsOf w.id (op :: ops) = reportsOf w.id ops :=
      List.filterMap_cons_none (by rw [hop, if_neg fun he => hne he.symm])
    have hold := h w hmem
    rwa [hsends, hreports] at hold

/-- Work handed out takes the slots it needs and no more. -/
theorem handsOut (h : AllBounded D failing ops st) (hids : (st.workers.map (·.id)).Nodup) {works : List AssignedWork}
    (hout : HandsOut st works st') : AllBounded D failing (sendTasks works ++ ops) st' := by
  have hnow := hout.forall_workers
    (P := fun k w => Bounded D st.numWorkers failing st.numSegments k (reportsOf w.id ops) w)
    (fun k w item hold htakes hfree => hold.give htakes hfree) hids (fun id => sendsTo id ops + D.itemsOf id) h
  intro w hw
  have hbounded := hnow w hw
  rw [sendsTo_append, sendsTo_sendTasks, reportsOf_append, reportsOf_sendTasks, hout.numWorkers, hout.numSegments,
    List.nil_append, Nat.add_assoc, Nat.add_comm]
  exact hbounded

/-- The segment count frees the shards that are complete. -/
theorem releaseShards (h : AllBounded D failing ops st) (n : Nat) : AllBounded D failing ops
    { st with numSegments := some n, workers := EdgeWorkerState.releaseShards st.numWorkers n st.workers } := by
  intro w hw
  obtain ⟨old, hold, rfl | ⟨rfl, hnone⟩⟩ := EdgeWorkerState.mem_releaseShards hw
  · rw [EdgeWorkerState.releaseShard_id]
    exact (h old hold).releaseShard n
  · refine (h w hold).imp_left fun hw => ⟨hw.marked, hw.empty, hw.ending, ?_, hw.told⟩
    simp [workerCompletedAllSegments, hnone]

/-- A worker that is released has no slot taken. -/
theorem releaseWorker (h : AllBounded D failing ops st) (workerId : Nat) :
    AllBounded D failing ops (st.releaseWorker workerId) := by
  unfold EdgeProofState.releaseWorker
  split
  · rename_i worker idx hfind
    obtain ⟨hget, -⟩ := find_zipIdx_some (fun w : EdgeWorkerState => w.id == workerId) hfind
    intro w hw
    obtain rfl | hmem := (replaces_set hget worker.release).of_mem_right hw
    · exact .inr (.idle rfl rfl)
    · exact h w hmem
  · exact h

end AllBounded

/-- The handler goes on to account for the result: the proof is failing already, or it takes the result without an
error and is not sealed by it. -/
def HandsOn (proofUuid : String) (c : Choice) (m : Manager) (envelope : MessageEnvelope ProofResult) : Prop :=
  envelope.message.context.proofUuid = proofUuid ∧ ∃ ps, m.proof = some ps ∧
    (ps.status.isFailing = true ∨
      ∃ requests, (ps.handleProofResultWithEnvelopeOutcome c.now envelope).2 = .ok (.processed requests false))

/-- The handler goes on to record the segment count: the proof takes the result without an error. -/
def Records (proofUuid : String) (c : Choice) (m : Manager) (envelope : MessageEnvelope ProofResult) : Prop :=
  envelope.message.context.proofUuid = proofUuid ∧ ∃ ps, m.proof = some ps ∧ ∃ requests sealedForResults,
    (ps.handleProofResultWithEnvelopeOutcome c.now envelope).2 = .ok (.processed requests sealedForResults)

section
variable {proofUuid : String} {c : Choice} {m : Manager} {workerId : Nat} {envelope : MessageEnvelope ProofResult}

private theorem brings_process {ps : ProofState} (hcontext : envelope.message.context.proofUuid = proofUuid)
    (hps : m.proof = some ps) : Op.brings proofUuid c m (.process workerId envelope) =
      afterProcess workerId envelope.message (ps.handleProofResultWithEnvelopeOutcome c.now envelope).2 := by
  simp [Op.brings, Op.exec, hcontext, hps, goOn]

private theorem late_of_failing {ps : ProofState} (h : ps.status.isFailing = true) (now : Time) :
    (ps.handleProofResultWithEnvelopeOutcome now envelope).2 = .ok (.late (!ps.lateResultNoticeEmitted) ps.status) := by
  have hsealed : ps.isSealedForResults = true := ProofState.sealed_of_status fun hst => by
    simp [hst, ProofStatus.isFailing] at h
  rw [ProofState.handleProofResultWithEnvelopeOutcome, if_pos hsealed]

private theorem reportsOf_process (id : Nat) :
    reportsOf id [.process workerId envelope] = if workerId = id then [envelope.message] else [] := by
  unfold reportsOf Op.carries
  by_cases hid : workerId = id <;> simp [hid]

/-- A handler that goes on to account for the result still carries it. -/
theorem HandsOn.reportsOf (h : HandsOn proofUuid c m envelope) (id : Nat) :
    reportsOf id (Op.brings proofUuid c m (.process workerId envelope)) =
      EdgeProver.reportsOf id [.process workerId envelope] := by
  obtain ⟨hcontext, ps, hps, htakes⟩ := h
  have hrest (requests : List GeneralProveRequest) : (requests.map Op.enqueue).filterMap (Op.carries id) = [] := by
    rw [List.filterMap_map]
    exact List.filterMap_eq_nil_iff.mpr fun request hrequest => rfl
  rw [brings_process hcontext hps, reportsOf_process]
  obtain hfailing | ⟨requests, hprocessed⟩ := htakes
  · rw [late_of_failing hfailing]
    by_cases hid : workerId = id
    · simp [EdgeProver.reportsOf, afterProcess, hfailing, Op.carries, hid]
    · simp [EdgeProver.reportsOf, afterProcess, hfailing, Op.carries, hid]
  · rw [hprocessed]
    simp only [EdgeProver.reportsOf, afterProcess, List.filterMap_append, hrest, List.append_nil]
    by_cases hid : workerId = id
    · split <;> simp [Op.carries, hid, List.filterMap_cons]
    · split <;> simp [Op.carries, hid, List.filterMap_cons]

/-- A handler that goes on to record the count is about to. -/
theorem Records.learned (h : Records proofUuid c m envelope) {e2 : ExecuteE2Result}
    (he2 : envelope.message = .executeE2 e2) :
    e2.state.numSegments ∈ learned (Op.brings proofUuid c m (.process workerId envelope)) := by
  obtain ⟨hcontext, ps, hps, requests, sealedForResults, hprocessed⟩ := h
  rw [brings_process hcontext hps, hprocessed, he2]
  exact mem_learned.mpr ⟨.setNumSegments e2.state.numSegments, by simp [afterProcess], rfl⟩

end

namespace AllBounded
variable {D : Duties} {failing : List Nat} {ops : List Op} {st : EdgeProofState}

/-- Where a handler hands its report on, or loses a segment of a shard that ends with an Error, all stay bounded. -/
theorem process {op : Op} (h : AllBounded D failing (op :: ops) st) {proofUuid : String} {c : Choice} {m : Manager}
    {workerId : Nat} {envelope : MessageEnvelope ProofResult} (hop : op = .process workerId envelope)
    (hkept : HandsOn proofUuid c m envelope ∨ envelope.message.givesBack = false ∧
      (envelope.message.segment = none ∨ workerId ∈ failing)) :
    AllBounded D failing (Op.brings proofUuid c m (.process workerId envelope) ++ ops) st := fun w hw => by
  subst hop
  have hold := h w hw
  have hsends : sendsTo w.id (Op.brings proofUuid c m (.process workerId envelope) ++ ops) =
      sendsTo w.id (.process workerId envelope :: ops) := by
    rw [sendsTo_append, sendsTo_brings (by simp [Op.kind]), Nat.zero_add]
    rfl
  have hcons : reportsOf w.id (.process workerId envelope :: ops) =
      reportsOf w.id [.process workerId envelope] ++ reportsOf w.id ops := reportsOf_append w.id [_] ops
  rw [hsends, reportsOf_append]
  rw [hcons] at hold
  obtain hon | ⟨hback, hlost⟩ := hkept
  · rwa [hon.reportsOf]
  · have hsub : (reportsOf w.id (Op.brings proofUuid c m (.process workerId envelope))).Sublist
        (reportsOf w.id [.process workerId envelope]) := reportsOf_brings
    rw [reportsOf_process] at hsub hold
    split at hsub
    · rename_i hid
      rw [if_pos hid] at hold
      obtain hnil | hsame := List.sublist_singleton.mp hsub
      · rw [hnil]
        exact hold.lose hback (hid ▸ hlost)
      · rwa [hsame]
    · rename_i hid
      rw [if_neg hid] at hold
      rwa [List.sublist_nil.mp hsub]

end AllBounded

/-- Every dispatch reaches its worker in the end, and each report is of something its worker owes. -/
def AllReported (numWorkers n : Nat) (T : Tracked) : DutyLabel → Prop
  | .request task => isRequest task = true ∧ ∀ workerId envelope, task ≠ resultTask workerId envelope
  | .report workerId envelope report => T.duties.Owes numWorkers n workerId envelope.message report
  | .run (.send work retries) c => retries + 1 < maxRetries ∨ T.world.state.delivers c work = true
  | .run _ _ => True

/-- No report gets lost: the handler of each report goes on to account for it, except for segments of the workers
`failing`, and the segment count is recorded unless all of `workers` are `failing`. -/
def NothingLost (proofUuid : String) (workers failing : List Nat) (n : Nat) (T : Tracked) : DutyLabel → Prop
  | .run (.process workerId envelope) c =>
    match envelope.message with
    | .executeE2 _ => Records proofUuid c T.world.state envelope ∨ ∀ id ∈ workers, id ∈ failing
    | .app _ => HandsOn proofUuid c T.world.state envelope ∨ workerId ∈ failing
    | _ => HandsOn proofUuid c T.world.state envelope
  | l => AllReported workers.length n T l

structure SlotsBounded (start : EdgeProofState) (workers failing : List Nat) (n : Nat) (T : Tracked)
    (st : EdgeProofState) : Prop where
  config : st.config = start.config
  known : st.numSegments = none ∨ st.numSegments = some n
  counts : ∀ m ∈ learned T.world.ops, m = n
  executed : T.duties.executed = true →
    st.numSegments ≠ none ∨ learned T.world.ops ≠ [] ∨ ∀ id ∈ workers, id ∈ failing
  bounded : AllBounded T.duties failing T.world.ops st

namespace SlotsBounded
variable {start st st' : EdgeProofState} {workers failing : List Nat} {n : Nat} {T : Tracked} {proofUuid : String}

theorem ids (h : SlotsBounded start workers failing n T st) : st.workers.map (·.id) = start.workers.map (·.id) :=
  ids_of_config h.config

private theorem step (h : SlotsBounded start workers failing n T st) {op : Op} {others : List Op} {W : World}
    {D' : Duties} {c : Choice} {m : Manager} (hold : T.world.ops.Perm (op :: others))
    (hnew : W.ops.Perm (Op.brings proofUuid c m op ++ others)) (hconfig : st'.config = st.config)
    (hknown : st'.numSegments = none ∨ st'.numSegments = some n) (hexecuted : D'.executed = T.duties.executed)
    (hlearns : op.learns ≠ none → st'.numSegments ≠ none ∨ learned (Op.brings proofUuid c m op) ≠ [] ∨
      ∀ id ∈ workers, id ∈ failing)
    (hmono : st.numSegments ≠ none → st'.numSegments ≠ none)
    (hbounded : AllBounded D' failing W.ops st') : SlotsBounded start workers failing n ⟨W, D'⟩ st' := by
  have hperm : T.world.ops.Perm ([op] ++ others) := hold
  refine ⟨hconfig.trans h.config, hknown, fun k hk => h.counts k ?_, fun hdone => ?_, hbounded⟩
  · rw [mem_learned_perm hnew, learned_append, List.mem_append] at hk
    rw [mem_learned_perm hperm, learned_append, List.mem_append]
    exact hk.imp_left fun hk => mem_learned.mpr ⟨op, List.mem_singleton.mpr rfl, learned_brings k hk⟩
  · have hnonempty {k : Nat} (hk : k ∈ learned (Op.brings proofUuid c m op) ∨ k ∈ learned others) :
        learned W.ops ≠ [] := by
      refine List.ne_nil_of_mem (a := k) ?_
      rwa [mem_learned_perm hnew, learned_append, List.mem_append]
    obtain hsome | hlearned | hall := h.executed (hexecuted ▸ hdone)
    · exact .inl (hmono hsome)
    · obtain ⟨k, hk⟩ := List.exists_mem_of_ne_nil _ hlearned
      rw [mem_learned_perm hperm, learned_append, List.mem_append] at hk
      obtain hk | hk := hk
      · obtain ⟨op', hop', hlearnt⟩ := mem_learned.mp hk
        obtain rfl := List.mem_singleton.mp hop'
        refine (hlearns (by simp [hlearnt])).imp_right (Or.imp_left fun hbrings => ?_)
        obtain ⟨k', hk'⟩ := List.exists_mem_of_ne_nil _ hbrings
        exact hnonempty (.inl hk')
      · exact .inr (.inl (hnonempty (.inr hk)))
    · exact .inr (.inr hall)

/-- Once everything is reported and handled, the workers are drained. -/
theorem drained (h : SlotsBounded start workers failing n T st) (hnum : start.numWorkers = workers.length)
    (hworkers : ∀ w ∈ st.workers, w.workerRole.runsStarkProving = true → w.id ∈ workers)
    (hrange : ∀ id ∈ workers, id < workers.length) (hfailing : ∀ id ∈ failing, id ∈ T.duties.failed)
    (hshards : ∀ id ∈ workers, T.duties.ShardReported workers.length n id) (hitems : T.duties.items = [])
    (hexecuted : T.duties.executed = true)
    (hhandled : learned T.world.ops = [] ∧ ∀ id, reportsOf id T.world.ops = [] ∧ sendsTo id T.world.ops = 0) :
    st.isFullyDrained = true := by
  refine List.all_eq_true.mpr fun w hw => ?_
  have hnumWorkers : st.numWorkers = workers.length := (congrArg (·.numWorkers) h.config).trans hnum
  have hbounded := h.bounded w hw
  rw [(hhandled.2 w.id).1, (hhandled.2 w.id).2, hnumWorkers] at hbounded
  obtain hwaiting | hbusy := hbounded
  · -- The shard is reported and nothing is being handled, so the scheduler has seen it complete.
    exfalso
    have hwhole : w.id ∉ T.duties.failed := by
      obtain ⟨hwhole, -⟩ | ⟨-, e, hone⟩ := hwaiting.ending
      · exact hwhole
      · simp at hone
    have hmem := hworkers w hw hwaiting.marked.1
    have hsound : w.id ∉ failing := fun hmem => hwhole (hfailing w.id hmem)
    have hsome : st.numSegments = some n := by
      refine h.known.resolve_left fun hnone => ?_
      obtain hne | hlearned | hall := h.executed hexecuted
      · exact hne hnone
      · exact hlearned hhandled.1
      · exact hsound (hall w.id hmem)
    have hfull : shard w.id workers.length n ⊆ w.completedSegments := fun segment hsegment => by
      have htold := hwaiting.told hsound segment ((hshards w.id hmem).resolve_left hwhole segment hsegment)
      exact htold.resolve_right (List.not_mem_nil)
    have hdone := completed_of_shard_subset (hrange w.id hmem) hfull
    have hnot := hwaiting.unfinished
    rw [hsome, hdone] at hnot
    simp at hnot
  · have hslots := hbusy.slots
    have hzero : w.activeProofCount = 0 := by simpa [Duties.itemsOf, hitems] using hslots
    simp [hzero]

/-- A request that reports nothing changes nothing that is under way. -/
theorem request (h : SlotsBounded start workers failing n T st) {task : List Op} (htask : isRequest task = true)
    (hsilent : ∀ workerId envelope, task ≠ resultTask workerId envelope) :
    SlotsBounded start workers failing n { T with world := { T.world with tasks := task :: T.world.tasks } } st := by
  have hops : ({ T.world with tasks := task :: T.world.tasks } : World).ops = task ++ T.world.ops := rfl
  obtain ⟨hworker, -, hlearned⟩ := idle_of_isRequest htask hsilent
  refine ⟨h.config, h.known, ?_, ?_, ?_⟩
  · simpa only [hops, learned_append, hlearned, List.nil_append] using h.counts
  · simpa only [hops, learned_append, hlearned, List.nil_append] using h.executed
  · refine h.bounded.congr rfl rfl (fun id => ?_) fun id => ?_
    · rw [hops, sendsTo_append, (hworker id).1, Nat.zero_add]
    · rw [hops, reportsOf_append, (hworker id).2, List.nil_append]

/-- A report is under way while it is handled. -/
theorem report (h : SlotsBounded start workers failing n T st) {workerId : Nat}
    {envelope : MessageEnvelope ProofResult} {report : Report}
    (howes : T.duties.Owes workers.length n workerId envelope.message report) :
    SlotsBounded start workers failing n ⟨{ T.world with tasks := resultTask workerId envelope :: T.world.tasks },
      T.duties.report workerId report⟩ st := by
  have hops : ({ T.world with tasks := resultTask workerId envelope :: T.world.tasks } : World).ops =
      .process workerId envelope :: T.world.ops := rfl
  refine ⟨h.config, h.known, ?_, fun hexecuted => ?_, ?_⟩
  · rw [hops]
    exact counts_of_owes h.counts howes
  · rw [hops]
    cases report with
    | executeE2 =>
      obtain ⟨-, e2, he2, -⟩ := howes
      refine .inr (.inl (List.ne_nil_of_mem (a := e2.state.numSegments) ?_))
      exact mem_learned.mpr ⟨.process workerId envelope, List.mem_cons_self, by simp [Op.learns, he2]⟩
    | segment | shard | item =>
      refine (h.executed hexecuted).imp_right (Or.imp_left fun hne => ?_)
      obtain ⟨k, hk⟩ := List.exists_mem_of_ne_nil _ hne
      obtain ⟨op, hop, hlearns⟩ := mem_learned.mp hk
      exact List.ne_nil_of_mem (mem_learned.mpr ⟨op, List.mem_cons_of_mem _ hop, hlearns⟩)
  · rw [hops]
    intro w hw
    have hold := h.bounded w hw
    have hsends : sendsTo w.id (.process workerId envelope :: T.world.ops) = sendsTo w.id T.world.ops := rfl
    by_cases hid : workerId = w.id
    · subst hid
      have hreports : reportsOf w.id (.process w.id envelope :: T.world.ops) =
          envelope.message :: reportsOf w.id T.world.ops := List.filterMap_cons_some (if_pos rfl)
      rw [hsends, hreports]
      cases report with
      | executeE2 =>
        obtain ⟨-, e2, he2, -⟩ := howes
        rw [he2]
        exact (hold.reportE2 e2).congr (fun _ => Iff.rfl) Iff.rfl (List.Perm.refl _)
      | segment segment =>
        obtain ⟨-, -, -, -, appProof, happ, rfl⟩ := howes
        rw [happ]
        exact hold.reportSegment appProof
      | shard =>
        obtain ⟨-, hopen, e, he⟩ := howes
        rw [he]
        exact hold.reportShard (fun hfailed => hopen (.inl hfailed)) e
      | item item =>
        obtain ⟨hitem, hresult⟩ := howes
        rw [← T.duties.itemsOf_report hitem, ← Nat.add_assoc] at hold
        exact (hold.reportItem (givesBack_of_answer hresult).1).congr (fun _ => Iff.rfl) Iff.rfl (List.Perm.refl _)
    · obtain ⟨hsegments, hfailed, hsame⟩ := T.duties.report_other hid report
      have hreports : reportsOf w.id (.process workerId envelope :: T.world.ops) = reportsOf w.id T.world.ops :=
        List.filterMap_cons_none (if_neg hid)
      rw [hsends, hreports, hsame]
      exact hold.congr hsegments hfailed (List.Perm.refl _)

private theorem process (h : SlotsBounded start workers failing n T st) {workerId : Nat}
    {envelope : MessageEnvelope ProofResult} {c : Choice} {others : List Op} {W : World}
    (hold : T.world.ops.Perm (.process workerId envelope :: others))
    (hnew : W.ops.Perm (Op.brings proofUuid c T.world.state (.process workerId envelope) ++ others))
    (hallowed : NothingLost proofUuid workers failing n T (.run (.process workerId envelope) c)) :
    SlotsBounded start workers failing n ⟨W, T.duties⟩ st := by
  have hkept : HandsOn proofUuid c T.world.state envelope ∨ envelope.message.givesBack = false ∧
      (envelope.message.segment = none ∨ workerId ∈ failing) := by
    cases hmessage : envelope.message with
    | executeE2 e2 => exact .inr ⟨rfl, .inl rfl⟩
    | app appProof =>
      simp only [NothingLost, hmessage] at hallowed
      exact hallowed.imp_right fun hmem => ⟨rfl, .inr hmem⟩
    | leaf | internal | evm | error =>
      simp only [NothingLost, hmessage] at hallowed
      exact .inl hallowed
  have hbounded : AllBounded T.duties failing (.process workerId envelope :: others) st := h.bounded.perm hold
  refine h.step hold hnew rfl h.known rfl (fun hlearns => ?_) id ((hbounded.process rfl hkept).perm hnew.symm)
  cases hmessage : envelope.message with
  | executeE2 e2 =>
    simp only [NothingLost, hmessage] at hallowed
    exact .inr (hallowed.imp_left fun hrecords => List.ne_nil_of_mem (hrecords.learned hmessage))
  | _ => simp [Op.learns, hmessage] at hlearns

/-- A step that leaves the scheduler alone keeps what is sent to a worker or accepted by it. -/
private theorem load_brings {numWorkers : Nat} {op : Op} {c : Choice} (htouches : op.touchesScheduler = false)
    (hallowed : AllReported numWorkers n T (.run op c)) (id : Nat) :
    sendsTo id (op.brings proofUuid c T.world.state) + (T.duties.run c T.world.state op).itemsOf id =
      sendsTo id [op] + T.duties.itemsOf id := by
  cases op with
  | send work retries =>
    have hone : sendsTo id [.send work retries] = if work.workerId == id then 1 else 0 := List.countP_singleton
    have hduties : T.duties.run c T.world.state (.send work retries) = if T.world.state.delivers c work then
        { T.duties with items := (work.workerId, work.item) :: T.duties.items } else T.duties := rfl
    by_cases hdelivers : T.world.state.delivers c work = true
    · have hnone : sendsTo id (Op.brings proofUuid c T.world.state (.send work retries)) = 0 := by
        simp only [Op.brings, Op.exec, if_pos hdelivers, goOn]
        split <;> rfl
      rw [hnone, hone, hduties, if_pos hdelivers]
      simp only [Duties.itemsOf, List.countP_cons]
      omega
    · have hretry : ¬ retries + 1 ≥ maxRetries := by
        have := hallowed.resolve_right hdelivers
        omega
      have hagain : sendsTo id (Op.brings proofUuid c T.world.state (.send work retries)) =
          sendsTo id [.send work retries] := by
        simp only [Op.brings, Op.exec, if_neg hdelivers, if_neg hretry]
        rfl
      rw [hagain, hduties, if_neg hdelivers]
  | kickoff appWorkers remaining failures =>
    rw [sendsTo_brings (by simp [Op.kind]), Duties.itemsOf, (T.duties.run_kickoff ..).1]
    rfl
  | setNumSegments | workerCompleted | workerDrained | enqueue | releaseWorker | removeProof =>
    simp [Op.touchesScheduler] at htouches
  | _ =>
    rw [sendsTo_brings (by simp [Op.kind])]
    rfl

/-- Once a step loses no report, the slots stay bounded. -/
theorem run (h : SlotsBounded start workers failing n T st) (hids : (start.workers.map (·.id)).Nodup)
    {op : Op} {c : Choice} {W : World} (hst : T.world.state.scheduler = some st)
    (hstep : WorldStep proofUuid T.world (.run op c) W)
    (hallowed : NothingLost proofUuid workers failing n T (.run op c))
    (hst' : W.state.scheduler = some st') :
    SlotsBounded start workers failing n ⟨W, T.duties.run c T.world.state op⟩ st' := by
  obtain ⟨hstate, others, hold, hnew⟩ := TaskPool.ops_run hstep
  have hnew : W.ops.Perm (op.brings proofUuid c T.world.state ++ others) := hnew
  rw [hstate] at hst'
  obtain ⟨st₀, hst₀, hconfig⟩ := config_exec hst'
  obtain rfl := Option.some.inj (hst₀.symm.trans hst)
  have hids : (st₀.workers.map (·.id)).Nodup := h.ids ▸ hids
  have hbounded : AllBounded T.duties failing (op :: others) st₀ := h.bounded.perm hold
  by_cases htouches : op.touchesScheduler = true
  · obtain ⟨works, hbrings, heffect⟩ := effect_of_touches hst htouches hst'
    have hsends : W.ops.Perm (sendTasks works ++ others) := hbrings ▸ hnew
    have hduties : T.duties.run c T.world.state op = T.duties := by
      cases op <;> simp_all [Op.touchesScheduler, Duties.run]
    rw [hduties]
    have hafter : AllBounded T.duties failing (sendTasks works ++ others) st' := by
      cases heffect with
      | setNumSegments hout =>
        have hsame := hout.ids.symm.trans (ids_of_config hconfig)
        exact ((hbounded.drop (fun _ => rfl) fun _ _ => rfl).releaseShards _).handsOut (hsame ▸ hids) hout
      | completed hop hcall hout =>
        have hcounted := hbounded.applyCompletion hids (fun id => by obtain rfl | rfl := hop <;> rfl)
          (fun id => by obtain rfl | rfl := hop <;> rfl) hcall
        have hsame := ids_of_config (EdgeProofState.config_applyCompletion hcall)
        exact hcounted.handsOut (hsame ▸ hids) hout
      | @stranger op workerId result hop hunknown =>
        refine hbounded.drop (fun id => by obtain rfl | rfl := hop <;> rfl) fun w hw => ?_
        have hne : workerId ≠ w.id := fun heq => hunknown (heq ▸ List.mem_map_of_mem hw)
        obtain rfl | rfl := hop <;> exact if_neg hne
      | enqueue hout => exact (hbounded.drop (fun _ => rfl) fun _ _ => rfl).handsOut hids hout
      | releaseWorker id => exact (hbounded.releaseWorker id).drop (fun _ => rfl) fun _ _ => rfl
    obtain ⟨m, rfl, hsome⟩ | ⟨hsilent, hsame⟩ := heffect.numSegments
    · have hm : m = n := h.counts m (mem_learned.mpr ⟨_, TaskPool.op_mem hstep, rfl⟩)
      exact h.step hold hnew hconfig (.inr (hm ▸ hsome)) rfl (fun _ => .inl (by simp [hsome]))
        (fun _ => by simp [hsome])
        (hafter.perm hsends.symm)
    · exact h.step hold hnew hconfig (hsame ▸ h.known) rfl (fun hlearns => absurd hsilent hlearns)
        (fun hsome => hsame ▸ hsome) (hafter.perm hsends.symm)
  · rw [scheduler_exec (by simpa using htouches)] at hst'
    obtain rfl := Option.some.inj (hst.symm.trans hst')
    obtain ⟨hsegments, hfailed, hexecuted⟩ := T.duties.run_reports c T.world.state op
    by_cases hprocess : op.kind = .process
    · cases op with
      | process workerId envelope => exact h.process hold hnew hallowed
      | _ => simp [Op.kind] at hprocess
    · have hreported : AllReported workers.length n T (.run op c) := by
        cases op <;> first | exact absurd rfl hprocess | exact hallowed
      have hcarries (id : Nat) : op.carries id = none := by
        cases op <;> first | rfl | exact absurd rfl hprocess | exact absurd rfl htouches
      have hlearns : op.learns = none := by
        cases op <;> first | rfl | exact absurd rfl hprocess | exact absurd rfl htouches
      have hreports (id : Nat) : reportsOf id (op.brings proofUuid c T.world.state) = [] := by
        have hsub : (reportsOf id (op.brings proofUuid c T.world.state)).Sublist (reportsOf id [op]) := reportsOf_brings
        have hnil : reportsOf id [op] = [] := List.filterMap_cons_none (hcarries id)
        rw [hnil] at hsub
        exact List.sublist_nil.mp hsub
      refine h.step hold hnew rfl h.known hexecuted (fun hne => absurd hlearns hne) id ?_
      refine (hbounded.congr hsegments hfailed (fun id => ?_) fun id => ?_).perm hnew.symm
      · have hload : sendsTo id (op.brings proofUuid c T.world.state) + _ = _ :=
          load_brings (by simpa using htouches) hreported id
        have hcons : sendsTo id (op :: others) = sendsTo id [op] + sendsTo id others := sendsTo_append id [op] others
        rw [sendsTo_append, hcons]
        omega
      · rw [reportsOf_append, hreports, List.nil_append]
        have hcons : reportsOf id (op :: others) = reportsOf id others := List.filterMap_cons_none (hcarries id)
        rw [hcons]

end SlotsBounded

/-- The workers have reported everything they owe, and the handlers of all reports are done with them. -/
structure Tracked.Reported (T : Tracked) (workers : List Nat) (n : Nat) : Prop where
  executed : T.duties.executed = true
  shards : ∀ id ∈ workers, T.duties.ShardReported workers.length n id
  items : T.duties.items = []
  handled : learned T.world.ops = [] ∧ ∀ id, reportsOf id T.world.ops = [] ∧ sendsTo id T.world.ops = 0

section
variable {p : TreeParams} {fleet : List (Nat × RegisteredWorker)} {leafPackThreshold maxLeafProvers n : Nat}
  {staged : Option StagedInputs} {inputAlreadyUploaded : Bool}

/-- As long as nothing is reported or under way, the slots taken are those of the shards. -/
theorem slotsBounded_start (failing : List Nat) {T : Tracked} {shards : List Nat}
    (hduties : T.duties = { Duties.start with shards := shards })
    (hidle : learned T.world.ops = [] ∧ ∀ id, reportsOf id T.world.ops = [] ∧ sendsTo id T.world.ops = 0) :
    SlotsBounded (.initProof fleet leafPackThreshold maxLeafProvers) (appEligibleWorkers fleet) failing n T
      (.initProof fleet leafPackThreshold maxLeafProvers) := by
  refine ⟨rfl, .inl rfl, by simp [hidle.1], fun hexecuted => ?_, fun w hw => ?_⟩
  · simp [hduties, Duties.start] at hexecuted
  · rw [hduties, (hidle.2 w.id).1, (hidle.2 w.id).2]
    obtain ⟨entry, hentry, rfl⟩ := List.mem_map.mp hw
    cases hrole : entry.2.workerRole.runsStarkProving with
    | true =>
      refine .inl ⟨by simp [EdgeWorkerState.Marked, hrole], rfl, .inl ⟨List.not_mem_nil, rfl⟩, rfl,
        fun _ segment hsegment => ?_⟩
      exact absurd hsegment List.not_mem_nil
    | false => exact .inr (.idle (by simp [hrole]) (by simp [hrole]))

end

/-- The step neither handles a report nor sends an item. -/
def Op.idle (op : Op) : Bool :=
  decide (op.kind ∉ [OpKind.process, .setNumSegments, .workerCompleted, .workerDrained, .send])

def Tracked.reported (T : Tracked) (workers : List Nat) (n : Nat) : Bool :=
  T.duties.executed && workers.all (T.duties.shardReported workers.length n) && T.duties.items.isEmpty &&
    T.world.ops.all Op.idle

/-- The proof takes the result without an error and is not sealed by it. -/
def ProofState.takes (ps : ProofState) (now : Time) (envelope : MessageEnvelope ProofResult) : Bool :=
  match (ps.handleProofResultWithEnvelopeOutcome now envelope).2 with
  | .ok (.processed _ sealedForResults) => !sealedForResults
  | _ => false

end EdgeProver
