import EdgeProver.Manager.Sealed
import EdgeProver.Manager.UnderWay
import EdgeProver.Scheduler.Accounting
import EdgeProver.Scheduler.Handing

/-! The slots of a worker cover what is under way on it: what each scheduler call and each report keeps of that. -/
namespace EdgeProver
open Replace

/-- What is reported belongs to the shards, and a failed shard keeps a segment for itself. -/
structure Duties.Sound (D : Duties) (numWorkers n : Nat) : Prop where
  segments : ∀ entry ∈ D.segments, 0 < numWorkers ∧ entry.2 ∈ shard entry.1 numWorkers n
  failed : ∀ id ∈ D.failed, ∃ segment ∈ shard id numWorkers n, (id, segment) ∉ D.segments

/-- A report of what a worker owes keeps it so. -/
theorem Duties.Sound.report {D : Duties} {numWorkers n workerId : Nat} {result : ProofResult} {report : Report}
    (h : D.Sound numWorkers n) (hpos : workerId ∈ D.shards → 0 < numWorkers)
    (howes : D.Owes numWorkers n workerId result report) : (D.report workerId report).Sound numWorkers n := by
  cases report with
  | executeE2 => exact ⟨h.segments, h.failed⟩
  | item item => exact ⟨h.segments, h.failed⟩
  | segment segment =>
    obtain ⟨hshard, hwhole, hmem, -, -⟩ := howes
    refine ⟨List.forall_mem_cons.mpr ⟨⟨hpos hshard, hmem⟩, h.segments⟩, fun id hid => ?_⟩
    obtain ⟨missing, hmissing, hnot⟩ := h.failed id hid
    refine ⟨missing, hmissing, fun hnew => ?_⟩
    obtain heq | hold := List.mem_cons.mp hnew
    · exact hwhole ((Prod.mk.inj heq).1 ▸ hid)
    · exact hnot hold
  | shard =>
    obtain ⟨-, hopen, -⟩ := howes
    refine ⟨h.segments, List.forall_mem_cons.mpr ⟨?_, h.failed⟩⟩
    by_contra hnone
    refine hopen (.inr fun segment hsegment => ?_)
    by_contra hmissing
    exact hnone ⟨segment, hsegment, hmissing⟩

/-- What one worker reports, the other workers still owe. -/
theorem Duties.report_other {D : Duties} {workerId id : Nat} (hne : workerId ≠ id) (report : Report) :
    (∀ segment, (id, segment) ∈ (D.report workerId report).segments ↔ (id, segment) ∈ D.segments) ∧
      (id ∈ (D.report workerId report).failed ↔ id ∈ D.failed) ∧
      (D.report workerId report).itemsOf id = D.itemsOf id := by
  cases report with
  | executeE2 => exact ⟨fun _ => Iff.rfl, Iff.rfl, rfl⟩
  | segment segment => simp [Duties.report, Duties.itemsOf, hne.symm]
  | shard => simp [Duties.report, Duties.itemsOf, hne.symm]
  | item item => simp [Duties.report, Duties.itemsOf, List.countP_erase, hne]

/-- The report of an item takes it off what the worker owes. -/
theorem Duties.itemsOf_report (D : Duties) {workerId : Nat} {item : EdgeWorkItem} (hitem : (workerId, item) ∈ D.items) :
    (D.report workerId (.item item)).itemsOf workerId + 1 = D.itemsOf workerId := by
  have hcount := (List.perm_cons_erase hitem).countP_eq (·.1 == workerId)
  simpa [Duties.itemsOf, Duties.report, List.countP_cons] using hcount.symm

/-- The count that a report tells is the one of the run. -/
theorem counts_of_owes {D : Duties} {ops : List Op} {numWorkers n workerId : Nat}
    {envelope : MessageEnvelope ProofResult}
    {report : Report} (h : ∀ m ∈ learned ops, m = n) (howes : D.Owes numWorkers n workerId envelope.message report) :
    ∀ m ∈ learned (.process workerId envelope :: ops), m = n := by
  intro m hm
  obtain ⟨op, hop, hlearns⟩ := mem_learned.mp hm
  obtain rfl | hop := List.mem_cons.mp hop
  · cases report with
    | executeE2 =>
      obtain ⟨-, e2, he2, hn⟩ := howes
      simp only [Op.learns, he2, Option.some.injEq] at hlearns
      exact hlearns.symm.trans hn
    | segment segment =>
      obtain ⟨-, -, -, -, appProof, happ, -⟩ := howes
      simp [Op.learns, happ] at hlearns
    | shard =>
      obtain ⟨-, -, e, he⟩ := howes
      simp [Op.learns, he] at hlearns
    | item item =>
      have hback := (givesBack_of_answer howes.2).1
      cases hmessage : envelope.message <;> simp_all [Op.learns, ProofResult.givesBack]
  · exact h m (mem_learned.mpr ⟨op, hop, hlearns⟩)

/-- The worker has its shard only, which nobody has given back yet; `load` items are sent to it or accepted. -/
def Duties.Proving (D : Duties) (load : Nat) (reports : List ProofResult) (w : EdgeWorkerState) : Prop :=
  w.Marked ∧ load = 0 ∧
    (reports.filter ProofResult.givesBack = [] ∨ w.id ∈ D.failed ∧
      ∃ e, reports.filter ProofResult.givesBack = [.error e])

/-- The shard is off the worker's hands, and there is a slot for each item and for each report of one. -/
structure Duties.Serving (D : Duties) (numWorkers n load : Nat) (reports : List ProofResult) (awaited : Prop)
    (w : EdgeWorkerState) : Prop where
  free : w.runs .shardedAppProve = false
  slots : load + reports.countP ProofResult.givesBack ≤ w.activeProofCount
  reported : w.id ∈ D.shards ∨ awaited → D.ShardReported numWorkers n w.id
  ending : w.id ∈ D.failed ∨ reports.filterMap ProofResult.segment = []

structure Covered (D : Duties) (numWorkers n load : Nat) (reports : List ProofResult) (awaited : Prop)
    (w : EdgeWorkerState) : Prop where
  told : ∀ segment ∈ w.completedSegments, (w.id, segment) ∈ D.segments
  handled : ∀ segment ∈ reports.filterMap ProofResult.segment,
    (w.id, segment) ∈ D.segments ∧ segment ∉ w.completedSegments
  once : (reports.filterMap ProofResult.segment).Nodup
  stands : D.Proving load reports w ∨ D.Serving numWorkers n load reports awaited w

namespace EdgeWorkerState

theorem runs_of_sublist {w : EdgeWorkerState} {activeProofs : List ActiveProof} (h : w.runs step = false)
    (hsub : activeProofs.Sublist w.activeProofs) : activeProofs.any (·.step == step) = false := by
  refine List.any_eq_false.mpr fun active hactive => ?_
  exact List.any_eq_false.mp h active (hsub.subset hactive)

/-- An item is not a shard. -/
theorem runs_assign {w : EdgeWorkerState} {item : EdgeWorkItem} (htakes : w.workerRole.takes item.step = true)
    (h : w.runs .shardedAppProve = false) : (w.assign item).runs .shardedAppProve = false := by
  have hstep : item.step ≠ .shardedAppProve := fun he => by
    rw [he] at htakes
    simp [WorkerRole.takes] at htakes
  unfold EdgeWorkerState.runs at h
  simp [EdgeWorkerState.runs, EdgeWorkerState.assign, activeProofFromRequest, h, hstep]

theorem Marked.finishFirst {w : EdgeWorkerState} (h : w.Marked) :
    w.finishFirst.activeProofCount = 0 ∧ w.finishFirst.activeProofs = [] := by
  simp [EdgeWorkerState.finishFirst, h.2.1, h.2.2]

theorem Marked.finishShard_idle {w : EdgeWorkerState} (h : w.Marked) :
    w.finishShard.activeProofCount = 0 ∧ w.finishShard.activeProofs = [] := by
  simp [EdgeWorkerState.finishShard, h.2.1, h.2.2]

end EdgeWorkerState

namespace Covered
variable {D : Duties} {numWorkers n load : Nat} {reports reports' : List ProofResult} {awaited awaited' : Prop}
  {w : EdgeWorkerState}

/-- Less under way is covered as well. -/
theorem mono (h : Covered D numWorkers n load reports awaited w) {load' : Nat} (hload : load' ≤ load)
    {lost : List ProofResult} (hreports : reports.Perm (reports' ++ lost)) (hawaited : awaited' → awaited) :
    Covered D numWorkers n load' reports' awaited' w := by
  have hsegments := hreports.filterMap ProofResult.segment
  rw [List.filterMap_append] at hsegments
  have hback := hreports.filter ProofResult.givesBack
  rw [List.filter_append] at hback
  refine ⟨h.told, fun segment hsegment => ?_, ?_, ?_⟩
  · exact h.handled segment (hsegments.mem_iff.mpr (List.mem_append_left _ hsegment))
  · exact (List.nodup_append.mp (hsegments.nodup_iff.mp h.once)).1
  · obtain ⟨hmarked, hnone, hshard⟩ | hserving := h.stands
    · refine .inl ⟨hmarked, by omega, ?_⟩
      obtain hnil | ⟨hfailed, e, hone⟩ := hshard
      · rw [hnil] at hback
        exact .inl (List.append_eq_nil_iff.mp hback.nil_eq.symm).1
      · rw [hone] at hback
        have hsplit := List.perm_singleton.mp hback.symm
        obtain ⟨hleft, -⟩ | ⟨hleft, -⟩ := List.append_eq_singleton_iff.mp hsplit
        · exact .inl hleft
        · exact .inr ⟨hfailed, e, hleft⟩
    · refine .inr ⟨hserving.free, ?_, fun hor => hserving.reported (hor.imp_right hawaited), ?_⟩
      · have hcount := hreports.countP_eq ProofResult.givesBack
        rw [List.countP_append] at hcount
        have hslots := hserving.slots
        omega
      · obtain hfailed | hnil := hserving.ending
        · exact .inl hfailed
        · rw [hnil] at hsegments
          exact .inr (List.append_eq_nil_iff.mp hsegments.nil_eq.symm).1

theorem perm (h : Covered D numWorkers n load reports awaited w) (hreports : reports.Perm reports') :
    Covered D numWorkers n load reports' awaited w :=
  h.mono (Nat.le_refl _) (by rwa [List.append_nil]) id

/-- A new item takes a slot of its own, and no worker that still has its shard takes one. -/
theorem give (h : Covered D numWorkers n load reports awaited w) {item : EdgeWorkItem}
    (htakes : w.workerRole.takes item.step = true)
    (hfree : w.activeProofCount = 0 ∨ w.runs .shardedAppProve = false) :
    Covered D numWorkers n (load + 1) reports awaited (w.assign item) := by
  refine ⟨h.told, h.handled, h.once, ?_⟩
  obtain ⟨hmarked, -, -⟩ | hserving := h.stands
  · obtain hzero | hruns := hfree
    · have := hmarked.2.1
      omega
    · rw [hmarked.runs] at hruns
      simp at hruns
  · refine .inr ⟨?_, ?_, hserving.reported, hserving.ending⟩
    · exact EdgeWorkerState.runs_assign htakes hserving.free
    · have hslots := hserving.slots
      simp only [EdgeWorkerState.assign]
      omega

private theorem behind
    (hsegments : (reports'.filterMap ProofResult.segment).Sublist (reports.filterMap ProofResult.segment))
    (h : Covered D numWorkers n load reports awaited w) :
    (∀ segment ∈ reports'.filterMap ProofResult.segment, (w.id, segment) ∈ D.segments ∧ segment ∉ w.completedSegments) ∧
      (reports'.filterMap ProofResult.segment).Nodup :=
  ⟨fun segment hsegment => h.handled segment (hsegments.subset hsegment), h.once.sublist hsegments⟩

/-- The result of an item gives back the slot of an item. -/
theorem finish {result : ProofResult} (h : Covered D numWorkers n load (result :: reports) awaited w)
    (hback : result.givesBack = true) (hitem : ∀ e, result ≠ .error e) (step : Step) :
    Covered D numWorkers n load reports awaited (w.finish step) := by
  have hsegments : (reports.filterMap ProofResult.segment).Sublist
    ((result :: reports).filterMap ProofResult.segment) :=
    (List.sublist_cons_self result reports).filterMap _
  obtain ⟨hhandled, honce⟩ := h.behind hsegments
  refine ⟨h.told, hhandled, honce, ?_⟩
  obtain ⟨hmarked, -, hshard⟩ | hserving := h.stands
  · rw [List.filter_cons_of_pos hback] at hshard
    obtain hnil | ⟨-, e, hone⟩ := hshard
    · simp at hnil
    · exact absurd (List.cons.inj hone).1 (hitem e)
  · refine .inr ⟨EdgeWorkerState.runs_of_sublist hserving.free List.eraseP_sublist, ?_, hserving.reported, ?_⟩
    · have hslots := hserving.slots
      rw [List.countP_cons_of_pos hback] at hslots
      simp only [EdgeWorkerState.finish]
      omega
    · refine hserving.ending.imp_right fun hnil => ?_
      rw [hnil] at hsegments
      exact List.sublist_nil.mp hsegments

/-- An error gives back the slot of the shard, or of an item. -/
theorem finishFirst {e : ErrorResult} (h : Covered D numWorkers n load (.error e :: reports) awaited w) :
    Covered D numWorkers n load reports awaited w.finishFirst := by
  obtain ⟨hhandled, honce⟩ := h.behind ((List.sublist_cons_self (.error e) reports).filterMap _)
  have hid : w.finishFirst.id = w.id ∧ w.finishFirst.completedSegments = w.completedSegments := by
    unfold EdgeWorkerState.finishFirst
    split <;> exact ⟨rfl, rfl⟩
  refine ⟨by rw [hid.1, hid.2]; exact h.told, by rw [hid.1, hid.2]; exact hhandled, honce, ?_⟩
  obtain ⟨hmarked, hnone, hshard⟩ | hserving := h.stands
  · rw [List.filter_cons_of_pos rfl] at hshard
    obtain hnil | ⟨hfailed, e', hone⟩ := hshard
    · simp at hnil
    · obtain ⟨hcount, hproofs⟩ := hmarked.finishFirst
      refine .inr ⟨by simp [EdgeWorkerState.runs, hproofs], ?_, fun _ => .inl (hid.1 ▸ hfailed), .inl (hid.1 ▸ hfailed)⟩
      have hzero := congrArg List.length (List.cons.inj hone).2
      rw [← List.countP_eq_length_filter, List.length_nil] at hzero
      omega
  · have hslots := hserving.slots
    rw [List.countP_cons_of_pos rfl] at hslots
    refine .inr ⟨?_, ?_, hid.1 ▸ hserving.reported, hid.1 ▸ hserving.ending⟩
    · unfold EdgeWorkerState.finishFirst
      split
      · exact hserving.free
      · exact EdgeWorkerState.runs_of_sublist hserving.free (List.eraseIdx_sublist _ _)
    · unfold EdgeWorkerState.finishFirst
      split
      · omega
      · simp only
        omega

/-- A segment gives back the slot of the shard when it is the last, and only to a worker that still has it. -/
theorem insertSegment {appProof : AppProof} (h : Covered D numWorkers n load (.app appProof :: reports) awaited w)
    (hsound : D.Sound numWorkers n) {known : Option Nat} (hknown : known = none ∨ known = some n) :
    Covered D numWorkers n load reports awaited (w.complete numWorkers known (.app appProof)).2 := by
  have hsegment := h.handled appProof.state.segmentIdx List.mem_cons_self
  have honce := List.nodup_cons.mp h.once
  have htold : ∀ segment ∈ (w.insertSegment appProof.state.segmentIdx).completedSegments,
    (w.id, segment) ∈ D.segments :=
    fun segment hmem => by
      obtain rfl | hmem := Finset.mem_insert.mp hmem
      · exact hsegment.1
      · exact h.told segment hmem
  have hhandled : ∀ segment ∈ reports.filterMap ProofResult.segment, (w.id, segment) ∈ D.segments ∧
      segment ∉ (w.insertSegment appProof.state.segmentIdx).completedSegments := fun segment hmem => by
    have hold := h.handled segment (List.mem_cons_of_mem _ hmem)
    refine ⟨hold.1, fun hinserted => ?_⟩
    obtain rfl | hcompleted := Finset.mem_insert.mp hinserted
    · exact honce.1 hmem
    · exact hold.2 hcompleted
  simp only [EdgeWorkerState.complete]
  split
  · rename_i hdone
    have hpos := (hsound.segments _ hsegment.1).1
    -- All the segments of the shard are in, so the shard has not failed and no segment is still being handled.
    have hfull : shard w.id numWorkers n ⊆ insert appProof.state.segmentIdx w.completedSegments := by
      obtain rfl | rfl := hknown
      · exact absurd hdone Bool.false_ne_true
      · exact shard_subset_of_completed hpos (fun s hs => (hsound.segments _ (htold s hs)).2) hdone
    have hwhole : w.id ∉ D.failed := fun hfailed => by
      obtain ⟨segment, hmem, hmissing⟩ := hsound.failed w.id hfailed
      exact hmissing (htold segment (hfull hmem))
    have hnone : reports.filterMap ProofResult.segment = [] := by
      refine List.eq_nil_iff_forall_not_mem.mpr fun segment hmem => ?_
      obtain ⟨hreported, hfresh⟩ := hhandled segment hmem
      exact hfresh (hfull (hsound.segments _ hreported).2)
    refine ⟨htold, hhandled, honce.2, ?_⟩
    obtain ⟨hmarked, hzero, hshard⟩ | hserving := h.stands
    · have hshard : reports.filter ProofResult.givesBack = [] := hshard.resolve_right fun hfailed => hwhole hfailed.1
      obtain ⟨hcount, hproofs⟩ := EdgeWorkerState.Marked.finishShard_idle
        (show (w.insertSegment appProof.state.segmentIdx).Marked from hmarked)
      refine .inr ⟨by simp [EdgeWorkerState.runs, hproofs], ?_, fun _ => .inr fun s hs =>
        htold s (hfull hs), .inr hnone⟩
      rw [List.countP_eq_length_filter, hshard, hzero]
      exact Nat.zero_le _
    · exact absurd (hserving.ending.resolve_left hwhole) (List.cons_ne_nil _ _)
  · refine ⟨htold, hhandled, honce.2, h.stands.imp_right fun hserving => ?_⟩
    exact ⟨hserving.free, hserving.slots, hserving.reported,
      hserving.ending.imp_right fun hnil => absurd hnil (List.cons_ne_nil _ _)⟩

/-- The slot that a result gives back is one that it occupied. -/
theorem complete {result : ProofResult} (h : Covered D numWorkers n load (result :: reports) awaited w)
    (hsound : D.Sound numWorkers n) {known : Option Nat} (hknown : known = none ∨ known = some n) :
    Covered D numWorkers n load reports awaited (w.complete numWorkers known result).2 := by
  cases result with
  | app appProof => exact h.insertSegment hsound hknown
  | executeE2 e2 => exact h.mono (Nat.le_refl _) (List.perm_append_singleton _ _).symm id
  | leaf leafProof => exact h.finish rfl (fun e he => by simp at he) .leafProve
  | internal internalProof => exact h.finish rfl (fun e he => by simp at he) .internalProve
  | evm evmProof => exact h.finish rfl (fun e he => by simp at he) .evmProve
  | error e => exact h.finishFirst

/-- The segment count gives back the slots of shards that are complete, if it finds no other. -/
theorem releaseShard (h : Covered D numWorkers n load reports awaited w) (hsound : D.Sound numWorkers n)
    (hdone : w.shardDone numWorkers n = true → w.runs .shardedAppProve = true)
    (hpos : w.workerRole.runsStarkProving = true → 0 < numWorkers) :
    Covered D numWorkers n load reports awaited (w.releaseShard numWorkers n) := by
  unfold EdgeWorkerState.releaseShard
  split
  · rename_i hshard
    obtain ⟨hmarked, hzero, hback⟩ | hserving := h.stands
    · have hpos := hpos hmarked.1
      have hfull : shard w.id numWorkers n ⊆ w.completedSegments := by
        simp only [EdgeWorkerState.shardDone, Bool.and_eq_true, Bool.or_eq_true, beq_iff_eq] at hshard
        obtain hempty | hall := hshard.2
        · rw [shard_eq_empty_of_expectedCount hpos hempty]
          exact Finset.empty_subset _
        · exact shard_subset_of_completed hpos (fun s hs => (hsound.segments _ (h.told s hs)).2) hall
      have hwhole : w.id ∉ D.failed := fun hfailed => by
        obtain ⟨segment, hmem, hmissing⟩ := hsound.failed w.id hfailed
        exact hmissing (h.told segment (hfull hmem))
      have hnone : reports.filterMap ProofResult.segment = [] := by
        refine List.eq_nil_iff_forall_not_mem.mpr fun segment hmem => ?_
        obtain ⟨hreported, hfresh⟩ := h.handled segment hmem
        exact hfresh (hfull (hsound.segments _ hreported).2)
      have hback : reports.filter ProofResult.givesBack = [] := hback.resolve_right fun hfailed => hwhole hfailed.1
      obtain ⟨hcount, hproofs⟩ := hmarked.finishShard_idle
      refine ⟨h.told, h.handled, h.once, .inr ⟨by simp [EdgeWorkerState.runs, hproofs], ?_, fun _ => ?_, .inr hnone⟩⟩
      · rw [List.countP_eq_length_filter, hback, hzero]
        exact Nat.zero_le _
      · exact .inr fun segment hsegment => h.told segment (hfull hsegment)
    · rw [hserving.free] at hdone
      exact absurd (hdone hshard) Bool.false_ne_true
  · exact h

/-- A worker with nothing under way may be released as a whole. -/
theorem release (h : Covered D numWorkers n load reports awaited w) (hload : load = 0)
    (hreports : reports.filterMap ProofResult.segment = [] ∧ reports.countP ProofResult.givesBack = 0)
    (hshard : w.id ∈ D.shards ∨ awaited → D.ShardReported numWorkers n w.id) :
    Covered D numWorkers n load reports awaited w.release := by
  refine ⟨h.told, h.handled, h.once, .inr ⟨rfl, ?_, hshard, .inr hreports.1⟩⟩
  rw [hload, hreports.2]
  exact Nat.zero_le _

/-- Only what the duties say of this worker counts. -/
theorem congr (h : Covered D numWorkers n load reports awaited w) {D' : Duties}
    (hsegments : ∀ segment, (w.id, segment) ∈ D'.segments ↔ (w.id, segment) ∈ D.segments)
    (hfailed : w.id ∈ D'.failed ↔ w.id ∈ D.failed) (hshards : w.id ∈ D'.shards ∨ awaited' → w.id ∈ D.shards ∨ awaited) :
    Covered D' numWorkers n load reports awaited' w := by
  have hreported : D.ShardReported numWorkers n w.id → D'.ShardReported numWorkers n w.id := fun hold => by
    simpa only [Duties.ShardReported, hsegments, hfailed] using hold
  refine ⟨fun segment hmem => (hsegments segment).mpr (h.told segment hmem), fun segment hmem => ?_, h.once, ?_⟩
  · exact ⟨(hsegments segment).mpr (h.handled segment hmem).1, (h.handled segment hmem).2⟩
  · obtain ⟨hmarked, hzero, hback⟩ | hserving := h.stands
    · exact .inl ⟨hmarked, hzero, hback.imp_right fun hshard => ⟨hfailed.mpr hshard.1, hshard.2⟩⟩
    · exact .inr ⟨hserving.free, hserving.slots, fun hor => hreported (hserving.reported (hshards hor)),
        hserving.ending.imp_left hfailed.mpr⟩

theorem reportSegment (h : Covered D numWorkers n load reports awaited w) {appProof : AppProof}
    (hshard : w.id ∈ D.shards) (hwhole : w.id ∉ D.failed)
    (hmem : appProof.state.segmentIdx ∈ shard w.id numWorkers n)
    (hfresh : (w.id, appProof.state.segmentIdx) ∉ D.segments) :
    Covered (D.report w.id (.segment appProof.state.segmentIdx)) numWorkers n load
      (.app appProof :: reports) awaited w := by
  have hnew (segment : Nat) (hold : (w.id, segment) ∈ D.segments) :
      (w.id, segment) ∈ (D.report w.id (.segment appProof.state.segmentIdx)).segments := List.mem_cons_of_mem _ hold
  refine ⟨fun segment hcompleted => hnew _ (h.told segment hcompleted), fun segment hsegment => ?_, ?_, ?_⟩
  · obtain rfl | hold := List.mem_cons.mp hsegment
    · exact ⟨List.mem_cons_self, fun hcompleted => hfresh (h.told _ hcompleted)⟩
    · exact ⟨hnew _ (h.handled segment hold).1, (h.handled segment hold).2⟩
  · exact List.nodup_cons.mpr ⟨fun hold => hfresh (h.handled _ hold).1, h.once⟩
  · refine .inl (h.stands.resolve_right fun hserving => ?_)
    obtain hfailed | hall := hserving.reported (.inl hshard)
    · exact hwhole hfailed
    · exact hfresh (hall _ hmem)

theorem reportShard (h : Covered D numWorkers n load reports awaited w) (hshard : w.id ∈ D.shards)
    (hopen : ¬ D.ShardReported numWorkers n w.id) (e : ErrorResult) :
    Covered (D.report w.id .shard) numWorkers n load (.error e :: reports) awaited w := by
  refine ⟨h.told, h.handled, h.once, ?_⟩
  obtain ⟨hmarked, hzero, hback⟩ | hserving := h.stands
  · refine .inl ⟨hmarked, hzero, .inr ⟨List.mem_cons_self, e, ?_⟩⟩
    have hnone := hback.resolve_right fun hfailed => hopen (.inl hfailed.1)
    rw [List.filter_cons_of_pos rfl, hnone]
  · exact absurd (hserving.reported (.inl hshard)) hopen

theorem reportItem (h : Covered D numWorkers n (load + 1) reports awaited w) {result : ProofResult}
    (hback : result.givesBack = true ∧ result.segment = none) :
    Covered D numWorkers n load (result :: reports) awaited w := by
  have hsegments : (result :: reports).filterMap ProofResult.segment = reports.filterMap ProofResult.segment :=
    List.filterMap_cons_none hback.2
  refine ⟨h.told, hsegments ▸ h.handled, hsegments ▸ h.once, ?_⟩
  obtain ⟨-, hzero, -⟩ | hserving := h.stands
  · simp at hzero
  · refine .inr ⟨hserving.free, ?_, hserving.reported, hsegments ▸ hserving.ending⟩
    rw [List.countP_cons_of_pos hback.1]
    have hslots := hserving.slots
    omega

theorem reportE2 (h : Covered D numWorkers n load reports awaited w) (e2 : ExecuteE2Result) :
    Covered D numWorkers n load (.executeE2 e2 :: reports) awaited w := by
  refine ⟨h.told, h.handled, h.once, h.stands.imp_right fun hserving => ?_⟩
  exact ⟨hserving.free, hserving.slots, hserving.reported, hserving.ending⟩

end Covered

/-- A request that is no report has nothing under way. -/
theorem idle_of_isRequest {task : List Op} (htask : isRequest task = true)
    (hsilent : ∀ workerId envelope, task ≠ resultTask workerId envelope) :
    (∀ id, sendsTo id task = 0 ∧ reportsOf id task = []) ∧ awaited task = [] ∧ learned task = [] := by
  unfold isRequest at htask
  split at htask
  · exact absurd rfl (hsilent _ _)
  · exact ⟨fun id => ⟨rfl, rfl⟩, rfl, rfl⟩
  · exact ⟨fun id => ⟨rfl, rfl⟩, rfl, rfl⟩
  · exact ⟨fun id => ⟨rfl, rfl⟩, rfl, rfl⟩
  · simp at htask

theorem ids_of_config {st st' : EdgeProofState} (h : st'.config = st.config) :
    st'.workers.map (·.id) = st.workers.map (·.id) := by
  have hworkers := congrArg (fun c : EdgeProofState.Config => c.workers.map (·.1)) h
  simpa only [EdgeProofState.config, List.map_map, Function.comp_def] using hworkers

/-- Every worker's slots cover what the duties and these steps have under way on it. -/
def AllCovered (D : Duties) (n : Nat) (ops : List Op) (st : EdgeProofState) : Prop :=
  ∀ w ∈ st.workers, Covered D st.numWorkers n (sendsTo w.id ops + D.itemsOf w.id) (reportsOf w.id ops)
    (w.id ∈ awaited ops) w

namespace AllCovered
variable {D : Duties} {n : Nat} {op : Op} {ops ops' : List Op} {st st' : EdgeProofState}

/-- Steps and duties that leave no more under way are covered as well. -/
theorem mono (h : AllCovered D n ops st) {D' : Duties} (hsegments : D'.segments = D.segments)
    (hfailed : D'.failed = D.failed)
    (hload : ∀ id, sendsTo id ops' + D'.itemsOf id ≤ sendsTo id ops + D.itemsOf id)
    (hreports : ∀ id, ∃ lost, (reportsOf id ops).Perm (reportsOf id ops' ++ lost))
    (hshards : ∀ id, id ∈ D'.shards ∨ id ∈ awaited ops' → id ∈ D.shards ∨ id ∈ awaited ops) :
    AllCovered D' n ops' st := fun w hw => by
  obtain ⟨lost, hlost⟩ := hreports w.id
  have hnow := (h w hw).congr (by simp [hsegments]) (by rw [hfailed]) (hshards w.id)
  exact hnow.mono (hload w.id) hlost id

theorem perm (h : AllCovered D n ops st) (hops : ops.Perm ops') : AllCovered D n ops' st := by
  refine h.mono rfl rfl (fun id => ?_) (fun id => ⟨[], ?_⟩) (fun id => ?_)
  · rw [sendsTo, sendsTo, hops.countP_eq]
  · rw [List.append_nil]
    exact hops.filterMap _
  · exact Or.imp_right (hops.flatMap_right _).mem_iff.mpr

/-- A step that is done leaves the rest covered. -/
theorem drop (h : AllCovered D n (op :: ops) st) : AllCovered D n ops st := by
  refine h.mono rfl rfl (fun id => ?_) (fun id => ⟨reportsOf id [op], ?_⟩) (fun id => ?_)
  · simp only [sendsTo, List.countP_cons]
    omega
  · simp only [reportsOf]
    rw [← List.filterMap_append]
    exact (List.perm_append_singleton op ops).symm.filterMap _
  · exact Or.imp_right fun hmem => List.mem_append_right _ hmem

/-- A result is accounted for. -/
theorem applyCompletion (h : AllCovered D n (op :: ops) st) (hids : (st.workers.map (·.id)).Nodup)
    (hsound : D.Sound st.numWorkers n) (hknown : st.numSegments = none ∨ st.numSegments = some n)
    {proofUuid : String} {workerId : Nat} {result : ProofResult} {freed : Bool}
    (hop : ∀ id, op.carries id = if workerId = id then some result else none)
    (hcall : st.applyCompletion proofUuid workerId result = .ok (freed, st')) : AllCovered D n ops st' := by
  obtain ⟨worker, workers, hreplaces, rfl, -, rfl⟩ := EdgeProofState.applyCompletion_ok hcall
  have hid := (EdgeProofState.complete_static worker st.numWorkers st.numSegments result).1
  intro w hw
  obtain rfl | ⟨hmem, -⟩ := hreplaces.other_of_mem_right (·.id) hids hid hw
  · have hold := h.drop worker hreplaces.mem_left
    have hnow := h worker hreplaces.mem_left
    have hreports : reportsOf worker.id (op :: ops) = result :: reportsOf worker.id ops :=
      List.filterMap_cons_some (by rw [hop, if_pos rfl])
    rw [hreports] at hnow
    have hless : sendsTo worker.id ops + D.itemsOf worker.id ≤ sendsTo worker.id (op :: ops) + D.itemsOf worker.id := by
      simp only [sendsTo, List.countP_cons]
      omega
    have hsame : (result :: reportsOf worker.id ops).Perm ((result :: reportsOf worker.id ops) ++ []) := by
      rw [List.append_nil]
    have hstart := hnow.mono hless hsame (fun hmem : worker.id ∈ awaited ops => List.mem_append_right _ hmem)
    rw [hid]
    exact hstart.complete hsound hknown
  · exact h.drop w hmem

/-- Work handed out is covered by the slots it takes. -/
theorem handsOut (h : AllCovered D n ops st) (hids : (st.workers.map (·.id)).Nodup) {works : List AssignedWork}
    (hout : HandsOut st works st') : AllCovered D n (sendTasks works ++ ops) st' := by
  have hnow := hout.forall_workers
    (P := fun k w => Covered D st.numWorkers n k (reportsOf w.id ops) (w.id ∈ awaited ops) w)
    (fun k w item hold htakes hfree => hold.give htakes hfree) hids (fun id => sendsTo id ops + D.itemsOf id) h
  intro w hw
  have hcovered := hnow w hw
  rw [sendsTo_append, sendsTo_sendTasks, reportsOf_append, reportsOf_sendTasks, awaited_append, awaited_sendTasks,
    hout.numWorkers, List.nil_append, List.nil_append, Nat.add_assoc, Nat.add_comm]
  exact hcovered

/-- The segment count frees the shards that are complete. -/
theorem releaseShards (h : AllCovered D n ops st) (hsound : D.Sound st.numWorkers n)
    (hstark : ∀ w ∈ st.workers, w.workerRole.runsStarkProving = true → 0 < st.numWorkers)
    (hdone : ∀ w ∈ st.workers, w.shardDone st.numWorkers n = true → w.runs .shardedAppProve = true) :
    AllCovered D n ops
      { st with numSegments := some n, workers := EdgeWorkerState.releaseShards st.numWorkers n st.workers } := by
  intro w hw
  obtain ⟨old, hold, rfl | ⟨rfl, -⟩⟩ := EdgeWorkerState.mem_releaseShards hw
  · rw [EdgeWorkerState.releaseShard_id]
    exact (h old hold).releaseShard hsound (hdone old hold) (hstark old hold)
  · exact h w hold

/-- A worker with nothing under way is released. -/
theorem releaseWorker (h : AllCovered D n ops st) (hids : (st.workers.map (·.id)).Nodup) {workerId : Nat}
    (hload : sendsTo workerId ops + D.itemsOf workerId = 0)
    (hreports : ∀ result ∈ reportsOf workerId ops, result.givesBack = false ∧ result.segment = none)
    (hshard : workerId ∈ D.shards ∨ workerId ∈ awaited ops → D.ShardReported st.numWorkers n workerId) :
    AllCovered D n ops (st.releaseWorker workerId) := by
  unfold EdgeProofState.releaseWorker
  split
  · rename_i worker idx hfind
    obtain ⟨hget, hid⟩ := find_zipIdx_some (fun w : EdgeWorkerState => w.id == workerId) hfind
    obtain rfl := beq_iff_eq.mp hid
    intro w hw
    obtain rfl | ⟨hmem, -⟩ := (replaces_set hget worker.release).other_of_mem_right (·.id) hids rfl hw
    · refine (h worker (List.mem_of_getElem? hget)).release hload ⟨?_, ?_⟩ hshard
      · exact List.filterMap_eq_nil_iff.mpr fun result hresult => (hreports result hresult).2
      · exact List.countP_eq_zero.mpr fun result hresult => by simp [(hreports result hresult).1]
    · exact h w hmem
  · exact h

end AllCovered

end EdgeProver
