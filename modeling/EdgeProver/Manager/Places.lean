import EdgeProver.Manager.Journal

/-! Where the requests, the segments and the segment count of a failure-free run are, while the handlers of their
results take step after step. -/
namespace EdgeProver

def EdgeWorkItem.request (item : EdgeWorkItem) : GeneralProveRequest := item.envelope.message

/-- An item with the worker that was given it and the answer that it reported. -/
structure Answer where
  worker : Nat
  item : EdgeWorkItem
  result : ProofResult

def Answer.entry (a : Answer) : Nat × EdgeWorkItem := (a.worker, a.item)
def Answer.report (a : Answer) : Nat × ProofResult := (a.worker, a.result)

/-- Whatever was given out was given out with the segment count recorded. -/
theorem Kept.known_of_assigned {L : Ledger} {n : Nat} (h : Kept L n []) (hne : L.assignments ≠ []) :
    L.st.numSegments = some n := by
  obtain ⟨a, ha⟩ := List.exists_mem_of_ne_nil _ hne
  by_cases hevm : a.item.step = .evmProve
  · have hmem := h.assigned.mem_iff.mp (List.mem_map_of_mem ha)
    have henqueued := h.partition.mem_iff.mpr (List.mem_append_right _ (List.mem_append_right _ hmem))
    exact h.numSegments.resolve_left fun hnone => h.evm_late hnone _ henqueued hevm
  · exact (h.shard_first a ha hevm).1

/-- Every request is in one place: about to be enqueued, in the queue, on its way to a worker, accepted, or answered.
Of the answered ones the answers to `handled` are about to be handled, and those to `accounted` to be accounted for. -/
structure ItemsFollowed (D : Duties) (ops : List Op) (s : TreeState) (L : Ledger) (handled accounted : List Answer) :
    Prop where
  emitted : s.emitted.Perm (L.enqueued.map (·.request) ++ enqueueing ops)
  answered : s.emitted.Perm (s.outstanding ++ (accounted.map (·.item) ++ L.completed).map (·.request))
  held : L.held.Perm (shipping ops ++ (D.items ++ (handled ++ accounted).map (·.entry)))
  handles : (answersOf (handling ops)).Perm (handled.map (·.report))
  accounts : (answersOf (accounting ops)).Perm (accounted.map (·.report))
  honest : ∀ a ∈ handled, Answers a.item.request a.result
  steps : ∀ a ∈ handled ++ accounted, a.result.completedStep = some a.item.step

namespace ItemsFollowed
variable {D D' : Duties} {ops ops' : List Op} {s : TreeState} {L L' : Ledger}
  {handled accounted : List Answer} {n : Nat}

theorem congr (h : ItemsFollowed D ops s L handled accounted) (hitems : D'.items = D.items)
    (henqueues : (enqueueing ops).Perm (enqueueing ops')) (hships : (shipping ops).Perm (shipping ops'))
    (hhandles : (answersOf (handling ops)).Perm (answersOf (handling ops')))
    (haccounts : (answersOf (accounting ops)).Perm (answersOf (accounting ops'))) :
    ItemsFollowed D' ops' s L handled accounted := by
  refine { h with
    emitted := h.emitted.trans (henqueues.append_left _)
    held := ?_
    handles := hhandles.symm.trans h.handles
    accounts := haccounts.symm.trans h.accounts }
  rw [hitems]
  exact h.held.trans (hships.append_right _)

theorem perm (h : ItemsFollowed D ops s L handled accounted) (hops : ops.Perm ops') :
    ItemsFollowed D ops' s L handled accounted :=
  h.congr rfl (hops.filterMap _) (hops.filterMap _) ((hops.filterMap _).filter _) ((hops.filterMap _).filter _)

/-- What is outstanding has not been answered. -/
theorem outstanding (h : ItemsFollowed D ops s L handled accounted) (hkept : Kept L n []) :
    s.outstanding.Perm ((L.st.pending.items ++ (shipping ops ++ (D.items ++ handled.map (·.entry))).map (·.2)).map
      (·.request) ++ enqueueing ops) := by
  have hheld := (h.held.map (·.2)).map (·.request)
  have hplaces := hkept.partition.map (·.request)
  refine List.perm_iff_count.mpr fun request => ?_
  have hemitted := h.emitted.count_eq request
  have hanswered := h.answered.count_eq request
  have hheld := hheld.count_eq request
  have hplaces := hplaces.count_eq request
  simp only [List.map_append, List.count_append, List.map_map, List.nil_append, Function.comp_def, Answer.entry] at *
  omega

/-- A worker accepts an item. -/
theorem accept (h : ItemsFollowed D ops s L handled accounted) {work : AssignedWork}
    (hships : (shipping ops).Perm (work.entry :: shipping ops')) (henqueues : (enqueueing ops).Perm (enqueueing ops'))
    (hhandles : (answersOf (handling ops)).Perm (answersOf (handling ops')))
    (haccounts : (answersOf (accounting ops)).Perm (answersOf (accounting ops'))) :
    ItemsFollowed { D with items := work.entry :: D.items } ops' s L handled accounted := by
  refine { h with
    emitted := h.emitted.trans (henqueues.append_left _)
    held := h.held.trans ((hships.append_right _).trans ?_)
    handles := hhandles.symm.trans h.handles
    accounts := haccounts.symm.trans h.accounts }
  rw [List.cons_append]
  exact List.perm_middle.symm

/-- A worker answers an item that it accepted. -/
theorem answer (h : ItemsFollowed D ops s L handled accounted) {a : Answer} {envelope : MessageEnvelope ProofResult}
    (hitem : a.entry ∈ D.items) (hmessage : envelope.message = a.result) (hanswers : Answers a.item.request a.result)
    (hstep : a.result.completedStep = some a.item.step) :
    ItemsFollowed (D.report a.worker (.item a.item)) (.process a.worker envelope :: ops) s L (a :: handled)
      accounted := by
  refine { h with held := ?_, handles := ?_, honest := ?_, steps := ?_ }
  · refine h.held.trans (List.Perm.append_left _ ?_)
    rw [List.cons_append, List.map_cons]
    exact ((List.perm_cons_erase hitem).append_right _).trans List.perm_middle.symm
  · have hreport : answersOf (handling (.process a.worker envelope :: ops)) = a.report :: answersOf (handling ops) := by
      simp [hmessage, hstep, Answer.report]
    rw [hreport]
    exact h.handles.cons _
  · exact List.forall_mem_cons.mpr ⟨hanswers, h.honest⟩
  · exact List.forall_mem_cons.mpr ⟨hstep, h.steps⟩

/-- A request is given to the scheduler. -/
theorem request {request : GeneralProveRequest} {item : EdgeWorkItem}
    (h : ItemsFollowed D (.enqueue request :: ops) s L handled accounted) (hitem : item.request = request) :
    ItemsFollowed D ops s { L with enqueued := item :: L.enqueued } handled accounted := by
  refine { h with emitted := h.emitted.trans ?_ }
  rw [List.map_cons, hitem]
  exact List.perm_middle

/-- A call of the scheduler hands work out. -/
theorem give (h : ItemsFollowed D ops s L handled accounted) {works : List AssignedWork} (hgives : L.Gives L' works) :
    ItemsFollowed D (sendTasks works ++ ops) s L' handled accounted := by
  refine
    { emitted := ?_
      answered := ?_
      held := ?_
      handles := ?_
      accounts := ?_
      honest := h.honest
      steps := h.steps }
  · rw [hgives.enqueued]
    simpa using h.emitted
  · rw [hgives.completed]
    exact h.answered
  · have hships : shipping (sendTasks works ++ ops) = works.map (·.entry) ++ shipping ops := by
      simp [AssignedWork.entry]
    rw [hships, List.append_assoc]
    exact hgives.held.trans (h.held.append_left _)
  · simpa using h.handles
  · simpa using h.accounts

/-- The scheduler accounts for an answer. -/
theorem account (h : ItemsFollowed D ops s L handled accounted) {a : Answer} (ha : a ∈ accounted)
    (haccounts : (answersOf (accounting ops)).Perm (a.report :: answersOf (accounting ops')))
    (henqueues : (enqueueing ops).Perm (enqueueing ops')) (hships : (shipping ops).Perm (shipping ops'))
    (hhandles : (answersOf (handling ops)).Perm (answersOf (handling ops'))) :
    a.entry ∈ L.held ∧ ∃ rest, ItemsFollowed D ops' s (L.reportItem a.worker a.item) handled rest := by
  obtain ⟨before, after, rfl⟩ := List.append_of_mem ha
  have hmiddle : (before ++ a :: after).Perm (a :: (before ++ after)) := List.perm_middle
  have hheld : a.entry ∈ L.held := by
    rw [h.held.mem_iff]
    simp
  refine ⟨hheld, before ++ after, ?_⟩
  refine
    { emitted := h.emitted.trans (henqueues.append_left _)
      answered := ?_
      held := ?_
      handles := hhandles.symm.trans h.handles
      accounts := ?_
      honest := h.honest
      steps := fun b hb => h.steps b ?_ }
  · have hmove := (hmiddle.map (·.item)).append_right L.completed
    rw [List.map_cons, List.cons_append] at hmove
    refine h.answered.trans (((hmove.trans List.perm_middle.symm).map _).append_left _)
  · have hnow := h.held.trans ((((hmiddle.append_left handled).trans List.perm_middle).map (·.entry)).append_left
      D.items |>.append_left (shipping ops))
    have hbefore := hnow.trans ((List.perm_middle.append_left _).trans List.perm_middle)
    have hrest := ((List.perm_cons_erase hheld).symm.trans hbefore).cons_inv
    exact hrest.trans (hships.append_right _)
  · have hnow := haccounts.symm.trans (h.accounts.trans (hmiddle.map (·.report)))
    exact hnow.cons_inv
  · rcases List.mem_append.mp hb with hb | hb
    · exact List.mem_append_left _ hb
    · exact List.mem_append_right _ (hmiddle.mem_iff.mpr (List.mem_cons_of_mem _ hb))

/-- No item is answered by a segment. -/
theorem reportSegment (h : ItemsFollowed D ops s L handled accounted) (workerId segment : Nat) :
    ItemsFollowed D ops s (L.reportSegment workerId segment) handled accounted :=
  ⟨h.emitted, h.answered, h.held, h.handles, h.accounts, h.honest, h.steps⟩

/-- The follow-up requests of a result are outstanding, and about to be enqueued. -/
theorem follow (h : ItemsFollowed D ops s L handled accounted) {s' : TreeState} {requests : List GeneralProveRequest}
    (hemitted : s'.emitted = s.emitted ++ requests) (houtstanding : s'.outstanding.Perm (s.outstanding ++ requests))
    (henqueues : (enqueueing ops').Perm (requests ++ enqueueing ops)) (hships : (shipping ops).Perm (shipping ops'))
    (hhandles : (answersOf (handling ops)).Perm (answersOf (handling ops')))
    (haccounts : (answersOf (accounting ops)).Perm (answersOf (accounting ops'))) :
    ItemsFollowed D ops' s' L handled accounted := by
  refine
    { emitted := ?_
      answered := ?_
      held := h.held.trans (hships.append_right _)
      handles := hhandles.symm.trans h.handles
      accounts := haccounts.symm.trans h.accounts
      honest := h.honest
      steps := h.steps }
  · rw [hemitted]
    refine (h.emitted.append_right requests).trans ?_
    rw [List.append_assoc]
    exact (List.perm_append_comm.trans henqueues.symm).append_left _
  · rw [hemitted]
    refine (h.answered.append_right requests).trans ?_
    rw [List.append_assoc]
    refine (List.perm_append_comm.append_left _).trans ?_
    rw [← List.append_assoc]
    exact houtstanding.symm.append_right _

/-- The tree takes an answer, which is accounted for next. -/
theorem deliver (h : ItemsFollowed D ops s L handled accounted) {a : Answer} (ha : a ∈ handled) {s' : TreeState}
    (hemitted : s'.emitted = s.emitted)
    (houtstanding : s.outstanding.Perm (a.item.request :: s'.outstanding))
    (hhandles : (answersOf (handling ops)).Perm (a.report :: answersOf (handling ops')))
    (haccounts : (answersOf (accounting ops')).Perm (a.report :: answersOf (accounting ops)))
    (henqueues : (enqueueing ops).Perm (enqueueing ops')) (hships : (shipping ops).Perm (shipping ops')) :
    ∃ others, ItemsFollowed D ops' s' L others (a :: accounted) := by
  obtain ⟨before, after, rfl⟩ := List.append_of_mem ha
  have hmiddle : (before ++ a :: after).Perm (a :: (before ++ after)) := List.perm_middle
  refine ⟨before ++ after, ?_⟩
  refine
    { emitted := ?_
      answered := ?_
      held := ?_
      handles := (hhandles.symm.trans (h.handles.trans (hmiddle.map (·.report)))).cons_inv
      accounts := haccounts.trans (h.accounts.cons _)
      honest := fun b hb => h.honest b (hmiddle.mem_iff.mpr (List.mem_cons_of_mem _ hb))
      steps := fun b hb => h.steps b ?_ }
  · rw [hemitted]
    exact h.emitted.trans (henqueues.append_left _)
  · rw [hemitted]
    refine h.answered.trans ((houtstanding.append_right _).trans ?_)
    rw [List.cons_append]
    exact List.perm_middle.symm
  · have hmove := (hmiddle.append_right accounted).trans List.perm_middle.symm
    exact h.held.trans ((hships.append_right _).trans (((hmove.map _).append_left _).append_left _))
  · have hmove := (hmiddle.append_right accounted).trans List.perm_middle.symm
    exact hmove.mem_iff.mpr hb

private theorem known_of_answered (h : ItemsFollowed D ops s L handled accounted) (hkept : Kept L n [])
    {request : GeneralProveRequest} (hanswered : request ∈ (accounted.map (·.item) ++ L.completed).map (·.request)) :
    L.st.numSegments = some n := by
  refine hkept.known_of_assigned fun hnil => ?_
  have hnone := hkept.assigned
  rw [hnil, List.map_nil] at hnone
  obtain ⟨hheld, hcompleted⟩ := List.append_eq_nil_iff.mp hnone.nil_eq.symm
  have hplaces := h.held
  rw [List.map_eq_nil_iff.mp hheld] at hplaces
  simp only [hcompleted, List.append_nil, List.map_map, List.mem_map] at hanswered
  obtain ⟨a, hmem, -⟩ := hanswered
  have hentry : a.entry ∈ ([] : List (Nat × EdgeWorkItem)) := by
    rw [hplaces.mem_iff]
    simp only [List.mem_append, List.mem_map]
    exact .inr (.inr ⟨a, .inr hmem, rfl⟩)
  exact List.not_mem_nil hentry

/-- So it is once the root of the tree is there. -/
theorem known_of_top (h : ItemsFollowed D ops s L handled accounted) (hkept : Kept L n []) {p : TreeParams}
    {m : FoldMachine.State ProofBytes} (ht : Tracks p n s m) (ha : Arities p.leafArity p.internalArity) (hn : 0 < n)
    (htop : m.got (p.plan n).top 0 ≠ none) : L.st.numSegments = some n := by
  obtain ⟨o, ho, -⟩ := ht.mirrors.inv.got_ordered (p.finalLayer n + 1) 0 htop
  rw [← ht.orders] at ho
  obtain ⟨final, hfinal, horder⟩ := List.mem_filterMap.mp ho
  have hother : final.isEvm = false := by
    cases final <;> simp_all [orderOf, GeneralProveRequest.isEvm]
  rcases List.mem_append.mp (h.answered.mem_iff.mp hfinal) with hout | hanswered
  · have hyes := (ht.outstanding_of_top ha hn htop).2 final hout
    rw [hother] at hyes
    simp at hyes
  · exact h.known_of_answered hkept hanswered

end ItemsFollowed

/-- Every segment reported is in one place: about to be handled, about to be accounted for, or accounted for. -/
structure SegmentsFollowed (numWorkers n : Nat) (D : Duties) (ops : List Op) (s : TreeState) (L : Ledger) : Prop where
  tokens : D.segments.Perm (segmentsOf (handling ops) ++ (segmentsOf (accounting ops) ++ L.reported))
  nodup : D.segments.Nodup
  owned : ∀ entry ∈ D.segments, entry.1 ∈ D.shards ∧ entry.2 ∈ shard entry.1 numWorkers n
  delivered : ∀ i, (∃ q ∈ s.delivered, q.appSegment = some i) → ∃ w, (w, i) ∈ segmentsOf (accounting ops) ++ L.reported

namespace SegmentsFollowed
variable {numWorkers n : Nat} {D D' : Duties} {ops ops' : List Op} {s s' : TreeState} {L L' : Ledger}

theorem congr (h : SegmentsFollowed numWorkers n D ops s L) (hsegments : D'.segments = D.segments)
    (hshards : ∀ id ∈ D.shards, id ∈ D'.shards)
    (hhandles : (segmentsOf (handling ops)).Perm (segmentsOf (handling ops')))
    (haccounts : (segmentsOf (accounting ops)).Perm (segmentsOf (accounting ops')))
    (hreported : L'.reported = L.reported)
    (hdelivered : ∀ q ∈ s'.delivered, q.appSegment ≠ none → q ∈ s.delivered) :
    SegmentsFollowed numWorkers n D' ops' s' L' := by
  refine ⟨?_, hsegments ▸ h.nodup, fun entry hentry => ?_, fun i hi => ?_⟩
  · rw [hsegments, hreported]
    exact h.tokens.trans (hhandles.append (haccounts.append_right _))
  · obtain ⟨hshard, hmem⟩ := h.owned entry (hsegments ▸ hentry)
    exact ⟨hshards _ hshard, hmem⟩
  · obtain ⟨q, hq, hsegment⟩ := hi
    obtain ⟨w, hw⟩ := h.delivered i ⟨q, hdelivered q hq (by simp [hsegment]), hsegment⟩
    refine ⟨w, ?_⟩
    rw [hreported]
    exact (haccounts.append_right _).mem_iff.mp hw

theorem perm (h : SegmentsFollowed numWorkers n D ops s L) (hops : ops.Perm ops') :
    SegmentsFollowed numWorkers n D ops' s L :=
  h.congr rfl (fun _ => id) ((hops.filterMap _).filterMap _) ((hops.filterMap _).filterMap _) rfl fun _ hq _ => hq

/-- A worker reports a segment of its shard for the first time. -/
theorem report (h : SegmentsFollowed numWorkers n D ops s L) {workerId : Nat} {envelope : MessageEnvelope ProofResult}
    {appProof : AppProof} (hmessage : envelope.message = .app appProof) (hshard : workerId ∈ D.shards)
    (hmem : appProof.state.segmentIdx ∈ shard workerId numWorkers n)
    (hfresh : (workerId, appProof.state.segmentIdx) ∉ D.segments) :
    SegmentsFollowed numWorkers n (D.report workerId (.segment appProof.state.segmentIdx))
      (.process workerId envelope :: ops) s L := by
  refine ⟨?_, List.nodup_cons.mpr ⟨hfresh, h.nodup⟩, List.forall_mem_cons.mpr ⟨⟨hshard, hmem⟩, h.owned⟩, ?_⟩
  · have hsegments : segmentsOf (handling (.process workerId envelope :: ops)) =
        (workerId, appProof.state.segmentIdx) :: segmentsOf (handling ops) := by
      simp [hmessage, ProofResult.appSegment]
    rw [hsegments]
    exact h.tokens.cons _
  · simpa [List.filterMap_cons] using h.delivered

/-- A segment that is about to be handled was not delivered before. -/
theorem fresh (h : SegmentsFollowed numWorkers n D ops s L) {workerId i : Nat}
    (hmem : (workerId, i) ∈ segmentsOf (handling ops)) : i < n ∧ ∀ q ∈ s.delivered, q.appSegment ≠ some i := by
  have hnodup := h.tokens.nodup_iff.mp h.nodup
  have hown {w : Nat} (hw : (w, i) ∈ D.segments) : i < n ∧ i % numWorkers = w := mem_shard.mp (h.owned _ hw).2
  have hthis := hown (h.tokens.mem_iff.mpr (List.mem_append_left _ hmem))
  refine ⟨hthis.1, fun q hq hsegment => ?_⟩
  obtain ⟨w, hw⟩ := h.delivered i ⟨q, hq, hsegment⟩
  have hother := hown (h.tokens.mem_iff.mpr (List.mem_append_right _ hw))
  obtain rfl : w = workerId := hother.2.symm.trans hthis.2
  exact (List.nodup_append.mp hnodup).2.2 _ hmem _ hw rfl

/-- The tree takes a segment, which is accounted for next. -/
theorem deliver (h : SegmentsFollowed numWorkers n D ops s L) {workerId i : Nat} {r : ProofResult}
    (hsegment : r.appSegment = some i) (hdelivered : s'.delivered = s.delivered ++ [r])
    (hhandles : (segmentsOf (handling ops)).Perm ((workerId, i) :: segmentsOf (handling ops')))
    (haccounts : (segmentsOf (accounting ops')).Perm ((workerId, i) :: segmentsOf (accounting ops))) :
    SegmentsFollowed numWorkers n D ops' s' L := by
  have hmove := haccounts.append_right L.reported
  refine ⟨?_, h.nodup, h.owned, fun j hj => ?_⟩
  · refine h.tokens.trans ((hhandles.append_right _).trans ?_)
    rw [List.cons_append]
    exact List.perm_middle.symm.trans (hmove.symm.append_left _)
  · obtain ⟨q, hq, hj⟩ := hj
    rw [hdelivered, List.mem_append, List.mem_singleton] at hq
    obtain hq | rfl := hq
    · obtain ⟨w, hw⟩ := h.delivered j ⟨q, hq, hj⟩
      exact ⟨w, hmove.mem_iff.mpr (List.mem_cons_of_mem _ hw)⟩
    · obtain rfl : i = j := Option.some.inj (hsegment.symm.trans hj)
      exact ⟨workerId, hmove.mem_iff.mpr List.mem_cons_self⟩

/-- The scheduler accounts for a segment. -/
theorem account (h : SegmentsFollowed numWorkers n D ops s L) {workerId i : Nat}
    (haccounts : (segmentsOf (accounting ops)).Perm ((workerId, i) :: segmentsOf (accounting ops')))
    (hhandles : (segmentsOf (handling ops)).Perm (segmentsOf (handling ops'))) :
    (workerId, i) ∈ D.segments ∧ (workerId, i) ∉ L.reported ∧
      SegmentsFollowed numWorkers n D ops' s (L.reportSegment workerId i) := by
  have hmove : (segmentsOf (accounting ops) ++ L.reported).Perm
      (segmentsOf (accounting ops') ++ (L.reportSegment workerId i).reported) :=
    (haccounts.append_right _).trans List.perm_middle.symm
  have htokens := h.tokens.trans (hhandles.append hmove)
  have hmem : (workerId, i) ∈ segmentsOf (accounting ops') ++ (L.reportSegment workerId i).reported :=
    List.mem_append_right _ List.mem_cons_self
  refine ⟨htokens.mem_iff.mpr (List.mem_append_right _ hmem), fun hreported => ?_, htokens, h.nodup, h.owned,
    fun j hj => ?_⟩
  · have hnodup := (List.nodup_append.mp (htokens.nodup_iff.mp h.nodup)).2.1
    have hlast := (List.nodup_append.mp hnodup).2.1
    exact (List.nodup_cons.mp hlast).1 hreported
  · obtain ⟨w, hw⟩ := h.delivered j hj
    exact ⟨w, hmove.mem_iff.mp hw⟩

end SegmentsFollowed

/-- The ExecuteE2 result is in one place: about to be handled, about to be recorded, or recorded. -/
structure CountFollowed (D : Duties) (ops : List Op) (s : TreeState) (L : Ledger) : Prop where
  once : (handling ops).countP (·.2.isExecuteE2) + ((recording ops).length + if L.st.numSegments = none then 0 else 1) =
    if D.executed then 1 else 0
  delivered : (∃ q ∈ s.delivered, q.isExecuteE2 = true) →
    0 < (recording ops).length + if L.st.numSegments = none then 0 else 1

namespace CountFollowed
variable {D D' : Duties} {ops ops' : List Op} {s s' : TreeState} {L L' : Ledger}

theorem congr (h : CountFollowed D ops s L) (hexecuted : D'.executed = D.executed)
    (hhandles : (handling ops).countP (·.2.isExecuteE2) = (handling ops').countP (·.2.isExecuteE2))
    (hrecords : (recording ops).length = (recording ops').length) (hknown : L'.st.numSegments = L.st.numSegments)
    (hdelivered : ∀ q ∈ s'.delivered, q.isExecuteE2 = true → q ∈ s.delivered) : CountFollowed D' ops' s' L' := by
  refine ⟨?_, fun hq => ?_⟩
  · rw [hexecuted, hknown, ← hhandles, ← hrecords]
    exact h.once
  · obtain ⟨q, hq, he2⟩ := hq
    rw [hknown, ← hrecords]
    exact h.delivered ⟨q, hdelivered q hq he2, he2⟩

theorem perm (h : CountFollowed D ops s L) (hops : ops.Perm ops') : CountFollowed D ops' s L :=
  h.congr rfl ((hops.filterMap _).countP_eq _) (hops.filterMap _).length_eq rfl fun _ hq _ => hq

theorem report (h : CountFollowed D ops s L) {workerId : Nat} {envelope : MessageEnvelope ProofResult}
    (hexecuted : D.executed = false) (hmessage : envelope.message.isExecuteE2 = true) :
    CountFollowed (D.report workerId .executeE2) (.process workerId envelope :: ops) s L := by
  refine ⟨?_, by simpa [List.filterMap_cons] using h.delivered⟩
  have honce := h.once
  have hcount : (handling (.process workerId envelope :: ops)).countP (·.2.isExecuteE2) =
      (handling ops).countP (·.2.isExecuteE2) + 1 := by
    simp [hmessage]
  have hrecords : recording (.process workerId envelope :: ops) = recording ops := by
    simp [List.filterMap_cons]
  rw [hexecuted] at honce
  rw [hcount, hrecords]
  simp only [Duties.report, if_true]
  simp only [Bool.false_eq_true, if_false] at honce
  omega

/-- A result that is about to be handled was not delivered before. -/
theorem fresh (h : CountFollowed D ops s L) (hmem : 0 < (handling ops).countP (·.2.isExecuteE2)) :
    ∀ q ∈ s.delivered, q.isExecuteE2 = false := fun q hq => by
  by_contra he2
  have hdelivered := h.delivered ⟨q, hq, by simpa using he2⟩
  have hone : (if D.executed then 1 else 0) ≤ 1 := by split <;> decide
  have honce := h.once
  omega

/-- The tree learns the count, which is recorded next. -/
theorem deliver (h : CountFollowed D ops s L)
    (hhandles : (handling ops).countP (·.2.isExecuteE2) = (handling ops').countP (·.2.isExecuteE2) + 1)
    (hrecords : (recording ops').length = (recording ops).length + 1) : CountFollowed D ops' s' L := by
  have honce := h.once
  refine ⟨?_, fun _ => by omega⟩
  rw [← honce]
  omega

/-- The scheduler records the count for the first time. -/
theorem record (h : CountFollowed D ops s L) (hrecords : (recording ops).length = (recording ops').length + 1)
    (hhandles : (handling ops).countP (·.2.isExecuteE2) = (handling ops').countP (·.2.isExecuteE2))
    (hknown : L'.st.numSegments ≠ none) : L.st.numSegments = none ∧ CountFollowed D ops' s L' := by
  have honce := h.once
  have hone : (if D.executed then 1 else 0) ≤ 1 := by split <;> decide
  have hnone : L.st.numSegments = none := by
    by_contra hsome
    rw [if_neg hsome] at honce
    omega
  rw [if_pos hnone] at honce
  refine ⟨hnone, ?_, fun _ => ?_⟩
  · rw [if_neg hknown, ← honce]
    omega
  · rw [if_neg hknown]
    omega

end CountFollowed

/-- Requests, segments and the segment count are each in one place. -/
structure WorkFollowed (numWorkers n : Nat) (D : Duties) (ops : List Op) (s : TreeState) (L : Ledger)
    (handled accounted : List Answer) : Prop where
  items : ItemsFollowed D ops s L handled accounted
  segments : SegmentsFollowed numWorkers n D ops s L
  count : CountFollowed D ops s L

theorem WorkFollowed.perm {numWorkers n : Nat} {D : Duties} {ops ops' : List Op} {s : TreeState} {L : Ledger}
    {handled accounted : List Answer} (h : WorkFollowed numWorkers n D ops s L handled accounted)
    (hops : ops.Perm ops') :
    WorkFollowed numWorkers n D ops' s L handled accounted :=
  ⟨h.items.perm hops, h.segments.perm hops, h.count.perm hops⟩

/-- Nothing is left to be handed out, handled, recorded or reported. -/
structure AllAnswered (numWorkers n : Nat) (D : Duties) (ops : List Op) (s : TreeState) (L : Ledger) : Prop where
  handling : handling ops = []
  recording : recording ops = []
  enqueueing : enqueueing ops = []
  shipping : shipping ops = []
  waiting : L.st.pending.items = []
  items : D.items = []
  executed : D.executed = true
  segments : ∀ id, ∀ segment ∈ shard id numWorkers n, (id, segment) ∈ D.segments
  assigned : s.emitted.Perm (L.assignments.map (·.item.request))

/-- So it is once the final artifact is there. -/
theorem WorkFollowed.allAnswered {numWorkers n : Nat} {D : Duties} {ops : List Op} {s : TreeState} {L : Ledger}
    {handled accounted : List Answer} (h : WorkFollowed numWorkers n D ops s L handled accounted) (hkept : Kept L n [])
    {p : TreeParams} {m : FoldMachine.State ProofBytes} (ht : Tracks p n s m)
    (ha : Arities p.leafArity p.internalArity) (hn : 0 < n) (hready : s.ps.isReadyForFinalization = true)
    (hsound : ∀ entry ∈ handling ops, ∀ e, entry.2 ≠ .error e) : AllAnswered numWorkers n D ops s L := by
  obtain ⟨hlearned, htop, hevm⟩ := ht.known_of_ready hready
  obtain ⟨happs, hout⟩ := ht.outstanding_of_top ha hn htop
  have hknown := h.items.known_of_top hkept ht ha hn htop
  have hnone : s.outstanding = [] := List.eq_nil_iff_forall_not_mem.mpr fun q hq => by
    have hmem : q ∈ s.outstanding.filter (·.isEvm) := List.mem_filter.mpr ⟨hq, hout q hq⟩
    rw [hevm] at hmem
    exact List.not_mem_nil hmem
  have hplaces := h.items.outstanding hkept
  rw [hnone] at hplaces
  have hempty := hplaces.nil_eq.symm
  simp only [List.append_eq_nil_iff, List.map_eq_nil_iff] at hempty
  obtain ⟨⟨hwaiting, hshipping, hitems, hhandled⟩, henqueueing⟩ := hempty
  have hhandling : handling ops = [] := List.eq_nil_iff_forall_not_mem.mpr fun entry hentry => by
    cases hresult : entry.2 with
    | error e => exact hsound entry hentry e hresult
    | executeE2 r =>
      have hpos : 0 < (handling ops).countP (·.2.isExecuteE2) :=
        List.countP_pos_iff.mpr ⟨entry, hentry, by simp [hresult, ProofResult.isExecuteE2]⟩
      obtain ⟨q, hq, he2⟩ := ht.executeE2.mpr hlearned
      rw [h.count.fresh hpos q hq] at he2
      simp at he2
    | app r =>
      have hmem : (entry.1, r.state.segmentIdx) ∈ segmentsOf (handling ops) :=
        List.mem_filterMap.mpr ⟨entry, hentry, by simp [hresult, ProofResult.appSegment]⟩
      obtain ⟨hlt, hfresh⟩ := h.segments.fresh hmem
      obtain ⟨q, hq, hsegment⟩ := happs _ hlt
      exact hfresh q hq hsegment
    | leaf | internal | evm =>
      have hmem : entry ∈ answersOf (handling ops) :=
        List.mem_filter.mpr ⟨hentry, by simp [hresult, ProofResult.completedStep]⟩
      rw [h.items.handles.mem_iff, hhandled] at hmem
      simp at hmem
  have honce := h.count.once
  rw [hhandling, if_neg (by simp [hknown]), List.countP_nil, Nat.zero_add] at honce
  have hexecuted : D.executed = true := by
    by_contra hnot
    rw [if_neg hnot] at honce
    omega
  rw [if_pos hexecuted] at honce
  refine
    { handling := hhandling
      recording := List.length_eq_zero_iff.mp (by omega)
      enqueueing := henqueueing
      shipping := hshipping
      waiting := hwaiting
      items := hitems
      executed := hexecuted
      segments := fun id segment hsegment => ?_
      assigned := ?_ }
  · obtain ⟨hlt, hmod⟩ := mem_shard.mp hsegment
    obtain ⟨w, hw⟩ := h.segments.delivered segment (happs segment hlt)
    have htold := h.segments.tokens.mem_iff.mpr (List.mem_append_right _ hw)
    obtain rfl : w = id := (mem_shard.mp (h.segments.owned _ htold).2).2.symm.trans hmod
    exact htold
  · have hemitted := h.items.emitted
    rw [henqueueing, List.append_nil] at hemitted
    have hpartition := hkept.partition
    rw [hwaiting, List.nil_append, List.nil_append] at hpartition
    have hassigned := (hpartition.trans hkept.assigned.symm).map (·.request)
    rw [List.map_map] at hassigned
    exact hemitted.trans hassigned

end EdgeProver
