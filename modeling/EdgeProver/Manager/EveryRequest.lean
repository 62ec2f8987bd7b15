import EdgeProver.Manager.Places
import EdgeProver.Tree.Liveness

/-! No work is lost: in every failure-free run each request that was emitted is handed to exactly one worker, and
nothing is handed out before the segment count is recorded. -/
namespace EdgeProver

private theorem GeneralProveRequest.isEvm_iff {request : GeneralProveRequest} :
    request.isEvm = true ↔ request.step = .evmProve := by
  cases request <;> simp [GeneralProveRequest.step, GeneralProveRequest.isEvm]

private theorem numSegments_exec {proofUuid : String} {c : Choice} {m : Manager} {st st' : EdgeProofState}
    (hst : m.scheduler = some st) (op : Op) (htouches : op.touchesScheduler = true) (hset : op.kind ≠ .setNumSegments)
    (hst' : (op.exec proofUuid c m).state.scheduler = some st') : st'.numSegments = st.numSegments := by
  obtain ⟨works, -, heffect⟩ := effect_of_touches hst htouches hst'
  obtain ⟨n, rfl, -⟩ | ⟨-, hsame⟩ := heffect.numSegments
  · exact absurd rfl hset
  · exact hsame

structure TreeState.Takes (s s' : TreeState) (r : ProofResult) : Prop where
  delivered : s'.delivered = s.delivered ++ [r]
  emitted : s.emitted ⊆ s'.emitted

/-- A run that has not brought the final artifact yet, with the tree and the ledger that it goes along with. -/
structure Underway (p : TreeParams) (fleet : List (Nat × RegisteredWorker)) (leafPackThreshold maxLeafProvers n : Nat)
    (J : Journal) (s : TreeState) (L : Ledger) (handled accounted : List Answer) : Prop where
  tree : HonestRun p n s
  accepted : Accepted p n s.delivered
  unsealed : s.ps.isReadyForFinalization = false
  ledger : LedgerRun fleet leafPackThreshold maxLeafProvers p.context.proofUuid n L
  proof : J.tracked.world.state.proof = some s.ps
  scheduler : J.tracked.world.state.scheduler = some L.st
  emitted : J.emitted = s.emitted
  assigned : (J.assigned.map (·.work.entry)) = L.assignments.map fun a => (a.worker, a.item)
  known : ∀ a ∈ J.assigned, a.known = some n
  followed : WorkFollowed (appEligibleWorkers fleet).length n J.tracked.duties J.tracked.world.ops s L handled accounted
  honest : ∀ entry ∈ handling J.tracked.world.ops, entry.2.Honest p n
  sound : ∀ entry ∈ accounting J.tracked.world.ops, ∀ e, entry.2 ≠ .error e
  shards : ∀ id ∈ J.tracked.duties.shards, id ∈ appEligibleWorkers fleet
  live : ∀ op ∈ J.tracked.world.ops, op.Live
  bounded : SlotsBounded (.initProof fleet leafPackThreshold maxLeafProvers) (appEligibleWorkers fleet) [] n J.tracked
    L.st

/-- Everything is reported and handed out, and the steps that are left finish the proof. -/
structure Finished (numWorkers n : Nat) (J : Journal) : Prop where
  assigned : J.emitted.Perm (J.assigned.map (·.work.envelope.message))
  distinct : J.emitted.Nodup
  known : ∀ a ∈ J.assigned, a.known = some n
  quiet : J.tracked.world.state.waits = false
  executed : J.tracked.duties.executed = true
  segments : ∀ id, ∀ segment ∈ shard id numWorkers n, (id, segment) ∈ J.tracked.duties.segments
  items : J.tracked.duties.items = []
  finishing : ∀ op ∈ J.tracked.world.ops, op.kind ∈ finishingKinds

namespace Underway
variable {p : TreeParams} {fleet : List (Nat × RegisteredWorker)} {leafPackThreshold maxLeafProvers n : Nat}
  {J : Journal} {s : TreeState} {L : Ledger} {handled accounted : List Answer}
  (hids : (fleet.map Prod.fst).Nodup) (hne : appEligibleWorkers fleet ≠ [])
  (ha : Arities p.leafArity p.internalArity) (hn : 0 < n)

include hids hne in
theorem settled (h : Underway p fleet leafPackThreshold maxLeafProvers n J s L handled accounted) : Settled L n :=
  settled_of_run hids (appEligibleWorkers_ne_nil.mp hne) h.ledger

include ha hn in
theorem tracks (h : Underway p fleet leafPackThreshold maxLeafProvers n J s L handled accounted) :
    ∃ m, Tracks p n s m ∧ s.ps.isSealedForResults = false := by
  obtain ⟨m, ht⟩ := tracks_of_accepted ha hn h.tree h.accepted
  exact ⟨m, ht, ProofState.not_sealed_iff.mpr ⟨ht.mirrors.status, h.unsealed⟩⟩

/-- A worker reports what it owes. -/
theorem report (h : Underway p fleet leafPackThreshold maxLeafProvers n J s L handled accounted) {workerId : Nat}
    {envelope : MessageEnvelope ProofResult} {report : Report}
    (hallowed : FailureFree p (appEligibleWorkers fleet).length n J.tracked (.report workerId envelope report)) :
    ∃ handled', Underway p fleet leafPackThreshold maxLeafProvers n { J with tracked :=
      ⟨{ J.tracked.world with tasks := resultTask workerId envelope :: J.tracked.world.tasks },
        J.tracked.duties.report workerId report⟩ } s L handled' accounted := by
  obtain ⟨howes, hhonest, hanswers⟩ := hallowed
  have hops : ({ J.tracked.world with tasks := resultTask workerId envelope :: J.tracked.world.tasks } : World).ops =
      .process workerId envelope :: J.tracked.world.ops := rfl
  have hshards : (J.tracked.duties.report workerId report).shards = J.tracked.duties.shards := by
    cases report <;> rfl
  suffices ∃ handled', WorkFollowed (appEligibleWorkers fleet).length n (J.tracked.duties.report workerId report)
      (.process workerId envelope :: J.tracked.world.ops) s L handled' accounted by
    obtain ⟨handled', hfollowed⟩ := this
    refine ⟨handled', { h with
      followed := hfollowed
      honest := List.forall_mem_cons.mpr ⟨hhonest, h.honest⟩
      sound := ?_, shards := hshards ▸ h.shards
      live := List.forall_mem_cons.mpr ⟨trivial, h.live⟩
      bounded := h.bounded.report howes }⟩
    rw [hops]
    simpa [List.filterMap_cons] using h.sound
  have hitems (hstep : envelope.message.completedStep = none) (hsame : (J.tracked.duties.report workerId report).items =
      J.tracked.duties.items) : ItemsFollowed (J.tracked.duties.report workerId report)
        (.process workerId envelope :: J.tracked.world.ops) s L handled accounted := by
    refine h.followed.items.congr hsame ?_ ?_ ?_ ?_ <;> simp [List.filterMap_cons, hstep]
  have hsegments (hsegment : envelope.message.appSegment = none)
      (hsame : (J.tracked.duties.report workerId report).segments = J.tracked.duties.segments) :
      SegmentsFollowed (appEligibleWorkers fleet).length n (J.tracked.duties.report workerId report)
        (.process workerId envelope :: J.tracked.world.ops) s L := by
    refine h.followed.segments.congr hsame (fun id hid => hshards ▸ hid) ?_ ?_ rfl fun _ hq _ => hq <;>
      simp [List.filterMap_cons, hsegment]
  have hcount (he2 : envelope.message.isExecuteE2 = false) (hsame : (J.tracked.duties.report workerId report).executed =
      J.tracked.duties.executed) : CountFollowed (J.tracked.duties.report workerId report)
        (.process workerId envelope :: J.tracked.world.ops) s L := by
    refine h.followed.count.congr hsame ?_ ?_ rfl fun _ hq _ => hq <;> simp [List.filterMap_cons, he2]
  cases report with
  | executeE2 =>
    obtain ⟨hexecuted, r, hr, -⟩ := howes
    have hmessage : envelope.message.isExecuteE2 = true := by simp [hr, ProofResult.isExecuteE2]
    exact ⟨handled, hitems (by simp [hr, ProofResult.completedStep]) rfl,
      hsegments (by simp [hr, ProofResult.appSegment]) rfl, h.followed.count.report hexecuted hmessage⟩
  | segment segment =>
    obtain ⟨hshard, -, hmem, hfresh, r, hr, rfl⟩ := howes
    exact ⟨handled, hitems (by simp [hr, ProofResult.completedStep]) rfl,
      h.followed.segments.report hr hshard hmem hfresh, hcount (by simp [hr, ProofResult.isExecuteE2]) rfl⟩
  | shard =>
    obtain ⟨-, -, e, he⟩ := howes
    exact absurd he (hhonest.succeeds e)
  | item item =>
    obtain ⟨hitem, hstep | ⟨e, he⟩⟩ := howes
    · obtain ⟨hsegment, he2⟩ := other_of_completedStep hstep
      exact ⟨⟨workerId, item, envelope.message⟩ :: handled, h.followed.items.answer
        (a := ⟨workerId, item, envelope.message⟩) hitem rfl (hanswers item rfl) hstep, hsegments hsegment rfl,
        hcount he2 rfl⟩
    · exact absurd he (hhonest.succeeds e)

section
variable {op : Op} {c : Choice} {W : World}

private theorem skip (h : Underway p fleet leafPackThreshold maxLeafProvers n J s L handled accounted)
    {next others : List Op} (hallowed : FailureFree p (appEligibleWorkers fleet).length n J.tracked (.run op c))
    (hids : (fleet.map Prod.fst).Nodup) (hstep : WorldStep p.context.proofUuid J.tracked.world (.run op c) W)
    (hold : J.tracked.world.ops.Perm (op :: others)) (hnew : W.ops.Perm (next ++ others)) (hop : op.Silent)
    (hnext : ∀ op' ∈ next, op'.Silent ∧ op'.Live) (hproof : W.state.proof = J.tracked.world.state.proof)
    (hscheduler : W.state.scheduler = J.tracked.world.state.scheduler)
    (hshards : (J.tracked.duties.run c J.tracked.world.state op).shards = J.tracked.duties.shards)
    (hitems : ItemsFollowed (J.tracked.duties.run c J.tracked.world.state op) W.ops s L handled accounted) :
    Underway p fleet leafPackThreshold maxLeafProvers n
      { J with tracked := ⟨W, J.tracked.duties.run c J.tracked.world.state op⟩ } s L handled accounted := by
  obtain ⟨hsegments, -, hexecuted⟩ := J.tracked.duties.run_reports c J.tracked.world.state op
  have hhandles : (handling J.tracked.world.ops).Perm (handling W.ops) :=
    filterMap_silent hold hnew hop.1 fun op' hop' => (hnext op' hop').1.1
  have hcompletes : (accounting J.tracked.world.ops).Perm (accounting W.ops) :=
    filterMap_silent hold hnew hop.2.1 fun op' hop' => (hnext op' hop').1.2.1
  have hrecords : (recording J.tracked.world.ops).Perm (recording W.ops) :=
    filterMap_silent hold hnew hop.2.2.2 fun op' hop' => (hnext op' hop').1.2.2.2
  have hprocess : op.kind ≠ .process := by
    obtain ⟨hhandles, -⟩ := hop
    cases op <;> simp_all [Op.kind]
  have hstart : ((EdgeProofState.initProof fleet leafPackThreshold maxLeafProvers).workers.map (·.id)).Nodup :=
    initProof_ids ▸ hids
  refine { h with
    proof := hproof.trans h.proof
    scheduler := hscheduler.trans h.scheduler
    followed := ⟨hitems, ?_, ?_⟩
    honest := fun entry hentry => h.honest entry (hhandles.mem_iff.mpr hentry)
    sound := fun entry hentry => h.sound entry (hcompletes.mem_iff.mpr hentry)
    shards := hshards ▸ h.shards
    live := fun op' hop' => ?_
    bounded := h.bounded.run hstart h.scheduler hstep (nothingLost_of_failureFree hprocess hallowed)
      (hscheduler.trans h.scheduler) }
  · exact h.followed.segments.congr hsegments (fun id hid => hshards ▸ hid) (hhandles.filterMap _)
      (hcompletes.filterMap _) rfl fun _ hq _ => hq
  · exact h.followed.count.congr hexecuted (hhandles.countP_eq _) hrecords.length_eq rfl fun _ hq _ => hq
  · rcases List.mem_append.mp (hnew.mem_iff.mp hop') with hop' | hop'
    · exact (hnext op' hop').2
    · exact h.live op' (hold.mem_iff.mpr (List.mem_cons_of_mem _ hop'))

private theorem pause (h : Underway p fleet leafPackThreshold maxLeafProvers n J s L handled accounted)
    (hallowed : FailureFree p (appEligibleWorkers fleet).length n J.tracked (.run op c))
    (hids : (fleet.map Prod.fst).Nodup) (hstep : WorldStep p.context.proofUuid J.tracked.world (.run op c) W)
    (hop : op.Silent) (hships : op.ships = none) {m : Manager}
    (hexec : op.exec p.context.proofUuid c J.tracked.world.state = goOn m [])
    (hproof : m.proof = J.tracked.world.state.proof) (hscheduler : m.scheduler = J.tracked.world.state.scheduler) :
    Underway p fleet leafPackThreshold maxLeafProvers n
      { J with tracked := ⟨W, J.tracked.duties.run c J.tracked.world.state op⟩ } s L handled accounted := by
  obtain ⟨hstate, others, hold, hnew⟩ := TaskPool.ops_run hstep
  rw [hexec] at hstate hnew
  have hduties : J.tracked.duties.run c J.tracked.world.state op = J.tracked.duties := by
    cases op with
    | kickoff appWorkers remaining failures =>
      have hlive := h.live _ (TaskPool.op_mem hstep)
      exact hlive.elim
    | send work retries => simp at hships
    | _ => rfl
  have hnew : W.ops.Perm ([] ++ others) := hnew
  refine h.skip hallowed hids hstep hold hnew hop (List.forall_mem_nil _) (hstate ▸ hproof) (hstate ▸ hscheduler)
    (congrArg (·.shards) hduties) ?_
  rw [hduties]
  have hsame {α : Type} {f : Op → Option α} (hf : f op = none) :
      (J.tracked.world.ops.filterMap f).Perm (W.ops.filterMap f) :=
    filterMap_silent hold hnew hf (List.forall_mem_nil _)
  exact h.followed.items.congr rfl (hsame hop.2.2.1) (hsame hships) ((hsame hop.1).filter _) ((hsame hop.2.1).filter _)

private theorem send (h : Underway p fleet leafPackThreshold maxLeafProvers n J s L handled accounted)
    {work : AssignedWork} {retries : Nat}
    (hallowed : FailureFree p (appEligibleWorkers fleet).length n J.tracked (.run (.send work retries) c))
    (hids : (fleet.map Prod.fst).Nodup)
    (hstep : WorldStep p.context.proofUuid J.tracked.world (.run (.send work retries) c) W) :
    Underway p fleet leafPackThreshold maxLeafProvers n
      { J with tracked := ⟨W, J.tracked.duties.run c J.tracked.world.state (.send work retries)⟩ } s L handled
      accounted := by
  obtain ⟨hstate, others, hold, hnew⟩ := TaskPool.ops_run hstep
  have hsilent : (Op.send work retries).Silent := ⟨rfl, rfl, rfl, rfl⟩
  have hships : (shipping J.tracked.world.ops).Perm (work.entry :: shipping others) := hold.filterMap _
  by_cases hdelivers : J.tracked.world.state.delivers c work = true
  · have hexec : (Op.send work retries).exec p.context.proofUuid c J.tracked.world.state =
        goOn J.tracked.world.state (if work.isDeferralTail then [.removeStaged] else []) := by
      simp only [Op.exec, if_pos hdelivers]
    rw [hexec] at hstate hnew
    have hduties : J.tracked.duties.run c J.tracked.world.state (.send work retries) =
        { J.tracked.duties with items := work.entry :: J.tracked.duties.items } := by
      simp only [Duties.run, if_pos hdelivers]
      rfl
    simp only [goOn, List.flatten_nil, List.append_nil] at hnew
    have hnext : ∀ op' ∈ (if work.isDeferralTail then [Op.removeStaged] else []), op' = .removeStaged := by
      split <;> simp
    have hsame {α : Type} {f : Op → Option α} (hf : f (.send work retries) = none) (hf' : f .removeStaged = none) :
        (J.tracked.world.ops.filterMap f).Perm (W.ops.filterMap f) :=
      filterMap_silent hold hnew hf fun op' hop' => hnext op' hop' ▸ hf'
    refine h.skip hallowed hids hstep hold hnew hsilent (fun op' hop' => ?_) (hstate ▸ rfl) (hstate ▸ rfl)
      (congrArg (·.shards) hduties) ?_
    · rw [hnext op' hop']
      exact ⟨⟨rfl, rfl, rfl, rfl⟩, trivial⟩
    · rw [hduties]
      refine h.followed.items.accept (hships.trans (List.Perm.cons _ ?_)) (hsame rfl rfl) ((hsame rfl rfl).filter _)
        ((hsame rfl rfl).filter _)
      have hafter := hnew.filterMap Op.ships
      have hnone : (if work.isDeferralTail then [Op.removeStaged] else []).filterMap Op.ships = [] := by
        split <;> rfl
      rw [List.filterMap_append, hnone, List.nil_append] at hafter
      exact hafter.symm
  · have hretry : ¬ retries + 1 ≥ maxRetries := by
      have := hallowed.resolve_right hdelivers
      omega
    have hexec : (Op.send work retries).exec p.context.proofUuid c J.tracked.world.state =
        goOn J.tracked.world.state [.send work (retries + 1)] := by
      simp only [Op.exec, if_neg hdelivers, if_neg hretry]
    rw [hexec] at hstate hnew
    have hduties : J.tracked.duties.run c J.tracked.world.state (.send work retries) = J.tracked.duties := by
      simp only [Duties.run, if_neg hdelivers]
    have hnew : W.ops.Perm ([.send work (retries + 1)] ++ others) := hnew
    have hsame {α : Type} {f : Op → Option α} (hf : f (.send work retries) = none)
        (hf' : f (.send work (retries + 1)) = none) : (J.tracked.world.ops.filterMap f).Perm (W.ops.filterMap f) :=
      filterMap_silent hold hnew hf fun op' hop' => List.mem_singleton.mp hop' ▸ hf'
    refine h.skip hallowed hids hstep hold hnew hsilent (fun op' hop' => ?_) (hstate ▸ rfl) (hstate ▸ rfl)
      (congrArg (·.shards) hduties) ?_
    · rw [List.mem_singleton.mp hop']
      exact ⟨⟨rfl, rfl, rfl, rfl⟩, trivial⟩
    · rw [hduties]
      exact h.followed.items.congr rfl (hsame rfl rfl) (hships.trans (hnew.filterMap Op.ships).symm)
        ((hsame rfl rfl).filter _) ((hsame rfl rfl).filter _)

private theorem call (h : Underway p fleet leafPackThreshold maxLeafProvers n J s L handled accounted) {L₁ L' : Ledger}
    {works : List AssignedWork} {others : List Op} {accounted' : List Answer}
    (hallowed : FailureFree p (appEligibleWorkers fleet).length n J.tracked (.run op c))
    (hids : (fleet.map Prod.fst).Nodup) (hne : appEligibleWorkers fleet ≠ [])
    (hstep : WorldStep p.context.proofUuid J.tracked.world (.run op c) W)
    (hold : J.tracked.world.ops.Perm (op :: others))
    (hnew : W.ops.Perm (op.brings p.context.proofUuid c J.tracked.world.state ++ others))
    (htouches : op.touchesScheduler = true)
    (hexec : op.exec p.context.proofUuid c J.tracked.world.state =
      handOut { J.tracked.world.state with scheduler := some L'.st } works)
    (hledger : LedgerStep p.context.proofUuid n L L') (hgives : L₁.Gives L' works)
    (hgiven : L₁.assignments = L.assignments)
    (hitems : ItemsFollowed J.tracked.duties others s L₁ handled accounted')
    (hsegments : SegmentsFollowed (appEligibleWorkers fleet).length n J.tracked.duties others s L₁)
    (hcount : CountFollowed J.tracked.duties others s L') :
    Underway p fleet leafPackThreshold maxLeafProvers n
      (J.record p.context.proofUuid ⟨W, J.tracked.duties.run c J.tracked.world.state op⟩ (.run op c)) s L' handled
        accounted' := by
  have hstate := (TaskPool.ops_run hstep).1
  have hrun := h.ledger.step hledger
  have hkept := (settled_of_run hids (appEligibleWorkers_ne_nil.mp hne) hrun).kept
  have hduties : J.tracked.duties.run c J.tracked.world.state op = J.tracked.duties := by
    cases op <;> simp_all [Op.touchesScheduler, Duties.run]
  have hprocess : op.kind ≠ .process := by
    cases op <;> simp_all [Op.touchesScheduler, Op.kind]
  have hemits : op.emits p.context.proofUuid c J.tracked.world.state = [] := by
    cases op <;> simp_all [Op.touchesScheduler, Op.emits]
  have hstart : ((EdgeProofState.initProof fleet leafPackThreshold maxLeafProvers).workers.map (·.id)).Nodup :=
    initProof_ids ▸ hids
  unfold Op.brings at hnew
  rw [hexec, brings_handOut] at hnew
  rw [hexec] at hstate
  have hscheduler : W.state.scheduler = some L'.st := hstate ▸ rfl
  have hbounded := h.bounded.run hstart h.scheduler hstep (nothingLost_of_failureFree hprocess hallowed) hscheduler
  have hrecord : J.record p.context.proofUuid ⟨W, J.tracked.duties.run c J.tracked.world.state op⟩ (.run op c) =
      ⟨⟨W, J.tracked.duties⟩, J.emitted, J.assigned ++ works.map fun work => ⟨work, L'.st.numSegments⟩⟩ := by
    simp only [Journal.record, hexec, hemits, hduties, handOut, List.append_nil, Option.bind_some]
  rw [hduties] at hbounded
  rw [hrecord]
  refine { h with
    ledger := hrun
    proof := hstate ▸ h.proof
    scheduler := hscheduler
    assigned := ?_
    known := ?_
    followed := WorkFollowed.perm ⟨hitems.give hgives, ?_, ?_⟩ hnew.symm
    honest := fun entry hentry => h.honest entry ?_
    sound := fun entry hentry => h.sound entry ?_
    live := fun op' hop' => ?_
    bounded := hbounded }
  · rw [hgives.assignments, hgiven, List.map_append, h.assigned, List.map_map]
    rfl
  · refine List.forall_mem_append.mpr ⟨h.known, fun a hmem => ?_⟩
    obtain ⟨work, hwork, rfl⟩ := List.mem_map.mp hmem
    refine hkept.known_of_assigned fun hnil => ?_
    have hlength := congrArg List.length hgives.assignments
    rw [hnil] at hlength
    simp only [List.map_nil, List.length_nil, List.length_append, List.length_map] at hlength
    have hpos := List.length_pos_of_mem hwork
    omega
  · refine hsegments.congr rfl (fun _ hid => hid) ?_ ?_ hgives.reported fun _ hq _ => hq <;> simp
  · refine hcount.congr rfl ?_ ?_ rfl fun _ hq _ => hq <;> simp
  · refine mem_filterMap_of_next hold hnew (fun op' hop' => ?_) hentry
    obtain ⟨work, -, rfl⟩ := List.mem_map.mp hop'
    rfl
  · refine mem_filterMap_of_next hold hnew (fun op' hop' => ?_) hentry
    obtain ⟨work, -, rfl⟩ := List.mem_map.mp hop'
    rfl
  · rcases List.mem_append.mp (hnew.mem_iff.mp hop') with hop' | hop'
    · obtain ⟨work, -, rfl⟩ := List.mem_map.mp hop'
      trivial
    · exact h.live op' (hold.mem_iff.mpr (List.mem_cons_of_mem _ hop'))

private theorem setNumSegments (h : Underway p fleet leafPackThreshold maxLeafProvers n J s L handled accounted)
    {k : Nat}
    (hallowed : FailureFree p (appEligibleWorkers fleet).length n J.tracked (.run (.setNumSegments k) c))
    (hids : (fleet.map Prod.fst).Nodup) (hne : appEligibleWorkers fleet ≠ [])
    (hstep : WorldStep p.context.proofUuid J.tracked.world (.run (.setNumSegments k) c) W) :
    Underway p fleet leafPackThreshold maxLeafProvers n
      (J.record p.context.proofUuid ⟨W, J.tracked.duties.run c J.tracked.world.state (.setNumSegments k)⟩
        (.run (.setNumSegments k) c)) s (L.setNumSegments p.context.proofUuid n) handled accounted := by
  obtain rfl : k = n := h.bounded.counts k (mem_learned.mpr ⟨_, TaskPool.op_mem hstep, rfl⟩)
  obtain ⟨works, hexec, hgives⟩ := Ledger.exec_setNumSegments (c := c) h.scheduler p.context.proofUuid k
  have hknown : (L.setNumSegments p.context.proofUuid k).st.numSegments ≠ none := by
    rw [Ledger.setNumSegments, Ledger.st_after, (L.st.handsOut_setNumSegments p.context.proofUuid k).numSegments]
    exact Option.some_ne_none k
  obtain ⟨-, others, hold, hnew⟩ := TaskPool.ops_run hstep
  obtain ⟨hitems, hsegments, hcount⟩ := h.followed.perm hold
  obtain ⟨hnone, hcount⟩ : L.st.numSegments = none ∧
      CountFollowed J.tracked.duties others s (L.setNumSegments p.context.proofUuid k) :=
    hcount.record (by simp) (by simp [List.filterMap_cons]) hknown
  refine h.call hallowed hids hne hstep hold hnew rfl hexec (.setNumSegments hnone) hgives rfl
    (hitems.congr rfl ?_ ?_ ?_ ?_) (hsegments.congr rfl (fun _ hid => hid) ?_ ?_ rfl fun _ hq _ => hq) hcount <;>
    simp [List.filterMap_cons]

include ha hn in
private theorem known_of_evm (h : Underway p fleet leafPackThreshold maxLeafProvers n J s L handled accounted)
    (hkept : Kept L n []) {request : GeneralProveRequest} (hrequest : request ∈ s.emitted)
    (hevm : request.isEvm = true) :
    L.st.numSegments = some n := by
  obtain ⟨m, ht, -⟩ := h.tracks ha hn
  have horders : evmOrders p n s.ps m ≠ [] := by
    rw [← ht.evms]
    exact List.ne_nil_of_mem (List.mem_filter.mpr ⟨hrequest, hevm⟩)
  obtain ⟨-, -, -, htop⟩ := ht.fresh_of_evm horders
  exact h.followed.items.known_of_top hkept ht ha hn htop

include ha hn in
private theorem enqueue (h : Underway p fleet leafPackThreshold maxLeafProvers n J s L handled accounted)
    {request : GeneralProveRequest}
    (hallowed : FailureFree p (appEligibleWorkers fleet).length n J.tracked (.run (.enqueue request) c))
    (hids : (fleet.map Prod.fst).Nodup) (hne : appEligibleWorkers fleet ≠ [])
    (hstep : WorldStep p.context.proofUuid J.tracked.world (.run (.enqueue request) c) W) :
    ∃ L', Underway p fleet leafPackThreshold maxLeafProvers n
      (J.record p.context.proofUuid ⟨W, J.tracked.duties.run c J.tracked.world.state (.enqueue request)⟩
        (.run (.enqueue request) c)) s L' handled accounted := by
  obtain ⟨item, hitem⟩ : ∃ item : EdgeWorkItem, item = ⟨⟨c.timestamp, c.messageId, request⟩, request.step⟩ := ⟨_, rfl⟩
  have hrequest : item.request = request := hitem ▸ rfl
  obtain ⟨works, hexec, hgives⟩ := Ledger.exec_enqueue h.scheduler p.context.proofUuid hitem
  have hkept := (h.settled hids hne).kept
  have hevm : item.step = .evmProve → L.st.numSegments ≠ none ∧ ∀ other ∈ L.enqueued, other.step ≠ .evmProve := by
    intro hsame
    have hthis : request.isEvm = true := GeneralProveRequest.isEvm_iff.mpr ((congrArg (·.step) hitem).symm.trans hsame)
    have hmem : request ∈ enqueueing J.tracked.world.ops := List.mem_filterMap.mpr ⟨_, TaskPool.op_mem hstep, rfl⟩
    have hemitted := h.followed.items.emitted
    have hknown := h.known_of_evm ha hn hkept (hemitted.mem_iff.mpr (List.mem_append_right _ hmem)) hthis
    refine ⟨by simp [hknown], fun other hother hsame => ?_⟩
    have hthat : other.request.isEvm = true :=
      GeneralProveRequest.isEvm_iff.mpr ((hkept.wellFormed other hother).symm.trans hsame)
    obtain ⟨m, ht, -⟩ := h.tracks ha hn
    have honce := ht.evm_once
    rw [hemitted.countP_eq, List.countP_append] at honce
    have hfirst : 0 < (L.enqueued.map (·.request)).countP (·.isEvm) :=
      List.countP_pos_iff.mpr ⟨_, List.mem_map_of_mem hother, hthat⟩
    have hsecond : 0 < (enqueueing J.tracked.world.ops).countP (·.isEvm) := List.countP_pos_iff.mpr ⟨_, hmem, hthis⟩
    omega
  have hwell : item.WellFormed := hitem ▸ rfl
  obtain ⟨-, others, hold, hnew⟩ := TaskPool.ops_run hstep
  obtain ⟨hitems, hsegments, hcount⟩ := h.followed.perm hold
  have hsame : (L.enqueue p.context.proofUuid item).st.numSegments = L.st.numSegments :=
    numSegments_exec h.scheduler (.enqueue request) rfl (by simp [Op.kind]) (congrArg (·.state.scheduler) hexec)
  refine ⟨_, h.call hallowed hids hne hstep hold hnew rfl hexec (.enqueue item hwell hevm) hgives rfl
    (hitems.request hrequest) (hsegments.congr rfl (fun _ hid => hid) ?_ ?_ rfl fun _ hq _ => hq)
    (hcount.congr rfl ?_ ?_ hsame fun _ hq _ => hq)⟩ <;> simp [List.filterMap_cons]

private theorem workerCompleted (h : Underway p fleet leafPackThreshold maxLeafProvers n J s L handled accounted)
    {workerId : Nat} {result : ProofResult}
    (hallowed : FailureFree p (appEligibleWorkers fleet).length n J.tracked (.run (.workerCompleted workerId result) c))
    (hids : (fleet.map Prod.fst).Nodup) (hne : appEligibleWorkers fleet ≠ [])
    (hstep : WorldStep p.context.proofUuid J.tracked.world (.run (.workerCompleted workerId result) c) W) :
    ∃ L' accounted', Underway p fleet leafPackThreshold maxLeafProvers n
      (J.record p.context.proofUuid ⟨W, J.tracked.duties.run c J.tracked.world.state (.workerCompleted workerId result)⟩
        (.run (.workerCompleted workerId result) c)) s L' handled accounted' := by
  obtain ⟨-, others, hold, hnew⟩ := TaskPool.ops_run hstep
  obtain ⟨hitems, hsegments, hcount⟩ := h.followed.perm hold
  have hmem : (workerId, result) ∈ accounting J.tracked.world.ops :=
    List.mem_filterMap.mpr ⟨_, TaskPool.op_mem hstep, rfl⟩
  have hsame {L' : Ledger} {works : List AssignedWork}
      (hexec : (Op.workerCompleted workerId result).exec p.context.proofUuid c J.tracked.world.state =
        handOut { J.tracked.world.state with scheduler := some L'.st } works) : L'.st.numSegments = L.st.numSegments :=
    numSegments_exec h.scheduler (.workerCompleted workerId result) rfl (by simp [Op.kind])
      (congrArg (·.state.scheduler) hexec)
  cases hcompleted : result.completedStep with
  | some step =>
    have hanswer : (workerId, result) ∈ answersOf (accounting J.tracked.world.ops) :=
      List.mem_filter.mpr ⟨hmem, by simp [hcompleted]⟩
    obtain ⟨a, ha, heq⟩ := List.mem_map.mp (h.followed.items.accounts.mem_iff.mp hanswer)
    obtain ⟨rfl, rfl⟩ := Prod.mk.inj heq
    have hanswers := h.followed.items.steps a (List.mem_append_right _ ha)
    obtain ⟨hsegment, -⟩ := other_of_completedStep hanswers
    obtain ⟨hheld, rest, hitems⟩ : a.entry ∈ L.held ∧ ∃ rest, ItemsFollowed J.tracked.duties others s
        (L.reportItem a.worker a.item) handled rest :=
      hitems.account ha (by simp [hcompleted, Answer.report]) (by simp [List.filterMap_cons])
        (by simp [List.filterMap_cons]) (by simp [List.filterMap_cons])
    obtain ⟨works, hexec, hgives⟩ := Ledger.exec_workerCompleted (c := c)
      (L := L.reportItem a.worker a.item) h.scheduler
      p.context.proofUuid a.worker a.result
    refine ⟨_, rest, h.call hallowed hids hne hstep hold hnew rfl hexec
      (.reportItem a.worker a.item a.result hheld hanswers) hgives rfl hitems
      (hsegments.congr rfl (fun _ hid => hid) ?_ ?_ rfl fun _ hq _ => hq)
      (hcount.congr rfl ?_ ?_ (hsame hexec) fun _ hq _ => hq)⟩ <;>
      simp [List.filterMap_cons, hsegment]
  | none =>
    cases result with
    | error e => exact absurd rfl (h.sound _ hmem e)
    | executeE2 r =>
      obtain ⟨works, hexec, hgives⟩ := Ledger.exec_workerCompleted (c := c) h.scheduler p.context.proofUuid workerId
        (.executeE2 r)
      refine ⟨_, accounted, h.call hallowed hids hne hstep hold hnew rfl hexec (.reportE2 workerId r) hgives rfl
        (hitems.congr rfl ?_ ?_ ?_ ?_) (hsegments.congr rfl (fun _ hid => hid) ?_ ?_ rfl fun _ hq _ => hq)
        (hcount.congr rfl ?_ ?_ (hsame hexec) fun _ hq _ => hq)⟩ <;>
        simp [List.filterMap_cons, ProofResult.completedStep, ProofResult.appSegment]
    | app appProof =>
      obtain ⟨htold, hfresh, hsegments⟩ : (workerId, appProof.state.segmentIdx) ∈ J.tracked.duties.segments ∧
          (workerId, appProof.state.segmentIdx) ∉ L.reported ∧
          SegmentsFollowed (appEligibleWorkers fleet).length n J.tracked.duties others s
            (L.reportSegment workerId appProof.state.segmentIdx) :=
        hsegments.account (by simp [ProofResult.appSegment]) (by simp [List.filterMap_cons])
      obtain ⟨hshard, hsegment⟩ := h.followed.segments.owned _ htold
      have hconfig := config_of_run h.ledger
      obtain ⟨worker, hworker, rfl, hstark⟩ := exists_worker_of_eligible hconfig (h.shards _ hshard)
      have hnum : L.st.numWorkers = (appEligibleWorkers fleet).length :=
        (congrArg (·.numWorkers) hconfig).trans (numWorkers_eq leafPackThreshold maxLeafProvers)
      obtain ⟨works, hexec, hgives⟩ := Ledger.exec_workerCompleted (c := c)
        (L := L.reportSegment worker.id appProof.state.segmentIdx) h.scheduler p.context.proofUuid worker.id
        (.app appProof)
      refine ⟨_, accounted, h.call hallowed hids hne hstep hold hnew rfl hexec
        (.reportApp worker appProof hworker hstark (hnum ▸ hsegment) hfresh) hgives rfl
        ((hitems.congr rfl ?_ ?_ ?_ ?_).reportSegment _ _) hsegments
        (hcount.congr rfl ?_ ?_ (hsame hexec) fun _ hq _ => hq)⟩ <;>
        simp [List.filterMap_cons, ProofResult.completedStep]
    | leaf | internal | evm => simp [ProofResult.completedStep] at hcompleted

private theorem answering (h : Underway p fleet leafPackThreshold maxLeafProvers n J s L handled accounted)
    (hkept : Kept L n []) {workerId : Nat} {result : ProofResult}
    (hhandling : (workerId, result) ∈ handling J.tracked.world.ops) {step : Step}
    (hcompleted : result.completedStep = some step) :
    ∃ a ∈ handled, a.report = (workerId, result) ∧ Answers a.item.request result ∧
      ∃ before after, s.outstanding = before ++ a.item.request :: after := by
  have hanswer : (workerId, result) ∈ answersOf (handling J.tracked.world.ops) :=
    List.mem_filter.mpr ⟨hhandling, by simp [hcompleted]⟩
  obtain ⟨a, ha, heq⟩ := List.mem_map.mp (h.followed.items.handles.mem_iff.mp hanswer)
  obtain ⟨rfl, rfl⟩ := Prod.mk.inj heq
  have hrequest : a.item.request ∈ s.outstanding := by
    rw [(h.followed.items.outstanding hkept).mem_iff]
    simp only [List.mem_append, List.map_append, List.map_map, List.mem_map]
    exact .inl (.inr (.inr (.inr ⟨a, ha, rfl⟩)))
  exact ⟨a, ha, rfl, h.followed.items.honest a ha, List.append_of_mem hrequest⟩

/-- The ExecuteE2 result that a step is about to handle tells the count for the first time. -/
private theorem counting (h : Underway p fleet leafPackThreshold maxLeafProvers n J s L handled accounted)
    {workerId : Nat} {envelope : MessageEnvelope ProofResult}
    (hmem : .process workerId envelope ∈ J.tracked.world.ops) {r : ExecuteE2Result}
    (hresult : envelope.message = .executeE2 r) :
    r.state.numSegments = n ∧ ∀ q ∈ s.delivered, q.isExecuteE2 = false := by
  have hcount : r.state.numSegments = n :=
    h.bounded.counts _ (mem_learned.mpr ⟨_, hmem, by simp [Op.learns, hresult]⟩)
  have he2 : envelope.message.isExecuteE2 = true := by simp [hresult, ProofResult.isExecuteE2]
  exact ⟨hcount, h.followed.count.fresh (List.countP_pos_iff.mpr ⟨_, List.mem_filterMap.mpr ⟨_, hmem, rfl⟩, he2⟩)⟩

private theorem proving (h : Underway p fleet leafPackThreshold maxLeafProvers n J s L handled accounted)
    {workerId : Nat} {r : AppProof} (hhandling : (workerId, .app r) ∈ handling J.tracked.world.ops) :
    r.state.segmentIdx < n ∧ ∀ q ∈ s.delivered, q.appSegment ≠ some r.state.segmentIdx := by
  apply h.followed.segments.fresh
  exact List.mem_filterMap.mpr ⟨(workerId, .app r), hhandling, rfl⟩

private theorem exists_delivery (h : Underway p fleet leafPackThreshold maxLeafProvers n J s L handled accounted)
    (hkept : Kept L n []) {workerId : Nat} {envelope : MessageEnvelope ProofResult}
    (hmem : .process workerId envelope ∈ J.tracked.world.ops) : ∃ rest, Delivery n s rest envelope.message := by
  have hhandling : (workerId, envelope.message) ∈ handling J.tracked.world.ops := List.mem_filterMap.mpr ⟨_, hmem, rfl⟩
  have hhonest : envelope.message.Honest p n := h.honest _ hhandling
  cases hcompleted : envelope.message.completedStep with
  | some step =>
    obtain ⟨a, -, -, hans, before, after, hsplit⟩ := h.answering hkept hhandling hcompleted
    exact ⟨_, .answer before after _ _ hsplit hans⟩
  | none =>
    cases hresult : envelope.message with
    | error e => exact absurd hresult (hhonest.succeeds e)
    | leaf | internal | evm => simp [hresult, ProofResult.completedStep] at hcompleted
    | executeE2 r =>
      obtain ⟨hcount, hfresh⟩ := h.counting hmem hresult
      exact ⟨_, .executeE2 r hcount hfresh⟩
    | app r =>
      obtain ⟨hlt, hfresh⟩ := h.proving (hresult ▸ hhandling)
      exact ⟨_, .app r hlt (hhonest.proof r hresult) hfresh⟩

/-- Where everything is when the tree has taken the result of a step, which the others are still beside: `requests`
follow it up. -/
structure Taken (p : TreeParams) (numWorkers n : Nat) (D : Duties) (s : TreeState) (L : Ledger) (workerId : Nat)
    (envelope : MessageEnvelope ProofResult) (others : List Op) (now : Time) (s' : TreeState)
    (requests : List GeneralProveRequest) (handled accounted : List Answer) : Prop where
  tree : HonestRun p n s'
  accepted : Accepted p n s'.delivered
  delivered : s'.delivered = s.delivered ++ [envelope.message]
  emitted : s'.emitted = s.emitted ++ requests
  processed : s.ps.handleProofResultWithEnvelopeOutcome now envelope =
    (s'.ps, .ok (.processed requests s'.ps.isReadyForFinalization))
  followed : WorkFollowed numWorkers n D (takenNext workerId envelope.message requests ++ others) s' L handled accounted

include ha hn in
private theorem deliver (h : Underway p fleet leafPackThreshold maxLeafProvers n J s L handled accounted)
    {envelope : MessageEnvelope ProofResult} {rest : List GeneralProveRequest} (now : Time)
    (hhonest : envelope.message.Honest p n) (hdelivery : Delivery n s rest envelope.message) :
    HonestRun p n (s.deliver rest now envelope) ∧ Accepted p n (s.deliver rest now envelope).delivered ∧
      ∃ requests, (s.deliver rest now envelope).emitted = s.emitted ++ requests ∧
        (s.deliver rest now envelope).outstanding = rest ++ requests ∧
        s.ps.handleProofResultWithEnvelopeOutcome now envelope = ((s.deliver rest now envelope).ps,
          .ok (.processed requests (s.deliver rest now envelope).ps.isReadyForFinalization)) := by
  obtain ⟨m, ht, hlive⟩ := h.tracks ha hn
  have hrun := h.tree.tail (honestStep_iff.mpr ⟨rest, now, envelope, hdelivery, rfl⟩)
  have haccepted : Accepted p n (s.deliver rest now envelope).delivered := h.accepted.append hhonest.accepted
  obtain ⟨m', ht'⟩ := tracks_of_accepted ha hn hrun haccepted
  obtain ⟨requests, hprocessed, hemitted, houtstanding⟩ :=
    processed_of_accepted ht hlive hhonest.accepted rest ht'.mirrors.status
  exact ⟨hrun, haccepted, requests, hemitted, houtstanding, Prod.ext rfl hprocessed⟩

section
variable {workerId : Nat} {envelope : MessageEnvelope ProofResult} {others : List Op} {numWorkers : Nat} {D : Duties}

private theorem segmentsTaken (h : SegmentsFollowed numWorkers n D (.process workerId envelope :: others) s L)
    (hsegment : envelope.message.appSegment = none) (rest requests : List GeneralProveRequest) (now : Time) :
    SegmentsFollowed numWorkers n D (takenNext workerId envelope.message requests ++ others)
      (s.deliver rest now envelope) L := by
  obtain ⟨hhandles, haccounts, -⟩ := observed_takenNext workerId envelope.message requests others
  refine h.congr rfl (fun _ hid => hid) ?_ ?_ rfl fun q hq hne => ?_
  · rw [hhandles]
    simp [hsegment]
  · rw [haccounts]
    simp [List.filterMap_cons, hsegment]
  · obtain hq | rfl := (List.mem_append.mp hq).imp_right List.mem_singleton.mp
    · exact hq
    · exact absurd hsegment hne

private theorem countTaken (h : CountFollowed D (.process workerId envelope :: others) s L)
    (he2 : envelope.message.isExecuteE2 = false) (rest requests : List GeneralProveRequest) (now : Time) :
    CountFollowed D (takenNext workerId envelope.message requests ++ others) (s.deliver rest now envelope) L := by
  obtain ⟨hhandles, -, -, -, hrecords⟩ := observed_takenNext workerId envelope.message requests others
  refine h.congr rfl ?_ ?_ rfl fun q hq hyes => ?_
  · rw [hhandles]
    simp [he2]
  · rw [hrecords, he2]
    simp [List.filterMap_cons]
  · obtain hq | rfl := (List.mem_append.mp hq).imp_right List.mem_singleton.mp
    · exact hq
    · rw [he2] at hyes
      simp at hyes

private theorem itemsTaken (h : ItemsFollowed D (.process workerId envelope :: others) s L handled accounted)
    (hcompleted : envelope.message.completedStep = none) {s' : TreeState} {requests : List GeneralProveRequest}
    (hemitted : s'.emitted = s.emitted ++ requests) (houtstanding : s'.outstanding = s.outstanding ++ requests) :
    ItemsFollowed D (takenNext workerId envelope.message requests ++ others) s' L handled accounted := by
  obtain ⟨hhandles, haccounts, hships, henqueues, -⟩ := observed_takenNext workerId envelope.message requests others
  refine h.follow hemitted (houtstanding ▸ List.Perm.refl _) ?_ ?_ ?_ ?_
  · rw [henqueues]
    simp [List.filterMap_cons]
  · rw [hships]
    simp [List.filterMap_cons]
  · rw [hhandles]
    simp [hcompleted]
  · rw [haccounts]
    simp [List.filterMap_cons, hcompleted]

end

section
variable {workerId : Nat} {envelope : MessageEnvelope ProofResult} {others : List Op} (now : Time)
  (h : Underway p fleet leafPackThreshold maxLeafProvers n J s L handled accounted)
  (hold : J.tracked.world.ops.Perm (.process workerId envelope :: others))
include h hold

private theorem handling_of_first : .process workerId envelope ∈ J.tracked.world.ops ∧
    (workerId, envelope.message) ∈ handling J.tracked.world.ops ∧ envelope.message.Honest p n := by
  have hmem : Op.process workerId envelope ∈ J.tracked.world.ops := hold.mem_iff.mpr List.mem_cons_self
  have hhandling : (workerId, envelope.message) ∈ handling J.tracked.world.ops := List.mem_filterMap.mpr ⟨_, hmem, rfl⟩
  exact ⟨hmem, hhandling, h.honest _ hhandling⟩

include ha hn in
private theorem takeAnswer (hkept : Kept L n []) {step : Step}
    (hcompleted : envelope.message.completedStep = some step) :
    ∃ s' requests handled' accounted', Taken p (appEligibleWorkers fleet).length n J.tracked.duties s L workerId
      envelope others now s' requests handled' accounted' := by
  obtain ⟨-, hhandling, hhonest⟩ := h.handling_of_first hold
  obtain ⟨hitems, hsegments, hcount⟩ := h.followed.perm hold
  obtain ⟨hsegment, he2⟩ := other_of_completedStep hcompleted
  obtain ⟨a, ha', hreport, hans, before, after, hsplit⟩ := h.answering hkept hhandling hcompleted
  obtain ⟨rfl, hresult⟩ := Prod.mk.inj hreport
  obtain ⟨hrun, haccepted, requests, hemitted, houtstanding, hprocessed⟩ :=
    h.deliver ha hn now hhonest (.answer before after _ _ hsplit hans)
  obtain ⟨others', hdelivered⟩ : ∃ others', ItemsFollowed J.tracked.duties
      (.workerCompleted a.worker envelope.message :: others) { s with outstanding := before ++ after } L others'
      (a :: accounted) := by
    refine hitems.deliver ha' rfl ?_ ?_ ?_ ?_ ?_
    · rw [hsplit]
      exact List.perm_middle
    · simp [List.filterMap_cons, hcompleted, Answer.report, hresult]
    · simp [List.filterMap_cons, hcompleted, Answer.report, hresult]
    · simp [List.filterMap_cons]
    · simp [List.filterMap_cons]
  obtain ⟨hhandles, haccounts, hships, henqueues, -⟩ := observed_takenNext a.worker envelope.message requests others
  refine ⟨_, requests, others', a :: accounted, hrun, haccepted, rfl, hemitted, hprocessed,
    hdelivered.follow hemitted (houtstanding ▸ List.Perm.refl _) ?_ ?_ ?_ ?_, segmentsTaken hsegments hsegment _ _ _,
    countTaken hcount he2 _ _ _⟩
  · rw [henqueues]
    simp [List.filterMap_cons]
  · rw [hships]
    simp [List.filterMap_cons]
  · rw [hhandles]
    simp [List.filterMap_cons]
  · rw [haccounts]
    simp

include ha hn in
private theorem takeExecuteE2 {r : ExecuteE2Result} (hresult : envelope.message = .executeE2 r) :
    ∃ s' requests handled' accounted', Taken p (appEligibleWorkers fleet).length n J.tracked.duties s L workerId
      envelope others now s' requests handled' accounted' := by
  obtain ⟨hmem, -, hhonest⟩ := h.handling_of_first hold
  obtain ⟨hitems, hsegments, hcount⟩ := h.followed.perm hold
  obtain ⟨hnum, hfresh⟩ := h.counting hmem hresult
  have hdelivery : Delivery n s s.outstanding envelope.message := by
    rw [hresult]
    exact .executeE2 r hnum hfresh
  obtain ⟨hrun, haccepted, requests, hemitted, houtstanding, hprocessed⟩ :=
    h.deliver ha hn now hhonest hdelivery
  have he2 : envelope.message.isExecuteE2 = true := by simp [hresult, ProofResult.isExecuteE2]
  obtain ⟨hhandles, -, -, -, hrecords⟩ := observed_takenNext workerId envelope.message requests others
  refine ⟨_, requests, handled, accounted, hrun, haccepted, rfl, hemitted, hprocessed,
    itemsTaken hitems (by simp [hresult, ProofResult.completedStep]) hemitted houtstanding,
    segmentsTaken hsegments (by simp [hresult, ProofResult.appSegment]) _ _ _, hcount.deliver ?_ ?_⟩
  · rw [hhandles]
    simp [he2]
  · rw [hrecords, he2]
    simp [List.filterMap_cons]

include ha hn in
private theorem takeApp {r : AppProof} (hresult : envelope.message = .app r) :
    ∃ s' requests handled' accounted', Taken p (appEligibleWorkers fleet).length n J.tracked.duties s L workerId
      envelope others now s' requests handled' accounted' := by
  obtain ⟨-, hhandling, hhonest⟩ := h.handling_of_first hold
  obtain ⟨hitems, hsegments, hcount⟩ := h.followed.perm hold
  obtain ⟨hlt, hfresh⟩ := h.proving (hresult ▸ hhandling)
  have hdelivery : Delivery n s s.outstanding envelope.message := by
    rw [hresult]
    exact .app r hlt (hhonest.proof r hresult) hfresh
  obtain ⟨hrun, haccepted, requests, hemitted, houtstanding, hprocessed⟩ :=
    h.deliver ha hn now hhonest hdelivery
  have hsegment : envelope.message.appSegment = some r.state.segmentIdx := by simp [hresult, ProofResult.appSegment]
  obtain ⟨hhandles, haccounts, -⟩ := observed_takenNext workerId envelope.message requests others
  have htaken : (segmentsOf (handling (.process workerId envelope :: others))).Perm
      ((workerId, r.state.segmentIdx) ::
        segmentsOf (handling (takenNext workerId envelope.message requests ++ others))) := by
    rw [hhandles]
    simp [hsegment]
  refine ⟨_, requests, handled, accounted, hrun, haccepted, rfl, hemitted, hprocessed,
    itemsTaken hitems (by simp [hresult, ProofResult.completedStep]) hemitted houtstanding,
    hsegments.deliver hsegment rfl htaken ?_, countTaken hcount (by simp [hresult, ProofResult.isExecuteE2]) _ _ _⟩
  rw [haccounts]
  simp [List.filterMap_cons, hsegment]

include ha hn in
private theorem take (hkept : Kept L n []) :
    ∃ s' requests handled' accounted', Taken p (appEligibleWorkers fleet).length n J.tracked.duties s L workerId
      envelope others now s' requests handled' accounted' := by
  obtain ⟨-, -, hhonest⟩ := h.handling_of_first hold
  cases hcompleted : envelope.message.completedStep with
  | some step => exact h.takeAnswer ha hn now hold hkept hcompleted
  | none =>
    cases hresult : envelope.message with
    | error e => exact absurd hresult (hhonest.succeeds e)
    | leaf | internal | evm => simp [hresult, ProofResult.completedStep] at hcompleted
    | executeE2 r => exact h.takeExecuteE2 ha hn now hold hresult
    | app r => exact h.takeApp ha hn now hold hresult

end

section
variable {workerId : Nat} {envelope : MessageEnvelope ProofResult} {others : List Op} {s' : TreeState}
  {requests : List GeneralProveRequest} {handled' accounted' : List Answer}
  (h : Underway p fleet leafPackThreshold maxLeafProvers n J s L handled accounted)
  (hold : J.tracked.world.ops.Perm (.process workerId envelope :: others))
  (htaken : Taken p (appEligibleWorkers fleet).length n J.tracked.duties s L workerId envelope others c.now s' requests
    handled' accounted')
include h hold htaken

private theorem exec_of_taken : (Op.process workerId envelope).exec p.context.proofUuid c J.tracked.world.state =
    goOn { J.tracked.world.state with proof := some s'.ps }
      (afterProcess workerId envelope.message (.ok (.processed requests s'.ps.isReadyForFinalization))) := by
  obtain ⟨-, -, hhonest⟩ := h.handling_of_first hold
  simp only [Op.exec, hhonest.context, ne_eq, not_true_eq_false, if_false, h.proof, htaken.processed]

private theorem record_of_taken (W : World) :
    J.record p.context.proofUuid ⟨W, J.tracked.duties⟩ (.run (.process workerId envelope) c) =
      ⟨⟨W, J.tracked.duties⟩, J.emitted ++ requests, J.assigned⟩ := by
  obtain ⟨-, -, hhonest⟩ := h.handling_of_first hold
  have hexec := h.exec_of_taken hold htaken
  have hemits : (Op.process workerId envelope).emits p.context.proofUuid c J.tracked.world.state = requests := by
    simp only [Op.emits, hhonest.context, ne_eq, not_true_eq_false, if_false, h.proof, htaken.processed, followUps]
  simp only [Journal.record, hexec, hemits, goOn, List.map_nil, List.append_nil]

omit h htaken in
private theorem mem_of_others {α : Type} {f : Op → Option α} {x : α} (hx : x ∈ others.filterMap f) :
    x ∈ J.tracked.world.ops.filterMap f := by
  rw [(hold.filterMap f).mem_iff]
  obtain ⟨op, hop, heq⟩ := List.mem_filterMap.mp hx
  exact List.mem_filterMap.mpr ⟨op, List.mem_cons_of_mem _ hop, heq⟩

private theorem nothingLost_of_taken : NothingLost p.context.proofUuid (appEligibleWorkers fleet) [] n J.tracked
    (.run (.process workerId envelope) c) ∨ s'.ps.isReadyForFinalization = true := by
  cases hready : s'.ps.isReadyForFinalization with
  | true => exact .inr rfl
  | false =>
    obtain ⟨-, -, hhonest⟩ := h.handling_of_first hold
    have hprocessed := htaken.processed
    rw [hready] at hprocessed
    have hon : HandsOn p.context.proofUuid c J.tracked.world.state envelope :=
      ⟨hhonest.context, s.ps, h.proof, .inr ⟨requests, by rw [hprocessed]⟩⟩
    left
    cases hresult : envelope.message with
    | executeE2 r =>
      simp only [NothingLost, hresult]
      exact .inl ⟨hhonest.context, s.ps, h.proof, requests, false, by rw [hprocessed]⟩
    | app r =>
      simp only [NothingLost, hresult]
      exact .inl hon
    | leaf | internal | evm | error =>
      simp only [NothingLost, hresult]
      exact hon

private theorem underway_of_taken (hids : (fleet.map Prod.fst).Nodup)
    (hstep : WorldStep p.context.proofUuid J.tracked.world (.run (.process workerId envelope) c) W)
    (hstate : W.state = { J.tracked.world.state with proof := some s'.ps })
    (hnew : W.ops.Perm (afterProcess workerId envelope.message
      (.ok (.processed requests s'.ps.isReadyForFinalization)) ++ others))
    (hready : s'.ps.isReadyForFinalization = false) :
    Underway p fleet leafPackThreshold maxLeafProvers n
      (J.record p.context.proofUuid ⟨W, J.tracked.duties⟩ (.run (.process workerId envelope) c)) s' L handled'
        accounted' := by
  obtain ⟨-, -, hhonest⟩ := h.handling_of_first hold
  obtain ⟨hhandles, haccounts, -⟩ := observed_takenNext workerId envelope.message requests others
  have hstart : ((EdgeProofState.initProof fleet leafPackThreshold maxLeafProvers).workers.map (·.id)).Nodup :=
    initProof_ids ▸ hids
  have hscheduler : W.state.scheduler = some L.st := hstate ▸ h.scheduler
  have hkeeps := (h.nothingLost_of_taken hold htaken).resolve_right (by simp [hready])
  rw [hready] at hnew
  rw [h.record_of_taken hold htaken]
  refine { h with
    tree := htaken.tree
    accepted := htaken.accepted
    unsealed := hready
    proof := hstate ▸ rfl
    scheduler := hscheduler
    emitted := (congrArg (· ++ requests) h.emitted).trans htaken.emitted.symm
    followed := htaken.followed.perm hnew.symm
    honest := fun entry hentry => h.honest entry ?_
    sound := fun entry hentry => ?_
    live := fun op hop => ?_
    bounded := h.bounded.run hstart h.scheduler hstep hkeeps hscheduler }
  · rw [(hnew.filterMap _).mem_iff] at hentry
    have hentry : entry ∈ handling others := hhandles ▸ hentry
    exact mem_of_others hold hentry
  · rw [(hnew.filterMap _).mem_iff] at hentry
    have hentry : entry ∈ (workerId, envelope.message) :: accounting others := haccounts ▸ hentry
    obtain rfl | hentry := List.mem_cons.mp hentry
    · exact hhonest.succeeds
    · exact h.sound entry (mem_of_others hold hentry)
  · rcases List.mem_append.mp (hnew.mem_iff.mp hop) with hop | hop
    · exact live_takenNext op hop
    · exact h.live op (hold.mem_iff.mpr (List.mem_cons_of_mem _ hop))

include ha hn in
private theorem finished_of_taken (hkept : Kept L n [])
    (hstate : W.state = { J.tracked.world.state with proof := some s'.ps })
    (hnew : W.ops.Perm (afterProcess workerId envelope.message
      (.ok (.processed requests s'.ps.isReadyForFinalization)) ++ others))
    (hready : s'.ps.isReadyForFinalization = true) :
    Finished (appEligibleWorkers fleet).length n
      (J.record p.context.proofUuid ⟨W, J.tracked.duties⟩ (.run (.process workerId envelope) c)) ∧
      .finalizeUnlessFailing ∈ W.ops := by
  obtain ⟨m, ht⟩ := tracks_of_accepted ha hn htaken.tree htaken.accepted
  obtain ⟨hhandles, -, hships, henqueues, hrecords⟩ := observed_takenNext workerId envelope.message requests others
  have hdone := htaken.followed.allAnswered hkept ht ha hn hready fun entry hentry e => by
    have hentry : entry ∈ handling others := hhandles ▸ hentry
    exact (h.honest entry (mem_of_others hold hentry)).succeeds e
  rw [hdone.recording, List.length_nil] at hrecords
  have hrecord := h.record_of_taken hold htaken W
  have hemitted := htaken.emitted
  obtain ⟨rfl, hnone⟩ := List.append_eq_nil_iff.mp (henqueues.symm.trans hdone.enqueueing)
  have he2 : envelope.message.isExecuteE2 = false := by
    by_contra hyes
    rw [if_pos (by simpa using hyes)] at hrecords
    omega
  have hgone {α : Type} {f : Op → Option α} (hf : others.filterMap f = []) : ∀ op ∈ others, f op = none :=
    List.filterMap_eq_nil_iff.mp hf
  rw [hready, afterProcess_sealed workerId he2] at hnew
  rw [hrecord]
  refine ⟨⟨?_, ?_, h.known, ?_, hdone.executed, hdone.segments, hdone.items, fun op hop => ?_⟩,
    hnew.mem_iff.mpr (List.mem_append_left _ List.mem_cons_self)⟩
  · have hassigned := congrArg (List.map fun entry => entry.2.request) h.assigned
    rw [List.map_map, List.map_map] at hassigned
    have hall := hdone.assigned
    rw [hemitted, ← h.emitted] at hall
    exact hall.trans (hassigned ▸ List.Perm.refl _)
  · have hdistinct := ht.emitted_nodup
    rw [hemitted, ← h.emitted] at hdistinct
    exact hdistinct
  · have hempty := PriorityWorkQueue.isEmpty_iff.mpr hdone.waiting
    have hscheduler : W.state.scheduler = some L.st := hstate ▸ h.scheduler
    simp [Manager.waits_eq hscheduler, hempty]
  · rcases List.mem_append.mp (hnew.mem_iff.mp hop) with hop | hop
    · simp only [List.mem_cons, List.not_mem_nil, or_false] at hop
      obtain rfl | rfl | rfl := hop <;> simp [Op.kind, finishingKinds]
    · have hunrecorded : recording others = [] := List.length_eq_zero_iff.mp (by omega)
      have hlive : op.Live := h.live op (hold.mem_iff.mpr (List.mem_cons_of_mem _ hop))
      exact hlive.finishes (hgone (hhandles.symm.trans hdone.handling) op hop) (hgone hunrecorded op hop)
        (hgone hnone op hop) (hgone (hships.symm.trans hdone.shipping) op hop)

end

include ha hn in
/-- A result is handled, and may bring the final artifact. -/
theorem process (h : Underway p fleet leafPackThreshold maxLeafProvers n J s L handled accounted) {workerId : Nat}
    {envelope : MessageEnvelope ProofResult} (hids : (fleet.map Prod.fst).Nodup) (hne : appEligibleWorkers fleet ≠ [])
    (hstep : WorldStep p.context.proofUuid J.tracked.world (.run (.process workerId envelope) c) W) :
    (∃ s' handled' accounted', s.Takes s' envelope.message ∧
      Underway p fleet leafPackThreshold maxLeafProvers n
        (J.record p.context.proofUuid ⟨W, J.tracked.duties.run c J.tracked.world.state (.process workerId envelope)⟩
          (.run (.process workerId envelope) c)) s' L handled' accounted') ∨
      Finished (appEligibleWorkers fleet).length n
        (J.record p.context.proofUuid ⟨W, J.tracked.duties.run c J.tracked.world.state (.process workerId envelope)⟩
          (.run (.process workerId envelope) c)) ∧
        ∃ s', s.Takes s' envelope.message ∧ HonestRun p n s' ∧ Accepted p n s'.delivered ∧
          s'.ps.isReadyForFinalization = true ∧ W.state.proof = some s'.ps ∧ .finalizeUnlessFailing ∈ W.ops := by
  obtain ⟨hstate, others, hold, hnew⟩ := TaskPool.ops_run hstep
  have hkept := (h.settled hids hne).kept
  obtain ⟨s', requests, handled', accounted', htaken⟩ := h.take ha hn c.now hold hkept
  have htakes : s.Takes s' envelope.message :=
    ⟨htaken.delivered, htaken.emitted ▸ List.subset_append_left _ _⟩
  rw [h.exec_of_taken hold htaken] at hstate hnew
  simp only [goOn, List.flatten_nil, List.append_nil] at hstate hnew
  have hduties : J.tracked.duties.run c J.tracked.world.state (.process workerId envelope) = J.tracked.duties := rfl
  rw [hduties]
  cases hready : s'.ps.isReadyForFinalization with
  | false =>
    have hnow := h.underway_of_taken hold htaken hids hstep hstate hnew hready
    exact .inl ⟨s', handled', accounted', htakes, hnow⟩
  | true =>
    obtain ⟨hfinished, hfinalizes⟩ := h.finished_of_taken ha hn hold htaken hkept hstate hnew hready
    exact .inr ⟨hfinished, s', htakes, htaken.tree, htaken.accepted, hready, hstate ▸ rfl, hfinalizes⟩

include hids hne ha hn in
/-- A step that handles no result keeps the run under way, along the same tree. -/
theorem pass (h : Underway p fleet leafPackThreshold maxLeafProvers n J s L handled accounted)
    (hallowed : FailureFree p (appEligibleWorkers fleet).length n J.tracked (.run op c))
    (hstep : WorldStep p.context.proofUuid J.tracked.world (.run op c) W) (hop : op.kind ≠ .process) :
    ∃ L' accounted', Underway p fleet leafPackThreshold maxLeafProvers n
      (J.record p.context.proofUuid ⟨W, J.tracked.duties.run c J.tracked.world.state op⟩ (.run op c)) s L' handled
        accounted' := by
  obtain ⟨m, ht, -⟩ := h.tracks ha hn
  have hpause {m : Manager} (hop : op.Silent) (hships : op.ships = none) (hemits : op.emits p.context.proofUuid c
      J.tracked.world.state = []) (hexec : op.exec p.context.proofUuid c J.tracked.world.state = goOn m [])
      (hproof : m.proof = J.tracked.world.state.proof) (hscheduler : m.scheduler = J.tracked.world.state.scheduler) :
      ∃ L' accounted', Underway p fleet leafPackThreshold maxLeafProvers n
        (J.record p.context.proofUuid ⟨W, J.tracked.duties.run c J.tracked.world.state op⟩ (.run op c)) s L' handled
          accounted' := by
    rw [record_silent hemits (by rw [hexec]; rfl)]
    exact ⟨L, accounted, h.pause hallowed hids hstep hop hships hexec hproof hscheduler⟩
  have hlive := h.live op (TaskPool.op_mem hstep)
  cases op with
  | process workerId envelope => exact absurd rfl hop
  | setNumSegments k => exact ⟨_, accounted, h.setNumSegments hallowed hids hne hstep⟩
  | workerCompleted workerId result => exact h.workerCompleted hallowed hids hne hstep
  | enqueue request =>
    obtain ⟨L', hnow⟩ := h.enqueue ha hn hallowed hids hne hstep
    exact ⟨L', accounted, hnow⟩
  | send work retries =>
    rw [record_silent rfl (congrArg Handed.works (handed_of_not_handsOut rfl))]
    exact ⟨L, accounted, h.send hallowed hids hstep⟩
  | checkFailing =>
    refine hpause ⟨rfl, rfl, rfl, rfl⟩ rfl rfl ?_ rfl rfl
    simp only [Op.exec, h.proof, ht.mirrors.status]
    rfl
  | evict =>
    refine hpause ⟨rfl, rfl, rfl, rfl⟩ rfl rfl ?_ rfl rfl
    have hstays := hallowed s.ps h.proof ht.mirrors.status
    simp only [Op.exec, h.proof, hstays, Bool.and_false, Bool.false_eq_true, if_false]
  | removeStaged => exact hpause ⟨rfl, rfl, rfl, rfl⟩ rfl rfl rfl rfl rfl
  | _ => exact hlive.elim

include hids hne ha hn in
/-- Every step leaves the run under way, or brings the final artifact. -/
theorem run (h : Underway p fleet leafPackThreshold maxLeafProvers n J s L handled accounted)
    (hallowed : FailureFree p (appEligibleWorkers fleet).length n J.tracked (.run op c))
    (hstep : WorldStep p.context.proofUuid J.tracked.world (.run op c) W) :
    (∃ s' L' handled' accounted', Underway p fleet leafPackThreshold maxLeafProvers n
      (J.record p.context.proofUuid ⟨W, J.tracked.duties.run c J.tracked.world.state op⟩ (.run op c)) s' L' handled'
        accounted') ∨
      Finished (appEligibleWorkers fleet).length n
        (J.record p.context.proofUuid ⟨W, J.tracked.duties.run c J.tracked.world.state op⟩ (.run op c)) := by
  by_cases hop : op.kind = .process
  · cases op with
    | process workerId envelope =>
      obtain ⟨s', handled', accounted', -, hnow⟩ | ⟨hnow, -⟩ := h.process ha hn hids hne hstep
      · exact .inl ⟨s', L, handled', accounted', hnow⟩
      · exact .inr hnow
    | _ => simp [Op.kind] at hop
  · obtain ⟨L', accounted', hnow⟩ := h.pass hids hne ha hn hallowed hstep hop
    exact .inl ⟨s, L', handled, accounted', hnow⟩

end

include hids hne in
/-- Each request emitted is about to be enqueued, in the queue, or assigned. -/
theorem places (h : Underway p fleet leafPackThreshold maxLeafProvers n J s L handled accounted) :
    J.emitted.Perm (enqueueing J.tracked.world.ops ++ L.st.pending.items.map (·.request) ++
      J.assigned.map (·.work.envelope.message)) := by
  have hkept := (h.settled hids hne).kept
  have hassigned : J.assigned.map (·.work.envelope.message) = L.assignments.map (·.item.request) := by
    have hentries := congrArg (List.map fun entry => entry.2.request) h.assigned
    rwa [List.map_map, List.map_map] at hentries
  have hpartition := hkept.partition.map (·.request)
  have hitems := hkept.assigned.map (·.request)
  rw [List.nil_append, List.map_append] at hpartition
  rw [List.map_map] at hitems
  rw [h.emitted, hassigned]
  refine h.followed.items.emitted.trans (List.perm_append_comm.trans ?_)
  rw [List.append_assoc]
  exact (hpartition.trans (hitems.symm.append_left _)).append_left _

include hids hne ha hn in
/-- Nothing waits in the queue once everything is reported and handled. -/
theorem queue_empty (h : Underway p fleet leafPackThreshold maxLeafProvers n J s L handled accounted)
    (hrange : ∀ id ∈ appEligibleWorkers fleet, id < (appEligibleWorkers fleet).length)
    (hevm : p.context.proofType = .evm → ∃ entry ∈ fleet, entry.2.workerRole.runsEvmProve = true)
    (hreported : J.tracked.Reported (appEligibleWorkers fleet) n) : L.st.pending.items = [] := by
  obtain ⟨m, ht, -⟩ := h.tracks ha hn
  have hsettled := h.settled hids hne
  have hconfig := config_of_run h.ledger
  have hdrained := h.bounded.drained (numWorkers_eq leafPackThreshold maxLeafProvers) (eligible_of_config hconfig)
    hrange (List.forall_mem_nil _) hreported.shards hreported.items hreported.executed hreported.handled
  refine List.eq_nil_iff_forall_not_mem.mpr fun item hitem => ?_
  obtain ⟨w, hw, htakes⟩ : ∃ w ∈ L.st.workers, w.workerRole.takes item.step = true := by
    have henqueued := hsettled.kept.mem_enqueued hitem
    have hwell := hsettled.kept.wellFormed item henqueued
    by_cases hstep : item.step = .evmProve
    · have hmem : item.request ∈ s.emitted :=
        h.followed.items.emitted.mem_iff.mpr (List.mem_append_left _ (List.mem_map_of_mem henqueued))
      have hrequest : item.request.isEvm = true := GeneralProveRequest.isEvm_iff.mpr (hwell.symm.trans hstep)
      have horders : evmOrders p n s.ps m ≠ [] := by
        rw [← ht.evms]
        exact List.ne_nil_of_mem (List.mem_filter.mpr ⟨hmem, hrequest⟩)
      obtain ⟨-, -, -, htype, -⟩ := Tracks.evmOrders_ne_nil horders
      obtain ⟨entry, hentry, hrole⟩ := hevm htype
      obtain ⟨w, hw, -, hsame⟩ := exists_worker_of_config hconfig entry hentry
      exact ⟨w, hw, by simpa [WorkerRole.takes, hstep, hsame] using hrole⟩
    · obtain ⟨id, hid⟩ := List.exists_mem_of_ne_nil _ hne
      obtain ⟨w, hw, -, hstark⟩ := exists_worker_of_eligible hconfig hid
      exact ⟨w, hw, takes_of_stark hwell.dispatched hstep hstark⟩
  have hbusy := hsettled.noIdle item hitem w hw htakes
  have hzero : w.activeProofCount = 0 := by simpa using List.all_eq_true.mp hdrained w hw
  omega

/-- A run begins under way. -/
theorem start (staged : Option StagedInputs) : Underway p fleet leafPackThreshold maxLeafProvers n
    ⟨.kickedOff p fleet leafPackThreshold maxLeafProvers staged, [], []⟩ (.start p)
    (.start fleet leafPackThreshold maxLeafProvers) [] [] where
  tree := .refl
  accepted := ⟨fun _ hr => absurd hr List.not_mem_nil, fun _ _ hr => absurd hr List.not_mem_nil⟩
  unsealed := by
    simp only [TreeState.start, ProofState.isReadyForFinalization]
    split <;> rfl
  ledger := .start
  proof := rfl
  scheduler := rfl
  emitted := rfl
  assigned := rfl
  known := List.forall_mem_nil _
  followed :=
    { items := ⟨.refl _, .refl _, .refl _, .refl _, .refl _, List.forall_mem_nil _, List.forall_mem_nil _⟩
      segments := ⟨.refl _, List.nodup_nil, List.forall_mem_nil _, fun i hi => by simp [TreeState.start] at hi⟩
      count := ⟨rfl, fun hq => by simp [TreeState.start] at hq⟩ }
  honest := List.forall_mem_nil _
  sound := List.forall_mem_nil _
  shards := fun _ hid => hid
  live := List.forall_mem_nil _
  bounded := slotsBounded_start [] rfl ⟨rfl, fun _ => ⟨rfl, rfl⟩⟩

end Underway

/-- Workers that have reported everything owe nothing any more. -/
theorem Duties.not_owes_of_reported {D : Duties} {numWorkers n : Nat} (hexecuted : D.executed = true)
    (hsegments : ∀ id, ∀ segment ∈ shard id numWorkers n, (id, segment) ∈ D.segments) (hitems : D.items = [])
    {workerId : Nat} {result : ProofResult} {report : Report} : ¬ D.Owes numWorkers n workerId result report := by
  intro howes
  cases report with
  | executeE2 =>
    obtain ⟨hnow, -⟩ := howes
    rw [hexecuted] at hnow
    simp at hnow
  | segment segment =>
    obtain ⟨-, -, hmem, hfresh, -⟩ := howes
    exact hfresh (hsegments workerId segment hmem)
  | shard =>
    obtain ⟨-, hopen, -⟩ := howes
    exact hopen (.inr (hsegments workerId))
  | item item =>
    obtain ⟨hitem, -⟩ := howes
    rw [hitems] at hitem
    exact List.not_mem_nil hitem

namespace Finished
variable {numWorkers n : Nat} {J : Journal} {proofUuid : String}

theorem not_owes (h : Finished numWorkers n J) {workerId : Nat} {result : ProofResult} {report : Report} :
    ¬ J.tracked.duties.Owes numWorkers n workerId result report :=
  Duties.not_owes_of_reported h.executed h.segments h.items

/-- No worker owes anything any more. -/
theorem no_report (h : Finished numWorkers n J) {p : TreeParams} {workerId : Nat}
    {envelope : MessageEnvelope ProofResult}
    {report : Report} : ¬ FailureFree p numWorkers n J.tracked (.report workerId envelope report) :=
  fun hallowed => h.not_owes hallowed.1

/-- The steps that are left hand nothing out. -/
theorem run (h : Finished numWorkers n J) {op : Op} {c : Choice} {W : World}
    (hstep : WorldStep proofUuid J.tracked.world (.run op c) W) : Finished numWorkers n
      (J.record proofUuid ⟨W, J.tracked.duties.run c J.tracked.world.state op⟩ (.run op c)) := by
  have hkind := h.finishing op (TaskPool.op_mem hstep)
  have hquiet : op.mayStart J.tracked.world.state = false := by
    cases op with
    | workerCompleted => exact h.quiet
    | _ => simp_all [finishingKinds, Op.kind, Op.mayStart]
  obtain ⟨hresult, hspawned, hquieter⟩ := exec_quiet proofUuid c hquiet
  have hemits : op.emits proofUuid c J.tracked.world.state = [] := by
    cases op <;> simp_all [finishingKinds, Op.kind, Op.emits]
  have hduties : J.tracked.duties.run c J.tracked.world.state op = J.tracked.duties := by
    cases op <;> simp_all [finishingKinds, Op.kind, Duties.run]
  have hnext : ∀ op' ∈ (op.exec proofUuid c J.tracked.world.state).next, op'.kind ∈ finishingKinds := by
    intro op' hop'
    by_cases hcompleted : op.kind = .workerCompleted
    · have hnil : (op.exec proofUuid c J.tracked.world.state).next = [] := by
        cases op with
        | workerCompleted workerId result =>
          simp only [Op.exec]
          split <;> rfl
        | _ => simp [Op.kind] at hcompleted
      rw [hnil] at hop'
      exact absurd hop' List.not_mem_nil
    · have hkinds : ∀ kind ∈ op.kind.next, kind ∈ finishingKinds := by
        revert hkind hcompleted
        generalize op.kind = kind
        cases kind <;> decide
      exact hkinds _ (leadsTo_exec op op' (List.mem_append_left _ hop'))
  obtain ⟨hstate, others, hold, hnew⟩ := TaskPool.ops_run hstep
  rw [hspawned, List.flatten_nil, List.append_nil] at hnew
  rw [hduties, record_silent hemits (congrArg Handed.works hresult)]
  refine { h with
    quiet := ?_
    finishing := fun op' hop' => ?_ }
  · rw [← hstate] at hquieter
    have hwaits := mt hquieter.waits (by simp [h.quiet])
    simpa using hwaits
  · rcases List.mem_append.mp (hnew.mem_iff.mp hop') with hop' | hop'
    · exact hnext op' hop'
    · exact h.finishing op' (hold.mem_iff.mpr (List.mem_cons_of_mem _ hop'))

end Finished

/-- In every build the step handles its result without a fault, and as the exact handlers do. -/
def Op.Faultless (m : Manager) : Op → Prop
  | .process _ envelope => ∀ overflowChecks now ps, m.proof = some ps →
      Machine.handleProofResultWithEnvelopeOutcome (usize overflowChecks) 64 ps now envelope =
        .ok (ps.handleProofResultWithEnvelopeOutcome now envelope)
  | _ => True

/-- No step of a run under way faults within the word. -/
theorem Underway.faultless {p : TreeParams} {fleet : List (Nat × RegisteredWorker)}
    {leafPackThreshold maxLeafProvers n : Nat} {J : Journal} {s : TreeState} {L : Ledger}
    {handled accounted : List Answer}
    (h : Underway p fleet leafPackThreshold maxLeafProvers n J s L handled accounted)
    (hids : (fleet.map Prod.fst).Nodup)
    (hne : appEligibleWorkers fleet ≠ []) (ha : Arities p.leafArity p.internalArity) (hn : 0 < n)
    (hw : p.WithinWord n) :
    ∀ op ∈ J.tracked.world.ops, op.Faultless J.tracked.world.state := by
  intro op hop
  cases op with
  | process workerId envelope =>
    intro overflowChecks now ps hps
    obtain rfl := Option.some.inj (h.proof.symm.trans hps)
    obtain ⟨rest, hdelivery⟩ := h.exists_delivery (h.settled hids hne).kept hop
    exact handleEnvelope_of_safe ha hn (hw.words ha hn) h.tree hdelivery (safe_of_delivery ha hn hw h.tree hdelivery)
      overflowChecks now
  | _ => trivial

theorem Finished.faultless {numWorkers n : Nat} {J : Journal} (h : Finished numWorkers n J) :
    ∀ op ∈ J.tracked.world.ops, op.Faultless J.tracked.world.state := by
  intro op hop
  have hkind := h.finishing op hop
  cases op with
  | process workerId envelope => simp [finishingKinds, Op.kind] at hkind
  | _ => trivial

section
variable {p : TreeParams} {fleet : List (Nat × RegisteredWorker)} {leafPackThreshold maxLeafProvers n : Nat}
  {staged : Option StagedInputs} {J : Journal}

private theorem underway_or_finished (hids : (fleet.map Prod.fst).Nodup) (hne : appEligibleWorkers fleet ≠ [])
    (ha : Arities p.leafArity p.internalArity) (hn : 0 < n)
    (hrun : JournalRun p.context.proofUuid (FailureFree p (appEligibleWorkers fleet).length n)
      (.kickedOff p fleet leafPackThreshold maxLeafProvers staged) J) :
    (∃ s L handled accounted, Underway p fleet leafPackThreshold maxLeafProvers n J s L handled accounted) ∨
      Finished (appEligibleWorkers fleet).length n J := by
  induction hrun with
  | start => exact .inl ⟨_, _, [], [], Underway.start staged⟩
  | @step J l T _ hallowed hstep ih =>
    cases hstep with
    | request task => exact hallowed.elim
    | report workerId envelope report =>
      obtain ⟨s, L, handled, accounted, h⟩ | h := ih
      · obtain ⟨handled', hnow⟩ := h.report hallowed
        exact .inl ⟨s, L, handled', accounted, hnow⟩
      · exact absurd hallowed h.no_report
    | run hstep =>
      obtain ⟨s, L, handled, accounted, h⟩ | h := ih
      · exact h.run hids hne ha hn hallowed hstep
      · exact .inr (h.run hstep)

/-- No lost work. Within the word no handler of a failure-free run faults. Everything is handed out with the segment
count recorded, and of the requests emitted, which are all different, each one was handed out once or waits to be. Once
the workers have reported what they owe and the handlers are done, each one was handed out. -/
theorem every_request_assigned (hids : (fleet.map Prod.fst).Nodup) (hne : appEligibleWorkers fleet ≠ [])
    (hrange : ∀ id ∈ appEligibleWorkers fleet, id < (appEligibleWorkers fleet).length)
    (hevm : p.context.proofType = .evm → ∃ entry ∈ fleet, entry.2.workerRole.runsEvmProve = true)
    (ha : Arities p.leafArity p.internalArity) (hn : 0 < n) (hw : p.WithinWord n)
    (hrun : JournalRun p.context.proofUuid (FailureFree p (appEligibleWorkers fleet).length n)
      (.kickedOff p fleet leafPackThreshold maxLeafProvers staged) J) :
    (∀ op ∈ J.tracked.world.ops, op.Faultless J.tracked.world.state) ∧
      (∀ a ∈ J.assigned, a.known = some n) ∧ J.emitted.Nodup ∧
      (∃ waiting, J.emitted.Perm (waiting ++ J.assigned.map (·.work.envelope.message))) ∧
      (J.tracked.Reported (appEligibleWorkers fleet) n → (∀ op ∈ J.tracked.world.ops, op.enqueues = none) →
        J.emitted.Perm (J.assigned.map (·.work.envelope.message))) := by
  obtain ⟨s, L, handled, accounted, h⟩ | h := underway_or_finished hids hne ha hn hrun
  · obtain ⟨m, ht, -⟩ := h.tracks ha hn
    have hplaces := h.places hids hne
    refine ⟨h.faultless hids hne ha hn hw, h.known, h.emitted ▸ ht.emitted_nodup, ⟨_, hplaces⟩,
      fun hreported hdone => ?_⟩
    have hnone : enqueueing J.tracked.world.ops = [] := List.filterMap_eq_nil_iff.mpr hdone
    rwa [hnone, h.queue_empty hids hne ha hn hrange hevm hreported] at hplaces
  · exact ⟨h.faultless, h.known, h.distinct, ⟨[], h.assigned⟩, fun _ _ => h.assigned⟩

end

/-- The worker of five segments, which reports the count after the first. -/
def unevenWorker : SampleWorker := ⟨1, sampleE2 5, sampleApp, unevenParams.answer⟩

/-- The leaves and groups of five segments, full or not, and the EVM step are each handed to the only worker. -/
theorem every_request_assigned_uneven : ∃ J : Journal, J.emitted.length = 7 ∧
    J.emitted.Perm (J.assigned.map (·.work.envelope.message)) ∧ (∀ a ∈ J.assigned, a.known = some 5) ∧
    ∀ op ∈ J.tracked.world.ops, op.Faultless J.tracked.world.state := by
  have hplay : ((⟨.kickedOff unevenParams sampleFleet 4 1 none, [], []⟩ : Journal).play "proof"
    (goesWell unevenParams 1 5)
      (unevenWorker.schedule (.kickedOff unevenParams sampleFleet 4 1 none) 76)).any
        (fun J => J.emitted.length == 7 && J.assigned.length == 7) = true := by decide +kernel
  obtain ⟨J, hJ, hlengths⟩ := (Option.any_eq_true _ _).mp hplay
  simp only [Bool.and_eq_true, beq_iff_eq] at hlengths
  obtain ⟨hemitted, hassigned⟩ := hlengths
  have hrun : JournalRun unevenParams.context.proofUuid
    (FailureFree unevenParams (appEligibleWorkers sampleFleet).length 5)
      (.kickedOff unevenParams sampleFleet 4 1 none) J := journalRun_of_play failureFree_of_goesWell .start hJ
  have hevm : unevenParams.context.proofType = .evm → ∃ entry ∈ sampleFleet, entry.2.workerRole.runsEvmProve = true :=
    fun _ => ⟨_, List.mem_cons_self, rfl⟩
  obtain ⟨hfaultless, hknown, -, ⟨waiting, hplaces⟩, -⟩ := every_request_assigned (by decide) (by decide) (by decide)
    hevm ⟨by decide, by decide⟩ (by decide) unevenParams_withinWord hrun
  have hnone : waiting = [] := by
    have hlength := hplaces.length_eq
    rw [List.length_append, List.length_map] at hlength
    exact List.length_eq_zero_iff.mp (by omega)
  rw [hnone] at hplaces
  exact ⟨J, hemitted, hplaces, hknown, hfaultless⟩

/-- Leaves of so many segments that the proofs of a batch do not fit one allocation. -/
def wideParams : TreeParams := { sampleParams .stark with leafArity := 2 ^ 60 }

/-- The App result is stored when its handler panics at the room for its batch. -/
def unwoundProof : ProofState :=
  { wideParams.initial with
    appProofs := Function.update wideParams.initial.appProofs 0 (some ⟨some [0], 0, some [7], none⟩)
    deferralFinalMerklePathBytes := some [7] }

/-- The handler ends there, with the segment reported and not accounted for. -/
def unwound : Tracked where
  world := ⟨⟨some unwoundProof, some (.initProof sampleFleet 4 1), none⟩, []⟩
  duties := { Duties.start with shards := [0], segments := [(0, 0)] }

/-- The handler of the only segment panics. The count that comes next still emits the leaf, but the worker's shard is
never accounted for: when everything is reported and no step is left, the request is not handed out. -/
theorem every_request_assigned_fails :
    (∃ J, JournalRun "proof" (FailureFree wideParams 1 1) (.kickedOff wideParams sampleFleet 4 1 none) J ∧
      J.tracked.world.tasks = [resultTask 0 ⟨0, "", sampleApp 0⟩] ∧ J.tracked.duties = unwound.duties ∧
      J.tracked.world.state = { unwound.world.state with proof := some wideParams.initial }) ∧
    Machine.handleProofResultWithEnvelopeOutcome (usize false) 64 wideParams.initial 0 ⟨0, "", sampleApp 0⟩ =
      .error .capacityOverflow ∧
    Machine.collectLeafBatch (usize false) unwoundProof 0 = .error .capacityOverflow ∧
    ∃ K, JournalRun "proof" (FailureFree wideParams 1 1) unwound K ∧ K.tracked.Reported [0] 1 ∧
      K.tracked.world.ops = [] ∧ ¬ K.emitted.Perm (K.assigned.map (·.work.envelope.message)) := by
  refine ⟨?_, rfl, rfl, ?_⟩
  · have hallowed : goesWell wideParams 1 1 (.kickedOff wideParams sampleFleet 4 1 none)
        (.report 0 ⟨0, "", sampleApp 0⟩ (.segment 0)) = true := by decide
    exact ⟨_, .step .start (failureFree_of_goesWell _ _ hallowed) (.report 0 ⟨0, "", sampleApp 0⟩ (.segment 0)),
      rfl, rfl, rfl⟩
  · have hplay : ((⟨unwound, [], []⟩ : Journal).play "proof" (goesWell wideParams 1 1)
        (SampleWorker.schedule ⟨1, sampleE2 1, sampleApp, wideParams.answer⟩ unwound 7)).any (fun K =>
          K.tracked.world.ops.isEmpty && K.tracked.duties.executed && K.tracked.duties.items.isEmpty &&
            decide ((0, 0) ∈ K.tracked.duties.segments) && K.emitted.length == 1 && K.assigned.length == 0) = true := by
      decide +kernel
    obtain ⟨K, hK, hdone⟩ := (Option.any_eq_true _ _).mp hplay
    simp only [Bool.and_eq_true, List.isEmpty_iff, decide_eq_true_eq, beq_iff_eq] at hdone
    obtain ⟨⟨⟨⟨⟨hops, hexecuted⟩, hitems⟩, hsegment⟩, hemitted⟩, hassigned⟩ := hdone
    refine ⟨K, journalRun_of_play failureFree_of_goesWell .start hK, ⟨hexecuted, ?_, hitems, ?_⟩, hops, fun hperm => ?_⟩
    · intro id hid
      obtain rfl := List.mem_singleton.mp hid
      refine .inr fun segment hmem => ?_
      obtain rfl : segment = 0 := Nat.lt_one_iff.mp (mem_shard.mp hmem).1
      exact hsegment
    · rw [hops]
      exact ⟨rfl, fun _ => ⟨rfl, rfl⟩⟩
    · have hlength := hperm.length_eq
      rw [List.length_map] at hlength
      omega

end EdgeProver
