import EdgeProver.Manager.Coverage
import EdgeProver.Manager.Sealed
import EdgeProver.Manager.WorkerRegistry

/-! Soundness of the drain: as long as nothing gives back a slot that another item or shard still needs, the
workers are drained only when everything that was accepted has been reported. -/
namespace EdgeProver
open Replace

/-- Items on their way to the worker, or accepted and not reported. -/
def Tracked.load (T : Tracked) (workerId : Nat) : Nat := sendsTo workerId T.world.ops + T.duties.itemsOf workerId

/-- Nothing of the proof is under way on the worker: no item, no report being handled, no shard. -/
structure Tracked.Unoccupied (T : Tracked) (numWorkers n workerId : Nat) : Prop where
  items : T.load workerId = 0
  reports : ∀ result ∈ reportsOf workerId T.world.ops, result.givesBack = false ∧ result.segment = none
  shard : workerId ∈ T.duties.shards ∨ workerId ∈ awaited T.world.ops →
    T.duties.ShardReported numWorkers n workerId

/-- Each report is of something its worker owes; clients cancel, and the watchdog and other proofs' handlers pass
by, as they like. -/
def HonestReports (numWorkers n : Nat) (T : Tracked) : DutyLabel → Prop
  | .request task => isRequest task = true ∧ ∀ workerId envelope, task ≠ resultTask workerId envelope
  | .report workerId envelope report => T.duties.Owes numWorkers n workerId envelope.message report
  | .run _ _ => True

/-- No slot is given back early: a worker is released only when nothing is under way on it, and the segment count
frees only workers that still have their shard. -/
def NothingFreedEarly (numWorkers n : Nat) (T : Tracked) : DutyLabel → Prop
  | .run (.releaseWorker workerId) _ => T.Unoccupied numWorkers n workerId
  | .run (.setNumSegments numSegments) _ => ∀ st, T.world.state.scheduler = some st →
      ∀ w ∈ st.workers, w.shardDone st.numWorkers numSegments = true → w.runs .shardedAppProve = true
  | l => HonestReports numWorkers n T l

/-- The proof's scheduler entry covers what is under way. -/
structure WorkCovered (start : EdgeProofState) (n : Nat) (T : Tracked) (st : EdgeProofState) : Prop where
  config : st.config = start.config
  known : st.numSegments = none ∨ st.numSegments = some n
  counts : ∀ m ∈ learned T.world.ops, m = n
  sound : T.duties.Sound start.numWorkers n
  shards : ∀ id, id ∈ T.duties.shards ∨ id ∈ awaited T.world.ops → 0 < start.numWorkers ∧ id ∈ start.workers.map (·.id)
  loads : ∀ id, 0 < T.load id → id ∈ start.workers.map (·.id)
  workers : AllCovered T.duties n T.world.ops st

namespace WorkCovered
variable {start st : EdgeProofState} {n : Nat} {T : Tracked}

theorem numWorkers (h : WorkCovered start n T st) : st.numWorkers = start.numWorkers := congrArg (·.numWorkers) h.config

theorem ids (h : WorkCovered start n T st) : st.workers.map (·.id) = start.workers.map (·.id) := ids_of_config h.config

/-- Once the workers are drained, everything accepted is reported. -/
theorem reported (h : WorkCovered start n T st) (hdrained : st.isFullyDrained = true) :
    (∀ id ∈ T.duties.shards, T.duties.ShardReported start.numWorkers n id) ∧ T.duties.items = [] := by
  have hserving : ∀ w ∈ st.workers, T.duties.Serving st.numWorkers n (T.load w.id) (reportsOf w.id T.world.ops)
      (w.id ∈ awaited T.world.ops) w := fun w hw => by
    refine (h.workers w hw).stands.resolve_left fun hproving => ?_
    have hzero : w.activeProofCount = 0 := by simpa using List.all_eq_true.mp hdrained w hw
    have hone := hproving.1.2.1
    omega
  constructor
  · intro id hid
    obtain ⟨w, hw, rfl⟩ := List.mem_map.mp (h.ids ▸ (h.shards id (.inl hid)).2)
    exact h.numWorkers ▸ (hserving w hw).reported (.inl hid)
  · refine List.eq_nil_iff_forall_not_mem.mpr fun entry hentry => ?_
    have hitems : 0 < T.duties.itemsOf entry.1 := List.countP_pos_iff.mpr ⟨entry, hentry, beq_self_eq_true _⟩
    have hload : 0 < T.load entry.1 := Nat.lt_of_lt_of_le hitems (Nat.le_add_left _ _)
    obtain ⟨w, hw, hid⟩ := List.mem_map.mp (h.ids ▸ h.loads entry.1 hload)
    have hzero : w.activeProofCount = 0 := by simpa using List.all_eq_true.mp hdrained w hw
    have hslots := (hserving w hw).slots
    rw [hid] at hslots
    omega

/-- A request that reports nothing changes nothing that is under way. -/
theorem request (h : WorkCovered start n T st) {task : List Op} (htask : isRequest task = true)
    (hsilent : ∀ workerId envelope, task ≠ resultTask workerId envelope) :
    WorkCovered start n { T with world := { T.world with tasks := task :: T.world.tasks } } st := by
  have hops : ({ T.world with tasks := task :: T.world.tasks } : World).ops = task ++ T.world.ops := rfl
  obtain ⟨hworker, hawaited, hlearned⟩ := idle_of_isRequest htask hsilent
  refine ⟨h.config, h.known, ?_, h.sound, ?_, fun id hload => h.loads id ?_, ?_⟩
  · simpa only [hops, learned_append, hlearned, List.nil_append] using h.counts
  · simpa only [hops, awaited_append, hawaited, List.nil_append] using h.shards
  · simpa only [Tracked.load, hops, sendsTo_append, (hworker id).1, Nat.zero_add] using hload
  · rw [hops]
    refine h.workers.mono rfl rfl (fun id => ?_) (fun id => ⟨[], ?_⟩) fun id => ?_
    · rw [sendsTo_append, (hworker id).1, Nat.zero_add]
    · rw [reportsOf_append, (hworker id).2, List.nil_append, List.append_nil]
    · rw [awaited_append, hawaited, List.nil_append]
      exact fun hor => hor

/-- What its worker owed is still covered while the report of it is handled. -/
theorem report (h : WorkCovered start n T st) {workerId : Nat} {envelope : MessageEnvelope ProofResult}
    {report : Report}
    (howes : T.duties.Owes start.numWorkers n workerId envelope.message report) :
    WorkCovered start n ⟨{ T.world with tasks := resultTask workerId envelope :: T.world.tasks },
      T.duties.report workerId report⟩ st := by
  have hops : ({ T.world with tasks := resultTask workerId envelope :: T.world.tasks } : World).ops =
      .process workerId envelope :: T.world.ops := rfl
  have hitems : ∀ id, (T.duties.report workerId report).itemsOf id ≤ T.duties.itemsOf id := fun id => by
    cases report with
    | item item => exact List.Sublist.countP_le List.erase_sublist
    | _ => exact Nat.le_refl _
  have hshards : (T.duties.report workerId report).shards = T.duties.shards := by
    cases report <;> rfl
  refine ⟨h.config, h.known, ?_, h.sound.report (fun hshard => (h.shards workerId (.inl hshard)).1) howes,
    fun id hid => ?_, fun id hload => h.loads id ?_, ?_⟩
  · rw [hops]
    exact counts_of_owes h.counts howes
  · rw [hshards] at hid
    exact h.shards id hid
  · exact Nat.lt_of_lt_of_le hload (Nat.add_le_add_left (hitems id) _)
  · rw [hops]
    intro w hw
    have hold := h.workers w hw
    have hsends : sendsTo w.id (.process workerId envelope :: T.world.ops) = sendsTo w.id T.world.ops := rfl
    have hawaited : awaited (.process workerId envelope :: T.world.ops) = awaited T.world.ops := rfl
    by_cases hid : workerId = w.id
    · subst hid
      have hreports : reportsOf w.id (.process w.id envelope :: T.world.ops) =
          envelope.message :: reportsOf w.id T.world.ops := List.filterMap_cons_some (if_pos rfl)
      rw [hsends, hawaited, hreports]
      cases report with
      | executeE2 =>
        obtain ⟨-, e2, he2, -⟩ := howes
        rw [he2]
        exact (hold.reportE2 e2).congr (fun _ => Iff.rfl) Iff.rfl fun hor => hor
      | segment segment =>
        obtain ⟨hshard, hwhole, hmem, hfresh, appProof, happ, rfl⟩ := howes
        rw [happ]
        exact hold.reportSegment hshard hwhole (h.numWorkers ▸ hmem) hfresh
      | shard =>
        obtain ⟨hshard, hopen, e, he⟩ := howes
        rw [he]
        exact hold.reportShard hshard (h.numWorkers ▸ hopen) e
      | item item =>
        obtain ⟨hitem, hresult⟩ := howes
        rw [← T.duties.itemsOf_report hitem, ← Nat.add_assoc] at hold
        exact (hold.reportItem (givesBack_of_answer hresult)).congr (fun _ => Iff.rfl) Iff.rfl fun hor => hor
    · obtain ⟨hsegments, hfailed, hsame⟩ := T.duties.report_other hid report
      have hreports : reportsOf w.id (.process workerId envelope :: T.world.ops) = reportsOf w.id T.world.ops :=
        List.filterMap_cons_none (if_neg hid)
      rw [hsends, hawaited, hreports, hsame]
      exact hold.congr hsegments hfailed fun hor => hshards ▸ hor

private theorem pass (h : WorkCovered start n T st) {op : Op} {others : List Op} {W : World} {D' : Duties}
    {proofUuid : String} {c : Choice} {m : Manager}
    (hold : T.world.ops.Perm (op :: others)) (hnew : W.ops.Perm (op.brings proofUuid c m ++ others))
    (hsegments : D'.segments = T.duties.segments) (hfailed : D'.failed = T.duties.failed)
    (hload : ∀ id, sendsTo id (op.brings proofUuid c m) + D'.itemsOf id ≤ sendsTo id [op] + T.duties.itemsOf id)
    (hshards : ∀ id ∈ D'.shards, id ∈ T.duties.shards ∨ id ∈ op.awaits) : WorkCovered start n ⟨W, D'⟩ st := by
  have hperm : T.world.ops.Perm ([op] ++ others) := hold
  have hloads (id : Nat) : sendsTo id W.ops + D'.itemsOf id ≤ T.load id := by
    have hbefore := sendsTo_perm id hperm
    have hafter := sendsTo_perm id hnew
    rw [sendsTo_append] at hbefore hafter
    have hop := hload id
    unfold Tracked.load
    omega
  have hless (id : Nat) (hid : id ∈ D'.shards ∨ id ∈ awaited W.ops) :
      id ∈ T.duties.shards ∨ id ∈ awaited T.world.ops := by
    have hop : id ∈ op.awaits → id ∈ awaited [op] := fun hmem =>
      List.mem_flatMap.mpr ⟨op, List.mem_singleton.mpr rfl, hmem⟩
    rw [mem_awaited_perm id hperm, awaited_append, List.mem_append]
    rw [mem_awaited_perm id hnew, awaited_append, List.mem_append] at hid
    obtain hid | hid | hid := hid
    · exact (hshards id hid).imp_right fun hmem => .inl (hop hmem)
    · exact .inr (.inl (hop (awaited_brings id hid)))
    · exact .inr (.inr hid)
  refine ⟨h.config, h.known, fun k hk => h.counts k ?_, ⟨?_, ?_⟩, fun id hid => ?_, fun id hid => ?_, ?_⟩
  · rw [mem_learned_perm hnew, learned_append, List.mem_append] at hk
    rw [mem_learned_perm hperm, learned_append, List.mem_append]
    exact hk.imp_left fun hk => mem_learned.mpr ⟨op, List.mem_singleton.mpr rfl, learned_brings k hk⟩
  · rw [hsegments]
    exact h.sound.segments
  · rw [hsegments, hfailed]
    exact h.sound.failed
  · exact h.shards id (hless id hid)
  · exact h.loads id (Nat.lt_of_lt_of_le hid (hloads id))
  · refine h.workers.mono hsegments hfailed hloads (fun id => ?_) hless
    have hsub : (reportsOf id (op.brings proofUuid c m)).Sublist (reportsOf id [op]) := reportsOf_brings
    obtain ⟨lost, hlost⟩ := hsub.exists_perm_append
    refine ⟨lost, ?_⟩
    have hbefore := reportsOf_perm id hperm
    have hafter := reportsOf_perm id hnew
    rw [reportsOf_append] at hbefore hafter
    refine hbefore.trans ((hlost.append_right _).trans ?_)
    rw [List.append_assoc]
    refine (List.perm_append_comm.append_left _).trans ?_
    rw [← List.append_assoc]
    exact hafter.symm.append_right _

private theorem call (h : WorkCovered start n T st) {op : Op} {others : List Op} {W : World}
    (works : List AssignedWork) {st' : EdgeProofState} (hold : T.world.ops.Perm (op :: others))
    (hnew : W.ops.Perm (sendTasks works ++ others))
    (hconfig : st'.config = st.config) (hknown : st'.numSegments = none ∨ st'.numSegments = some n)
    (hworks : ∀ work ∈ works, work.workerId ∈ st.workers.map (·.id))
    (hworkers : AllCovered T.duties n (sendTasks works ++ others) st') : WorkCovered start n ⟨W, T.duties⟩ st' := by
  have hperm : T.world.ops.Perm ([op] ++ others) := hold
  refine ⟨hconfig.trans h.config, hknown, fun k hk => h.counts k ?_, h.sound, fun id hid => h.shards id ?_,
    fun id hid => ?_, hworkers.perm hnew.symm⟩
  · rw [mem_learned_perm hnew, learned_append, learned_sendTasks, List.nil_append] at hk
    rw [mem_learned_perm hperm, learned_append, List.mem_append]
    exact .inr hk
  · rw [mem_awaited_perm id hnew, awaited_append, awaited_sendTasks, List.nil_append] at hid
    rw [mem_awaited_perm id hperm, awaited_append, List.mem_append]
    exact hid.imp_right .inr
  · rw [Tracked.load, sendsTo_perm id hnew, sendsTo_append, sendsTo_sendTasks] at hid
    by_cases hnone : works.countP (·.workerId == id) = 0
    · refine h.loads id ?_
      rw [hnone, Nat.zero_add] at hid
      rw [Tracked.load, sendsTo_perm id hperm, sendsTo_append, Nat.add_assoc]
      exact Nat.lt_of_lt_of_le hid (Nat.le_add_left _ _)
    · obtain ⟨work, hwork, heq⟩ := List.countP_pos_iff.mp (Nat.pos_of_ne_zero hnone)
      rw [← h.ids, ← beq_iff_eq.mp heq]
      exact hworks work hwork

private theorem kickoff (h : WorkCovered start n T st) {others : List Op} {W : World} {proofUuid : String} {c : Choice}
    {m : Manager} {appWorkers remaining : List Nat} {failures : List (Nat × String)}
    (hold : T.world.ops.Perm (.kickoff appWorkers remaining failures :: others))
    (hnew : W.ops.Perm (Op.brings proofUuid c m (.kickoff appWorkers remaining failures) ++ others)) :
    WorkCovered start n ⟨W, T.duties.run c m (.kickoff appWorkers remaining failures)⟩ st := by
  obtain ⟨hsegments, hfailed, -⟩ := T.duties.run_reports c m (.kickoff appWorkers remaining failures)
  obtain ⟨hitems, hshards⟩ := T.duties.run_kickoff c m appWorkers remaining failures
  refine h.pass hold hnew hsegments hfailed (fun id => ?_) hshards
  rw [sendsTo_brings (by simp [Op.kind]), Duties.itemsOf, hitems]
  exact Nat.add_le_add_right (Nat.zero_le _) _

private theorem send (h : WorkCovered start n T st) {others : List Op} {W : World} {proofUuid : String} {c : Choice}
    {m : Manager} {work : AssignedWork} {retries : Nat} (hold : T.world.ops.Perm (.send work retries :: others))
    (hnew : W.ops.Perm (Op.brings proofUuid c m (.send work retries) ++ others)) :
    WorkCovered start n ⟨W, T.duties.run c m (.send work retries)⟩ st := by
  have hone (id : Nat) : sendsTo id [.send work retries] = if work.workerId == id then 1 else 0 := List.countP_singleton
  have hduties : T.duties.run c m (.send work retries) =
      if m.delivers c work then { T.duties with items := (work.workerId, work.item) :: T.duties.items }
        else T.duties := rfl
  by_cases hdelivers : m.delivers c work = true
  · rw [if_pos hdelivers] at hduties
    rw [hduties]
    refine h.pass hold hnew rfl rfl (fun id => ?_) fun id => .inl
    have hnone : sendsTo id (Op.brings proofUuid c m (.send work retries)) = 0 := by
      simp only [Op.brings, Op.exec, if_pos hdelivers, goOn]
      split <;> rfl
    rw [hnone, hone]
    simp only [Duties.itemsOf, List.countP_cons]
    omega
  · rw [if_neg hdelivers] at hduties
    rw [hduties]
    refine h.pass hold hnew rfl rfl (fun id => ?_) fun id => .inl
    have hagain : sendsTo id (Op.brings proofUuid c m (.send work retries)) ≤ sendsTo id [.send work retries] := by
      simp only [Op.brings, Op.exec, if_neg hdelivers]
      split
      · exact Nat.zero_le _
      · exact Nat.le_refl _
    omega

/-- Once a step does nothing that frees a slot early, its work stays covered. -/
theorem run (h : WorkCovered start n T st) (hids : (start.workers.map (·.id)).Nodup)
    (hstark : ∀ w ∈ st.workers, w.workerRole.runsStarkProving = true → 0 < st.numWorkers)
    {proofUuid : String} {op : Op} {c : Choice} {W : World}
    (hst : T.world.state.scheduler = some st) (hstep : WorldStep proofUuid T.world (.run op c) W)
    (hallowed : NothingFreedEarly start.numWorkers n T (.run op c)) {st' : EdgeProofState}
    (hst' : W.state.scheduler = some st') : WorkCovered start n ⟨W, T.duties.run c T.world.state op⟩ st' := by
  obtain ⟨hstate, others, hold, hnew⟩ := TaskPool.ops_run hstep
  rw [hstate] at hst'
  obtain ⟨st₀, hst₀, hconfig⟩ := config_exec hst'
  obtain rfl := Option.some.inj (hst₀.symm.trans hst)
  have hids : (st₀.workers.map (·.id)).Nodup := h.ids ▸ hids
  have hsound : T.duties.Sound st₀.numWorkers n := h.numWorkers ▸ h.sound
  by_cases htouches : op.touchesScheduler = true
  · obtain ⟨works, hbrings, heffect⟩ := effect_of_touches hst htouches hst'
    have hcovered : AllCovered T.duties n (op :: others) st₀ := h.workers.perm hold
    have hsends : W.ops.Perm (sendTasks works ++ others) := hbrings ▸ hnew
    have hduties : T.duties.run c T.world.state op = T.duties := by
      cases op <;> simp_all [Op.touchesScheduler, Duties.run]
    rw [hduties]
    have hknown : st'.numSegments = none ∨ st'.numSegments = some n := by
      obtain ⟨m, rfl, hsome⟩ | ⟨-, hsame⟩ := heffect.numSegments
      · exact .inr (hsome.trans (congrArg some (h.counts m (mem_learned.mpr ⟨_, TaskPool.op_mem hstep, rfl⟩))))
      · exact hsame ▸ h.known
    have hworks : (∀ work ∈ works, work.workerId ∈ st₀.workers.map (·.id)) ∧
        AllCovered T.duties n (sendTasks works ++ others) st' := by
      cases heffect with
      | @setNumSegments m works st' hout =>
        obtain rfl : m = n := h.counts m (mem_learned.mpr ⟨_, TaskPool.op_mem hstep, rfl⟩)
        have hreleased := hcovered.drop.releaseShards hsound hstark (hallowed st₀ hst)
        have hsame := hout.ids.symm.trans (ids_of_config hconfig)
        exact ⟨fun work hwork => hsame ▸ hout.known work hwork, hreleased.handsOut (hsame ▸ hids) hout⟩
      | @completed op workerId result freed counted st' works hop hcall hout =>
        have hcounted := hcovered.applyCompletion hids hsound h.known
          (fun id => by obtain rfl | rfl := hop <;> rfl) hcall
        have hsame := ids_of_config (EdgeProofState.config_applyCompletion hcall)
        exact ⟨fun work hwork => hsame ▸ hout.known work hwork, hcounted.handsOut (hsame ▸ hids) hout⟩
      | stranger hop hunknown => exact ⟨List.forall_mem_nil _, hcovered.drop⟩
      | enqueue hout => exact ⟨hout.known, hcovered.drop.handsOut hids hout⟩
      | releaseWorker id =>
        obtain ⟨hload, hreports, hshard⟩ : T.Unoccupied start.numWorkers n id := hallowed
        refine ⟨List.forall_mem_nil _, ?_⟩
        refine (hcovered.releaseWorker hids ?_ (fun result hresult => hreports result ?_) fun hor => ?_).drop
        · rw [Tracked.load, sendsTo_perm id hold] at hload
          exact hload
        · exact (reportsOf_perm id hold).mem_iff.mpr hresult
        · rw [h.numWorkers]
          exact hshard (hor.imp_right (mem_awaited_perm id hold).mpr)
    exact h.call works hold hsends hconfig hknown hworks.1 hworks.2
  · rw [scheduler_exec (by simpa using htouches)] at hst'
    obtain rfl := Option.some.inj (hst.symm.trans hst')
    cases op with
    | kickoff appWorkers remaining failures => exact h.kickoff hold hnew
    | send work retries => exact h.send hold hnew
    | setNumSegments | workerCompleted | workerDrained | enqueue | releaseWorker | removeProof =>
      simp [Op.touchesScheduler] at htouches
    | _ =>
      have hpass : WorkCovered start n ⟨W, T.duties⟩ st₀ := by
        refine h.pass hold hnew rfl rfl (fun id => ?_) fun id => .inl
        rw [sendsTo_brings (by simp [Op.kind])]
        exact Nat.add_le_add_right (Nat.zero_le _) _
      exact hpass

end WorkCovered

section
variable {p : TreeParams} {fleet : List (Nat × RegisteredWorker)} {leafPackThreshold maxLeafProvers n : Nat}
  {staged : Option StagedInputs} {inputAlreadyUploaded : Bool}

def Tracked.admitted (p : TreeParams) (fleet : List (Nat × RegisteredWorker)) (leafPackThreshold maxLeafProvers : Nat)
    (staged : Option StagedInputs) (inputAlreadyUploaded : Bool) : Tracked :=
  ⟨World.admitted p fleet leafPackThreshold maxLeafProvers staged inputAlreadyUploaded, .start⟩

theorem initProof_ids : (EdgeProofState.initProof fleet leafPackThreshold maxLeafProvers).workers.map (·.id) =
    fleet.map Prod.fst := by
  simp [EdgeProofState.initProof, Function.comp_def]

/-- The workers that prove shards are the app-eligible ones. -/
theorem eligible_of_config {st : EdgeProofState}
    (hconfig : st.config = (EdgeProofState.initProof fleet leafPackThreshold maxLeafProvers).config) :
    ∀ w ∈ st.workers, w.workerRole.runsStarkProving = true → w.id ∈ appEligibleWorkers fleet := by
  intro w hw hrole
  have hworkers :
    st.config.workers = (EdgeProofState.initProof fleet leafPackThreshold maxLeafProvers).config.workers :=
    congrArg (·.workers) hconfig
  have hmem : (w.id, w.workerUrl, w.workerRole) ∈ st.config.workers := List.mem_map_of_mem hw
  rw [hworkers] at hmem
  simp only [EdgeProofState.config, EdgeProofState.initProof, List.map_map, List.mem_map, Function.comp_apply,
    Prod.mk.injEq] at hmem
  obtain ⟨entry, hentry, hid, -, hsame⟩ := hmem
  exact mem_appEligibleWorkers.mpr ⟨entry.2, hid ▸ hentry, hsame ▸ hrole⟩

/-- Every worker of the fleet is a worker of the proof. -/
theorem exists_worker_of_config {st : EdgeProofState}
    (hconfig : st.config = (EdgeProofState.initProof fleet leafPackThreshold maxLeafProvers).config) :
    ∀ entry ∈ fleet, ∃ w ∈ st.workers, w.id = entry.1 ∧ w.workerRole = entry.2.workerRole := by
  intro entry hentry
  have hworkers :
    st.config.workers = (EdgeProofState.initProof fleet leafPackThreshold maxLeafProvers).config.workers :=
    congrArg (·.workers) hconfig
  have hmem : (entry.1, entry.2.workerUrl, entry.2.workerRole) ∈ st.config.workers := by
    rw [hworkers]
    simp only [EdgeProofState.config, EdgeProofState.initProof, List.map_map, List.mem_map]
    exact ⟨entry, hentry, rfl⟩
  obtain ⟨w, hw, heq⟩ := List.mem_map.mp hmem
  simp only [Prod.mk.injEq] at heq
  exact ⟨w, hw, heq.1, heq.2.2⟩

/-- Every app-eligible worker proves a shard. -/
theorem exists_worker_of_eligible {st : EdgeProofState} {id : Nat}
    (hconfig : st.config = (EdgeProofState.initProof fleet leafPackThreshold maxLeafProvers).config)
    (hid : id ∈ appEligibleWorkers fleet) : ∃ w ∈ st.workers, w.id = id ∧ w.workerRole.runsStarkProving = true := by
  obtain ⟨worker, hworker, hrole⟩ := mem_appEligibleWorkers.mp hid
  obtain ⟨w, hw, hid, hsame⟩ := exists_worker_of_config hconfig _ hworker
  exact ⟨w, hw, hid, hsame ▸ hrole⟩

/-- A worker that proves shards makes the number of workers positive. -/
theorem numWorkers_pos {st : EdgeProofState}
    (hconfig : st.config = (EdgeProofState.initProof fleet leafPackThreshold maxLeafProvers).config) :
    ∀ w ∈ st.workers, w.workerRole.runsStarkProving = true → 0 < st.numWorkers := by
  intro w hw hrole
  have hnum : st.numWorkers = (appEligibleWorkers fleet).length :=
    (congrArg (·.numWorkers) hconfig).trans (numWorkers_eq leafPackThreshold maxLeafProvers)
  rw [hnum]
  exact List.length_pos_of_mem (eligible_of_config hconfig w hw hrole)

private theorem workCovered_admitted (hids : (fleet.map Prod.fst).Nodup) :
    WorkCovered (.initProof fleet leafPackThreshold maxLeafProvers) n
      (.admitted p fleet leafPackThreshold maxLeafProvers staged inputAlreadyUploaded)
      (.initProof fleet leafPackThreshold maxLeafProvers) := by
  have heligible {id : Nat} (hid : id ∈ appEligibleWorkers fleet) :
      ∃ entry ∈ fleet, entry.2.workerRole.runsStarkProving = true ∧ entry.1 = id := by
    obtain ⟨entry, hentry, rfl⟩ := List.mem_map.mp hid
    obtain ⟨hmem, hrole⟩ := List.mem_filter.mp hentry
    exact ⟨entry, hmem, hrole, rfl⟩
  have hawaited : awaited (Tracked.admitted p fleet leafPackThreshold maxLeafProvers staged
      inputAlreadyUploaded).world.ops = appEligibleWorkers fleet := List.append_nil _
  refine ⟨rfl, .inl rfl, by simp [Tracked.admitted, World.admitted, startTask, TaskPool.Pool.ops, learned, Op.learns],
    ⟨List.forall_mem_nil _, List.forall_mem_nil _⟩, fun id hid => ?_, fun id hid => absurd hid (Nat.lt_irrefl 0), ?_⟩
  · rw [hawaited] at hid
    obtain ⟨entry, hentry, hrole, rfl⟩ := heligible (hid.resolve_left List.not_mem_nil)
    rw [initProof_ids]
    exact ⟨List.countP_pos_iff.mpr ⟨entry, hentry, hrole⟩, List.mem_map_of_mem hentry⟩
  · intro w hw
    obtain ⟨entry, hentry, rfl⟩ := List.mem_map.mp hw
    refine ⟨fun segment hsegment => absurd hsegment (Finset.notMem_empty segment), List.forall_mem_nil _,
      List.nodup_nil, ?_⟩
    cases hrole : entry.2.workerRole.runsStarkProving with
    | true => exact .inl ⟨by simp [EdgeWorkerState.Marked, hrole], rfl, .inl rfl⟩
    | false =>
      refine .inr ⟨by simp [EdgeWorkerState.runs, hrole], Nat.zero_le _, fun hor => ?_, .inr rfl⟩
      rw [hawaited] at hor
      obtain ⟨other, hother, hstark, hid⟩ := heligible (hor.resolve_left List.not_mem_nil)
      obtain rfl := eq_of_key Prod.fst hids hentry hother hid
      rw [hrole] at hstark
      simp at hstark

/-- In every run in which no slot is given back early, a proof that the scheduler still has is fully drained only
when its workers have reported every shard and every item they accepted. -/
theorem drain_sound (hids : (fleet.map Prod.fst).Nodup) {T : Tracked}
    (hrun : DutyRun p.context.proofUuid (NothingFreedEarly (appEligibleWorkers fleet).length n)
      (.admitted p fleet leafPackThreshold maxLeafProvers staged inputAlreadyUploaded) T)
    {st : EdgeProofState} (hst : T.world.state.scheduler = some st) (hdrained : st.isFullyDrained = true) :
    (∀ id ∈ T.duties.shards, T.duties.ShardReported (appEligibleWorkers fleet).length n id) ∧ T.duties.items = [] := by
  have hnum : (EdgeProofState.initProof fleet leafPackThreshold maxLeafProvers).numWorkers = _ :=
    numWorkers_eq leafPackThreshold maxLeafProvers
  have hnodup : ((EdgeProofState.initProof fleet leafPackThreshold maxLeafProvers).workers.map (·.id)).Nodup :=
    initProof_ids ▸ hids
  have hcovered : ∀ st, T.world.state.scheduler = some st →
      WorkCovered (.initProof fleet leafPackThreshold maxLeafProvers) n T st := by
    refine hrun.invariant (I := fun T => ∀ st, T.world.state.scheduler = some st →
      WorkCovered (.initProof fleet leafPackThreshold maxLeafProvers) n T st) (fun T l U hT hallowed hstep => ?_) ?_
    · rw [← hnum] at hallowed
      cases hstep with
      | request task => exact fun st hst => (hT st hst).request hallowed.1 hallowed.2
      | report workerId envelope report => exact fun st hst => (hT st hst).report hallowed
      | @run op c W hstep =>
        intro st' hst'
        rw [(TaskPool.ops_run hstep).1] at hst'
        obtain ⟨st, hst, -⟩ := config_exec hst'
        rw [← (TaskPool.ops_run hstep).1] at hst'
        have hnow := hT st hst
        exact hnow.run hnodup (numWorkers_pos hnow.config) hst hstep hallowed hst'
    · rintro st hst
      obtain rfl := Option.some.inj hst
      exact workCovered_admitted hids
  exact hnum ▸ (hcovered st hst).reported hdrained

end

/-- One worker that may run two leaves, and a proof of two segments. -/
def sampleTracked : Tracked := .admitted (sampleParams .stark) sampleFleet 4 2 none true

/-- A report arrives and its handler does its first `steps` steps. -/
def reportMoves (result : ProofResult) (report : Report) (steps : Nat) : List DutyMove :=
  .report 0 ⟨0, "", result⟩ report :: List.replicate steps (.run 0 sampleChoice)

/-- The shard is kicked off, and all its segments are reported; both leaves are assigned to the worker. -/
def packedMoves : List DutyMove :=
  List.replicate 3 (.run 0 sampleChoice) ++ reportMoves (sampleE2 2) .executeE2 5 ++
    reportMoves (sampleApp 0) (.segment 0) 5 ++ reportMoves (sampleApp 1) (.segment 1) 2

/-- The first leaf is accepted; the second never reaches the worker, which is released as a whole. -/
def releaseMoves : List DutyMove :=
  packedMoves ++ List.replicate 4 (.run 1 sampleChoice) ++
    List.replicate 3 (.run 0 { sampleChoice with sent := false }) ++ [.run 0 sampleChoice]

def honestReports (numWorkers n : Nat) (T : Tracked) : DutyLabel → Bool
  | .request task => isRequest task && !task.any (·.kind == .process)
  | .report workerId envelope report => T.duties.owes numWorkers n workerId envelope.message report
  | .run _ _ => true

theorem honestReports_of_bool (numWorkers n : Nat) (T : Tracked) (l : DutyLabel)
    (h : honestReports numWorkers n T l = true) : HonestReports numWorkers n T l := by
  cases l with
  | request task =>
    simp only [honestReports, Bool.and_eq_true, Bool.not_eq_true'] at h
    refine ⟨h.1, fun workerId envelope htask => ?_⟩
    simp [htask, resultTask, Op.kind] at h
  | report workerId envelope report => exact Duties.owes_of_bool h
  | run op c => trivial

/-- The worker counts as drained while it proves the first leaf. -/
theorem drain_sound_fails : ¬ ∀ (p : TreeParams) (fleet : List (Nat × RegisteredWorker))
    (leafPackThreshold maxLeafProvers n : Nat) (staged : Option StagedInputs) (inputAlreadyUploaded : Bool)
    (T : Tracked)
    (st : EdgeProofState), (fleet.map Prod.fst).Nodup →
    DutyRun p.context.proofUuid (HonestReports (appEligibleWorkers fleet).length n)
      (.admitted p fleet leafPackThreshold maxLeafProvers staged inputAlreadyUploaded) T →
    T.world.state.scheduler = some st → st.isFullyDrained = true →
    (∀ id ∈ T.duties.shards, T.duties.ShardReported (appEligibleWorkers fleet).length n id) ∧ T.duties.items = [] := by
  intro hall
  obtain ⟨T, hrun, hT⟩ := exists_dutyRun_of_play "proof" (honestReports 1 2) sampleTracked releaseMoves
    (fun T => T.world.state.scheduler.any (·.isFullyDrained) && !T.duties.items.isEmpty) (by decide +kernel)
  obtain ⟨hdrained, hitems⟩ := (Bool.and_eq_true _ _).mp hT
  obtain ⟨st, hst, hdrained⟩ := (Option.any_eq_true _ _).mp hdrained
  have hnone := (hall (sampleParams .stark) sampleFleet 4 2 2 none true T st (by decide)
    (hrun.mono (honestReports_of_bool 1 2)) hst hdrained).2
  simp [hnone] at hitems

def nothingFreedEarly (numWorkers n : Nat) (T : Tracked) : DutyLabel → Bool
  | .run op _ =>
    match op with
    | .releaseWorker _ => false
    | .setNumSegments numSegments => T.world.state.scheduler.all fun st =>
        st.workers.all fun w => !w.shardDone st.numWorkers numSegments || w.runs .shardedAppProve
    | _ => true
  | l => honestReports numWorkers n T l

private theorem nothingFreedEarly_of_bool (numWorkers n : Nat) (T : Tracked) (l : DutyLabel)
    (h : nothingFreedEarly numWorkers n T l = true) : NothingFreedEarly numWorkers n T l := by
  cases l with
  | request task => exact honestReports_of_bool numWorkers n T (.request task) h
  | report workerId envelope report => exact honestReports_of_bool numWorkers n T (.report workerId envelope report) h
  | run op c =>
    cases op with
    | releaseWorker id => simp [nothingFreedEarly] at h
    | setNumSegments numSegments =>
      intro st hst w hw hdone
      simp only [nothingFreedEarly, hst, Option.all_some, List.all_eq_true] at h
      simpa [hdone] using h w hw
    | _ => trivial

/-- The worker has reported its shard of one segment, and no leaf is enqueued yet. -/
theorem drain_sound_sample : ∃ T : Tracked, T.world.state.scheduler.any (·.isFullyDrained) = true ∧
    T.duties.shards = [0] ∧ (∀ id ∈ T.duties.shards, T.duties.ShardReported 1 1 id) ∧ T.duties.items = [] := by
  obtain ⟨T, hrun, hT⟩ := exists_dutyRun_of_play "proof" (nothingFreedEarly 1 1) sampleTracked
    (List.replicate 3 (.run 0 sampleChoice) ++ reportMoves (sampleE2 1) .executeE2 5 ++
      reportMoves (sampleApp 0) (.segment 0) 2)
    (fun T => T.world.state.scheduler.any (·.isFullyDrained) && T.duties.shards == [0]) (by decide +kernel)
  obtain ⟨hany, hshards⟩ := (Bool.and_eq_true _ _).mp hT
  obtain ⟨st, hst, hdrained⟩ := (Option.any_eq_true _ _).mp hany
  exact ⟨T, hany, by simpa using hshards, drain_sound (p := sampleParams .stark) (n := 1) (by decide)
    (hrun.mono (nothingFreedEarly_of_bool 1 1)) hst hdrained⟩

end EdgeProver
