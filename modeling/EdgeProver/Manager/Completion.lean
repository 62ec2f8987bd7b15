import EdgeProver.Lib.KeyedList
import EdgeProver.Manager.Termination

/-! Where the runs of the composed manager come to rest when nothing goes wrong: with the proof published and its
scheduler entry gone. -/
namespace EdgeProver

/-- Failure-free. Besides, the final artifact can be persisted, and no entry is due when an eviction pass comes. -/
def Smooth (p : TreeParams) (numWorkers n : Nat) (T : Tracked) : DutyLabel → Prop
  | .run .persist c => c.persisted = .ok ()
  | .run .evict c => ∀ ps, T.world.state.proof = some ps → ps.shouldEvict c.now = false
  | l => FailureFree p numWorkers n T l

/-- What the results that came in tell, as long as the proof is under way: they are about to be handled, or the tree has
taken them. -/
structure Heard (workers : List Nat) (T : Tracked) (s : TreeState) : Prop where
  shards : T.duties.shards = workers
  sound : T.duties.failed = []
  segments : ∀ entry ∈ T.duties.segments,
    entry ∈ segmentsOf (handling T.world.ops) ∨ ∃ q ∈ s.delivered, q.appSegment = some entry.2
  count : T.duties.executed = true →
    (∃ entry ∈ handling T.world.ops, entry.2.isExecuteE2 = true) ∨ ∃ q ∈ s.delivered, q.isExecuteE2 = true

/-- The final artifact of `s` is about to be published, or is; and the scheduler entry about to be removed, or is. -/
structure Closing (s : TreeState) (T : Tracked) : Prop where
  entry : T.world.state.proof = some s.ps ∧ (.finalizeUnlessFailing ∈ T.world.ops ∨ .persist ∈ T.world.ops) ∨
    ∃ now, T.world.state.proof = some (s.ps.finalize now (.ok ()))
  slot : .finalizeUnlessFailing ∈ T.world.ops ∨ .removeProof ∈ T.world.ops ∨ T.world.state.scheduler = none

section
variable {p : TreeParams} {numWorkers n : Nat} {T : Tracked} {l : DutyLabel} {J : Journal}

private theorem ProofState.shouldEvict_fresh (ps : ProofState) : ps.shouldEvict ps.lastUpdated = false := by
  unfold ProofState.shouldEvict
  cases ps.status <;> simp [hours, minutes]

private theorem Smooth.failureFree (h : Smooth p numWorkers n T l) : FailureFree p numWorkers n T l := by
  unfold Smooth at h
  split at h
  · trivial
  · exact fun ps hps _ => h ps hps
  · exact h

private theorem exists_choice (p : TreeParams) (numWorkers n : Nat) (T : Tracked) (op : Op) :
    ∃ c, Smooth p numWorkers n T (.run op c) := by
  obtain ⟨now, hnow⟩ : ∃ now, ∀ ps, T.world.state.proof = some ps → ps.shouldEvict now = false := by
    cases hproof : T.world.state.proof with
    | none => exact ⟨0, fun ps hps => by simp at hps⟩
    | some ps =>
      refine ⟨ps.lastUpdated, fun ps' hps' => ?_⟩
      obtain rfl := Option.some.inj hps'
      exact ps.shouldEvict_fresh
  refine ⟨⟨now, true, true, .ok (), false, 0, "", "", 0⟩, ?_⟩
  cases op with
  | persist => exact rfl
  | evict => exact hnow
  | send work retries => exact .inr (by simp [Manager.delivers])
  | _ => trivial

private theorem ops_of_stuck (hstuck : ∀ K, ¬ JournalStep p.context.proofUuid (Smooth p numWorkers n) J K) :
    J.tracked.world.ops = [] := by
  refine List.flatten_eq_nil_iff.mpr fun task htask => ?_
  by_contra hne
  obtain ⟨op, rest, rfl⟩ := List.exists_cons_of_ne_nil hne
  obtain ⟨before, after, htasks⟩ := List.append_of_mem htask
  obtain ⟨c, hc⟩ := exists_choice p numWorkers n J.tracked op
  exact hstuck _ ⟨_, _, hc, .run (.run ⟨before, after, htasks, rfl⟩), rfl⟩

end

namespace Heard
variable {p : TreeParams} {workers : List Nat} {n : Nat} {T : Tracked} {s s' : TreeState}

/-- A report is about to be handled. -/
theorem report (h : Heard workers T s) {workerId : Nat} {envelope : MessageEnvelope ProofResult} {report : Report}
    (hallowed : FailureFree p workers.length n T (.report workerId envelope report)) :
    Heard workers ⟨{ T.world with tasks := resultTask workerId envelope :: T.world.tasks },
      T.duties.report workerId report⟩ s := by
  obtain ⟨howes, hhonest, -⟩ := hallowed
  have hops : ({ T.world with tasks := resultTask workerId envelope :: T.world.tasks } : World).ops =
      .process workerId envelope :: T.world.ops := rfl
  have hsegments : ∀ entry ∈ T.duties.segments, entry ∈ segmentsOf
    (handling (.process workerId envelope :: T.world.ops)) ∨
      ∃ q ∈ s.delivered, q.appSegment = some entry.2 := by
    intro entry hentry
    refine (h.segments entry hentry).imp_left fun hmem => ?_
    obtain ⟨e, he, heq⟩ := List.mem_filterMap.mp hmem
    exact List.mem_filterMap.mpr ⟨e, List.mem_cons_of_mem _ he, heq⟩
  have hcount : T.duties.executed = true →
      (∃ entry ∈ handling (.process workerId envelope :: T.world.ops), entry.2.isExecuteE2 = true) ∨
        ∃ q ∈ s.delivered, q.isExecuteE2 = true := by
    intro hexecuted
    refine (h.count hexecuted).imp_left fun hmem => ?_
    obtain ⟨e, he, heq⟩ := hmem
    exact ⟨e, List.mem_cons_of_mem _ he, heq⟩
  cases report with
  | executeE2 =>
    obtain ⟨-, r, hr, -⟩ := howes
    exact ⟨h.shards, h.sound, hsegments, fun _ => .inl ⟨(workerId, envelope.message), List.mem_cons_self, by
      simp [hr, ProofResult.isExecuteE2]⟩⟩
  | segment segment =>
    obtain ⟨-, -, -, -, r, hr, rfl⟩ := howes
    refine ⟨h.shards, h.sound, List.forall_mem_cons.mpr ⟨.inl ?_, hsegments⟩, hcount⟩
    exact List.mem_filterMap.mpr ⟨(workerId, envelope.message), List.mem_cons_self, by
      simp [hr, ProofResult.appSegment]⟩
  | shard =>
    obtain ⟨-, -, e, he⟩ := howes
    exact absurd he (hhonest.succeeds e)
  | item item => exact ⟨h.shards, h.sound, hsegments, hcount⟩

/-- A step of a handler loses no result that the tree does not take. -/
theorem run (h : Heard workers T s) {proofUuid : String} {op : Op} {c : Choice} {W : World} (hlive : op.Live)
    (hstep : WorldStep proofUuid T.world (.run op c) W) (hdelivered : ∀ q ∈ s.delivered, q ∈ s'.delivered)
    (htaken : ∀ entry, op.handles = some entry → entry.2 ∈ s'.delivered) :
    Heard workers ⟨W, T.duties.run c T.world.state op⟩ s' := by
  obtain ⟨-, others, hold, hnew⟩ := TaskPool.ops_run hstep
  obtain ⟨hsegments, hfailed, hexecuted⟩ := T.duties.run_reports c T.world.state op
  have hshards : (T.duties.run c T.world.state op).shards = T.duties.shards := by
    cases op with
    | kickoff appWorkers remaining failures => exact hlive.elim
    | send work retries =>
      simp only [Duties.run]
      split <;> rfl
    | _ => rfl
  have hkeep : ∀ entry ∈ handling T.world.ops, entry ∈ handling W.ops ∨ entry.2 ∈ s'.delivered := by
    intro entry hentry
    obtain ⟨op', hop', heq⟩ := List.mem_filterMap.mp hentry
    rcases List.mem_cons.mp (hold.mem_iff.mp hop') with rfl | hop'
    · exact .inr (htaken entry heq)
    · exact .inl (List.mem_filterMap.mpr ⟨op', hnew.mem_iff.mpr (List.mem_append_right _ hop'), heq⟩)
  refine ⟨hshards.trans h.shards, hfailed.trans h.sound, fun entry hentry => ?_, fun hdone => ?_⟩
  · obtain hmem | ⟨q, hq, hsegment⟩ := h.segments entry (hsegments ▸ hentry)
    · obtain ⟨e, he, heq⟩ := List.mem_filterMap.mp hmem
      obtain he | he := hkeep e he
      · exact .inl (List.mem_filterMap.mpr ⟨e, he, heq⟩)
      · obtain ⟨segment, hsegment, rfl⟩ := Option.map_eq_some_iff.mp heq
        exact .inr ⟨e.2, he, hsegment⟩
    · exact .inr ⟨q, hdelivered q hq, hsegment⟩
  · obtain ⟨e, he, heq⟩ | ⟨q, hq, heq⟩ := h.count (hexecuted ▸ hdone)
    · exact (hkeep e he).imp (fun he => ⟨e, he, heq⟩) fun he => ⟨e.2, he, heq⟩
    · exact .inr ⟨q, hdelivered q hq, heq⟩

end Heard
private theorem honest_of_withinLimits {p : TreeParams} {n : Nat} {r : ProofResult}
    (hcontext : r.context.proofUuid = p.context.proofUuid) (hlimits : r.withinLimits p = true)
    (hsucceeds : ∀ e, r ≠ .error e) (hproof : ∀ a, r = .app a → a.state.proof.isSome = true) : r.Honest p n :=
  ⟨hcontext, accepted_of_withinLimits (by simpa using hlimits), hsucceeds, hproof⟩

private theorem honest_answer (p : TreeParams) (n : Nat) (req : GeneralProveRequest) :
    (p.answer req).Honest p n ∧ (p.answer req).completedStep = some req.step := by
  have hlimits := (answers_answer p req).2
  refine ⟨honest_of_withinLimits ?_ hlimits ?_ ?_, ?_⟩ <;> cases req <;>
    simp [TreeParams.answer, ProofResult.context, ProofResult.completedStep, GeneralProveRequest.step]

section
variable {p : TreeParams} {fleet : List (Nat × RegisteredWorker)} {leafPackThreshold maxLeafProvers n : Nat}
  {J : Journal} {s : TreeState} {L : Ledger} {handled accounted : List Answer}

private theorem Underway.reported_of_stuck
    (h : Underway p fleet leafPackThreshold maxLeafProvers n J s L handled accounted)
    (hheard : Heard (appEligibleWorkers fleet) J.tracked s) (hkept : Kept L n [])
    (hstuck : ∀ K, ¬ JournalStep p.context.proofUuid (Smooth p (appEligibleWorkers fleet).length n) J K) :
    J.tracked.Reported (appEligibleWorkers fleet) n := by
  have hops := ops_of_stuck hstuck
  have hreport (workerId : Nat) (envelope : MessageEnvelope ProofResult) (report : Report)
      (hallowed : FailureFree p (appEligibleWorkers fleet).length n J.tracked (.report workerId envelope report)) :
        False :=
    hstuck _ ⟨.report workerId envelope report, _, hallowed, .report workerId envelope report, rfl⟩
  refine ⟨?_, fun id hid => .inr fun segment hsegment => ?_, ?_, ?_⟩
  · by_contra hno
    have hhonest : (ProofResult.executeE2 ⟨p.context, ⟨n, [], 0⟩⟩).Honest p n :=
      honest_of_withinLimits rfl (decide_eq_true (Nat.zero_le p.costLimit)) (by simp) (by simp)
    exact hreport 0 ⟨0, "", _⟩ .executeE2
      ⟨⟨by simpa using hno, _, rfl, rfl⟩, hhonest, fun item hitem => by simp at hitem⟩
  · by_contra hno
    have hhonest : (ProofResult.app ⟨p.context, ⟨some [], segment, none, none⟩⟩).Honest p n :=
      honest_of_withinLimits rfl rfl (by simp) (fun a ha => by obtain rfl := ProofResult.app.inj ha; rfl)
    exact hreport id ⟨0, "", _⟩ (.segment segment)
      ⟨⟨hheard.shards ▸ hid, by simp [hheard.sound], hsegment, hno, _, rfl, rfl⟩, hhonest, fun item hitem => by
        simp at hitem⟩
  · refine List.eq_nil_iff_forall_not_mem.mpr fun entry hentry => ?_
    have hheld : entry ∈ L.held := by
      rw [h.followed.items.held.mem_iff]
      simp [hentry]
    have hwell : entry.2.WellFormed := by
      refine hkept.wellFormed _ (hkept.partition.mem_iff.mpr ?_)
      exact List.mem_append_right _ (List.mem_append_right _ (List.mem_append_left _ (List.mem_map_of_mem hheld)))
    obtain ⟨hhonest, hcompleted⟩ := honest_answer p n entry.2.request
    refine hreport entry.1 ⟨0, "", p.answer entry.2.request⟩ (.item entry.2)
      ⟨⟨hentry, .inl (hcompleted.trans (congrArg some hwell.symm))⟩, hhonest, fun item hitem => ?_⟩
    obtain rfl := Report.item.inj hitem
    exact (answers_answer p _).1
  · rw [hops]
    exact ⟨rfl, fun _ => ⟨rfl, rfl⟩⟩

/-- What the scheduler knows the tree has learned. -/
theorem Underway.learned (h : Underway p fleet leafPackThreshold maxLeafProvers n J s L handled accounted)
    (hheard : Heard (appEligibleWorkers fleet) J.tracked s) (hknown : L.st.numSegments ≠ none) :
    ∃ q ∈ s.delivered, q.isExecuteE2 = true := by
  have honce := h.followed.count.once
  rw [if_neg hknown] at honce
  have hexecuted : J.tracked.duties.executed = true := by
    by_contra hno
    rw [if_neg hno] at honce
    omega
  rw [if_pos hexecuted] at honce
  refine (hheard.count hexecuted).resolve_left ?_
  rintro ⟨entry, hentry, he2⟩
  have hpos : 0 < (handling J.tracked.world.ops).countP (·.2.isExecuteE2) :=
    List.countP_pos_iff.mpr ⟨entry, hentry, he2⟩
  omega

/-- A worker that holds an item was given it with the count recorded, so the tree has learned it. -/
theorem Underway.learned_of_held (h : Underway p fleet leafPackThreshold maxLeafProvers n J s L handled accounted)
    (hheard : Heard (appEligibleWorkers fleet) J.tracked s) (hkept : Kept L n []) (hheld : L.held ≠ []) :
    ∃ q ∈ s.delivered, q.isExecuteE2 = true := by
  refine h.learned hheard ?_
  rw [hkept.known_of_assigned]
  · exact Option.some_ne_none n
  · intro hnil
    have hnone := hkept.assigned
    rw [hnil, List.map_nil] at hnone
    exact hheld (List.map_eq_nil_iff.mp (List.append_eq_nil_iff.mp hnone.nil_eq.symm).1)

private theorem Underway.not_stuck (h : Underway p fleet leafPackThreshold maxLeafProvers n J s L handled accounted)
    (hheard : Heard (appEligibleWorkers fleet) J.tracked s) (hfirst : ExecuteE2First s.delivered)
    (hids : (fleet.map Prod.fst).Nodup) (hne : appEligibleWorkers fleet ≠ [])
    (hrange : ∀ id ∈ appEligibleWorkers fleet, id < (appEligibleWorkers fleet).length)
    (hevm : p.context.proofType = .evm → ∃ entry ∈ fleet, entry.2.workerRole.runsEvmProve = true)
    (ha : Arities p.leafArity p.internalArity) (hn : 0 < n) :
    ∃ K, JournalStep p.context.proofUuid (Smooth p (appEligibleWorkers fleet).length n) J K := by
  by_contra hstuck
  have hstuck := not_exists.mp hstuck
  have hkept := (h.settled hids hne).kept
  have hops := ops_of_stuck hstuck
  have hreported := h.reported_of_stuck hheard hkept hstuck
  have hpos : 0 < (appEligibleWorkers fleet).length := List.length_pos_of_ne_nil hne
  have hnodup : (appEligibleWorkers fleet).Nodup := hids.sublist (List.filter_sublist.map _)
  have hqueue := h.queue_empty hids hne ha hn hrange hevm hreported
  have he2 : ∃ q ∈ s.delivered, q.isExecuteE2 = true := by
    refine (hheard.count hreported.executed).resolve_left ?_
    rw [hops]
    simp
  have happs : ∀ i < n, ∃ q ∈ s.delivered, q.appSegment = some i := by
    intro i hi
    have hworker := (KeyedList.mem_iff_lt_of_nodup rfl hnodup hrange _).mpr (Nat.mod_lt i hpos)
    have hfailed : i % (appEligibleWorkers fleet).length ∉ J.tracked.duties.failed := by simp [hheard.sound]
    have hsegment := (hreported.shards _ hworker).resolve_left hfailed i (mem_shard.mpr ⟨hi, rfl⟩)
    refine (hheard.segments _ hsegment).resolve_left ?_
    rw [hops]
    simp
  have hout : s.outstanding = [] := by
    have hplaces := h.followed.items.outstanding hkept
    have hhandled := h.followed.items.handles
    rw [hops] at hplaces hhandled
    have hnone : handled = [] := List.map_eq_nil_iff.mp hhandled.nil_eq.symm
    rw [hqueue, hreported.items, hnone] at hplaces
    exact hplaces.eq_nil
  have hcomplete : Complete n s := by
    refine ⟨he2, happs, ?_⟩
    rw [hout]
    exact List.forall_mem_nil _
  have hready := ready_of_complete ha hn h.tree h.accepted hfirst hcomplete hout
  rw [h.unsealed] at hready
  exact Bool.false_ne_true hready

end
namespace ProofState

private theorem compactCompletedState_again (ps : ProofState) :
    ps.compactCompletedState.compactCompletedState = ps.compactCompletedState := by
  have hagain {α : Type} {f : α → α} (hf : ∀ a, f (f a) = f a) (x : Option α) : (x.map f).map f = x.map f := by
    cases x <;> simp [hf]
  unfold compactCompletedState
  cases hst : ps.status <;> simp [hst, hagain]

variable {ps : ProofState}

private theorem finalize_sealed (hs : ps.Sealed) (now : Time) : (ps.finalize now (.ok ())).status = .completed := by
  have hsealing : (ps.status.isInProgress && ps.isReadyForFinalization) = true := by simp [hs.1, hs.2]
  refine (compactCompletedState_status _).trans ?_
  rw [if_pos hsealing]

private theorem finalize_over (hover : ps.status ≠ .inProgress) (now : Time) (persisted : Except String Unit) :
    ps.finalize now persisted = ps.compactCompletedState := by
  have hopen : (ps.status.isInProgress && ps.isReadyForFinalization) = false := by
    simp [hover]
  unfold finalize
  rw [hopen]
  rfl

private theorem finalize_again (hs : ps.Sealed) (now now' : Time) (persisted : Except String Unit) :
    (ps.finalize now (.ok ())).finalize now' persisted = ps.finalize now (.ok ()) :=
  calc (ps.finalize now (.ok ())).finalize now' persisted
      = (ps.finalize now (.ok ())).compactCompletedState :=
        finalize_over (by simp [finalize_sealed hs]) now' persisted
    _ = ps.finalize now (.ok ()) := compactCompletedState_again _

end ProofState

section
variable {p : TreeParams} {numWorkers n : Nat} {T : Tracked} {proofUuid : String} {op : Op} {c : Choice} {W : World}
  {s : TreeState}

private theorem writeProof_of_sealed (proofUuid : String) {ps : ProofState} (hs : ps.Sealed)
    (hkind : op.kind ∈ finishingKinds)
    (hpersists : op = .persist → c.persisted = .ok ()) : op.writeProof proofUuid c ps = some ps ∧ op ≠ .persist ∨
      op = .persist ∧ op.writeProof proofUuid c ps = some (ps.finalize c.now (.ok ())) := by
  cases op with
  | persist => exact .inr ⟨rfl, by rw [Op.writeProof, hpersists rfl]⟩
  | evict =>
    have hevict : ps.shouldEvict c.now = false := by simp [ProofState.shouldEvict, hs.1, hs.2]
    exact .inl ⟨by simp [Op.writeProof, hevict], by simp⟩
  | transition => exact .inl ⟨by simp [Op.writeProof, ProofState.transitionFailingToFailed, hs.1], by simp⟩
  | workerCompleted | finalizeUnlessFailing | checkFailing | checkDrained | removeStaged | removeProof =>
    exact .inl ⟨rfl, by simp⟩
  | _ => simp [Op.kind, finishingKinds] at hkind

private theorem writeProof_of_published {ps : ProofState} {now : Time} (hs : ps.Sealed)
    (hkind : op.kind ∈ finishingKinds)
    (hevicts : op = .evict → (ps.finalize now (.ok ())).shouldEvict c.now = false) :
    op.writeProof proofUuid c (ps.finalize now (.ok ())) = some (ps.finalize now (.ok ())) := by
  cases op with
  | persist => exact congrArg some (ProofState.finalize_again hs now c.now c.persisted)
  | evict => simp [Op.writeProof, hevicts rfl]
  | transition => simp [Op.writeProof, ProofState.transitionFailingToFailed, ProofState.finalize_sealed hs]
  | workerCompleted | finalizeUnlessFailing | checkFailing | checkDrained | removeStaged | removeProof => rfl
  | _ => simp [Op.kind, finishingKinds] at hkind

/-- What is left to be done leads to the publication and to the removal of the scheduler entry. -/
theorem Closing.run (h : Closing s T) (hs : s.ps.Sealed) (hkind : op.kind ∈ finishingKinds)
    (hallowed : Smooth p numWorkers n T (.run op c)) (hstep : WorldStep proofUuid T.world (.run op c) W) :
    Closing s ⟨W, T.duties.run c T.world.state op⟩ := by
  obtain ⟨hstate, others, hold, hnew⟩ := TaskPool.ops_run hstep
  have hproof : W.state.proof = T.world.state.proof.bind (op.writeProof proofUuid c) := by
    rw [hstate]
    exact exec_proof
  have hstays : ∀ op' ∈ T.world.ops, op' = op ∨ op' ∈ W.ops := fun op' hop' =>
    (List.mem_cons.mp (hold.mem_iff.mp hop')).imp_right fun hmem => hnew.mem_iff.mpr (List.mem_append_right _ hmem)
  have hbrings : ∀ op' ∈ (op.exec proofUuid c T.world.state).next, op' ∈ W.ops := fun op' hop' =>
    hnew.mem_iff.mpr (List.mem_append_left _ (List.mem_append_left _ hop'))
  have hfinalizes (hsame : op = .finalizeUnlessFailing) : .persist ∈ W.ops ∧ .removeProof ∈ W.ops := by
    have hnext : (op.exec proofUuid c T.world.state).next = finalizeProof := by
      have hfailing : T.world.state.isFailing = false := by
        unfold Manager.isFailing
        obtain ⟨hentry, -⟩ | ⟨now, hentry⟩ := h.entry
        · rw [hentry]
          exact congrArg ProofStatus.isFailing hs.1
        · rw [hentry]
          exact congrArg ProofStatus.isFailing (ProofState.finalize_sealed hs now)
      subst hsame
      simp only [Op.exec, goOn, hfailing, Bool.false_eq_true, if_false]
    rw [hnext] at hbrings
    exact ⟨hbrings _ (by simp [finalizeProof]), hbrings _ (by simp [finalizeProof])⟩
  constructor
  · obtain ⟨hentry, hpending⟩ | ⟨now, hentry⟩ := h.entry
    · rw [hentry, Option.bind_some] at hproof
      have hpersists (hsame : op = .persist) : c.persisted = .ok () := by
        subst hsame
        exact hallowed
      obtain ⟨hwrite, hother⟩ | ⟨-, hwrite⟩ := writeProof_of_sealed proofUuid hs hkind hpersists
      · refine .inl ⟨hproof.trans hwrite, ?_⟩
        obtain hpending | hpending := hpending
        · exact (hstays _ hpending).elim (fun hsame => .inr (hfinalizes hsame.symm).1) .inl
        · exact .inr ((hstays _ hpending).resolve_left fun hsame => hother hsame.symm)
      · exact .inr ⟨c.now, hproof.trans hwrite⟩
    · rw [hentry, Option.bind_some] at hproof
      refine .inr ⟨now, hproof.trans (writeProof_of_published hs hkind ?_)⟩
      rintro rfl
      exact hallowed _ hentry
  · obtain hpending | hpending | hnone := h.slot
    · exact (hstays _ hpending).elim (fun hsame => .inr (.inl (hfinalizes hsame.symm).2)) .inl
    · refine (hstays _ hpending).elim (fun hsame => .inr (.inr ?_)) (fun hmem => .inr (.inl hmem))
      rw [hstate, ← hsame]
      rfl
    · refine .inr (.inr ?_)
      rw [hstate]
      exact scheduler_of_none hnone

end
private theorem handles_of_brought {proofUuid : String} {c : Choice} {m : Manager} {op : Op} :
    ∀ op' ∈ (op.exec proofUuid c m).next ++ (op.exec proofUuid c m).spawned.flatten, op'.handles = none := by
  intro op' hop'
  have hkind := leadsTo_exec op op' hop'
  cases op' with
  | process workerId envelope =>
    have hnever : ∀ kind : OpKind, .process ∉ kind.next := by
      intro kind
      cases kind <;> decide
    exact absurd hkind (hnever op.kind)
  | _ => rfl

/-- A run under way that has lost nothing. All results that came in are of the kind `P`, which may depend on the
requests emitted so far. -/
structure Pursued (P : List GeneralProveRequest → ProofResult → Prop) (p : TreeParams)
    (fleet : List (Nat × RegisteredWorker)) (leafPackThreshold maxLeafProvers n : Nat) (J : Journal) (s : TreeState)
    (L : Ledger) (handled accounted : List Answer) : Prop where
  underway : Underway p fleet leafPackThreshold maxLeafProvers n J s L handled accounted
  heard : Heard (appEligibleWorkers fleet) J.tracked s
  first : ExecuteE2First s.delivered
  delivered : ∀ r ∈ s.delivered, P s.emitted r
  handles : ∀ entry ∈ handling J.tracked.world.ops, P s.emitted entry.2

/-- A finished run that publishes `s`. -/
structure Closed (P : List GeneralProveRequest → ProofResult → Prop) (p : TreeParams) (numWorkers n : Nat) (J : Journal)
    (s : TreeState) : Prop where
  finished : Finished numWorkers n J
  tree : HonestRun p n s
  accepted : Accepted p n s.delivered
  artifact : s.ps.Sealed
  closing : Closing s J.tracked
  first : ExecuteE2First s.delivered
  delivered : ∀ r ∈ s.delivered, P s.emitted r

/-- The steps go well, and the reports are owed, honest and of the kind `P`. -/
structure WellRun (P : List GeneralProveRequest → ProofResult → Prop) (p : TreeParams)
    (fleet : List (Nat × RegisteredWorker)) (leafPackThreshold maxLeafProvers n : Nat)
    (allowed : Tracked → DutyLabel → Prop) : Prop where
  mono : ∀ {emitted emitted' r}, emitted ⊆ emitted' → P emitted r → P emitted' r
  requests : ∀ T task, ¬ allowed T (.request task)
  runs : ∀ T op c, allowed T (.run op c) → Smooth p (appEligibleWorkers fleet).length n T (.run op c)
  owes : ∀ T workerId envelope report, allowed T (.report workerId envelope report) →
    T.duties.Owes (appEligibleWorkers fleet).length n workerId envelope.message report
  reports : ∀ {J s L handled accounted workerId envelope report},
    Pursued P p fleet leafPackThreshold maxLeafProvers n J s L handled accounted →
    allowed J.tracked (.report workerId envelope report) →
    FailureFree p (appEligibleWorkers fleet).length n J.tracked (.report workerId envelope report) ∧
      P s.emitted envelope.message

section
variable {P : List GeneralProveRequest → ProofResult → Prop} {p : TreeParams} {fleet : List (Nat × RegisteredWorker)}
  {leafPackThreshold maxLeafProvers n : Nat} {staged : Option StagedInputs} {J : Journal} {s : TreeState} {L : Ledger}
  {handled accounted : List Answer} {allowed : Tracked → DutyLabel → Prop}

/-- An answer is one to an item that was given out with the count recorded. -/
theorem Underway.learned_of_answer (h : Underway p fleet leafPackThreshold maxLeafProvers n J s L handled accounted)
    (hheard : Heard (appEligibleWorkers fleet) J.tracked s) (hkept : Kept L n []) {entry : Nat × ProofResult}
    (hentry : entry ∈ handling J.tracked.world.ops) (hr : entry.2.isRecursion = true) :
    ∃ q ∈ s.delivered, q.isExecuteE2 = true := by
  have hanswer : entry ∈ answersOf (handling J.tracked.world.ops) := by
    refine List.mem_filter.mpr ⟨hentry, ?_⟩
    cases hresult : entry.2 <;> simp_all [ProofResult.isRecursion, ProofResult.completedStep]
  obtain ⟨a, ha, -⟩ := List.mem_map.mp (h.followed.items.handles.mem_iff.mp hanswer)
  refine h.learned_of_held hheard hkept (List.ne_nil_of_mem (a := a.entry) ?_)
  rw [h.followed.items.held.mem_iff]
  simp only [List.mem_append, List.map_append, List.mem_map]
  exact .inr (.inr (.inl ⟨a, ha, rfl⟩))

namespace Pursued

theorem start (staged : Option StagedInputs) : Pursued P p fleet leafPackThreshold maxLeafProvers n
    ⟨.kickedOff p fleet leafPackThreshold maxLeafProvers staged, [], []⟩ (.start p)
    (.start fleet leafPackThreshold maxLeafProvers) [] [] where
  underway := Underway.start staged
  heard := ⟨rfl, rfl, List.forall_mem_nil _, fun hdone => by simp [Tracked.kickedOff, Duties.start] at hdone⟩
  first := fun before r after heq => by simp [TreeState.start] at heq
  delivered := List.forall_mem_nil _
  handles := List.forall_mem_nil _

/-- A report comes in. -/
theorem report (h : Pursued P p fleet leafPackThreshold maxLeafProvers n J s L handled accounted)
    (hwell : WellRun P p fleet leafPackThreshold maxLeafProvers n allowed) {workerId : Nat}
    {envelope : MessageEnvelope ProofResult} {report : Report}
    (hallowed : allowed J.tracked (.report workerId envelope report)) :
    ∃ handled', Pursued P p fleet leafPackThreshold maxLeafProvers n { J with tracked :=
      ⟨{ J.tracked.world with tasks := resultTask workerId envelope :: J.tracked.world.tasks },
        J.tracked.duties.report workerId report⟩ } s L handled' accounted := by
  obtain ⟨hfree, hkind⟩ := hwell.reports h hallowed
  obtain ⟨handled', hnow⟩ := h.underway.report hfree
  exact ⟨handled', hnow, h.heard.report hfree, h.first, h.delivered, List.forall_mem_cons.mpr ⟨hkind, h.handles⟩⟩

variable {op : Op} {c : Choice} {W : World} (hids : (fleet.map Prod.fst).Nodup) (hne : appEligibleWorkers fleet ≠ [])
  (ha : Arities p.leafArity p.internalArity) (hn : 0 < n)
include hids hne ha hn

/-- A step that handles no result leaves the tree as it is. -/
theorem pass (h : Pursued P p fleet leafPackThreshold maxLeafProvers n J s L handled accounted)
    (hsmooth : Smooth p (appEligibleWorkers fleet).length n J.tracked (.run op c))
    (hstep : WorldStep p.context.proofUuid J.tracked.world (.run op c) W) (hop : op.kind ≠ .process) :
    ∃ L' accounted', Pursued P p fleet leafPackThreshold maxLeafProvers n
      (J.record p.context.proofUuid ⟨W, J.tracked.duties.run c J.tracked.world.state op⟩ (.run op c)) s L' handled
        accounted' := by
  obtain ⟨L', accounted', hnow⟩ := h.underway.pass hids hne ha hn hsmooth.failureFree hstep hop
  obtain ⟨-, others, hold, hnew⟩ := TaskPool.ops_run hstep
  refine ⟨L', accounted', hnow, ?_, h.first, h.delivered, fun entry hentry => ?_⟩
  · refine h.heard.run (h.underway.live op (TaskPool.op_mem hstep)) hstep (fun _ => id) fun entry hentry => ?_
    cases op <;> simp_all [Op.kind]
  · exact h.handles _ (mem_filterMap_of_next hold hnew handles_of_brought hentry)

/-- The tree takes a result, which may bring the final artifact. -/
theorem process (h : Pursued P p fleet leafPackThreshold maxLeafProvers n J s L handled accounted)
    (hmono : ∀ {emitted emitted' r}, emitted ⊆ emitted' → P emitted r → P emitted' r) {workerId : Nat}
    {envelope : MessageEnvelope ProofResult}
    (hstep : WorldStep p.context.proofUuid J.tracked.world (.run (.process workerId envelope) c) W) :
    (∃ s' handled' accounted', Pursued P p fleet leafPackThreshold maxLeafProvers n
      (J.record p.context.proofUuid ⟨W, J.tracked.duties.run c J.tracked.world.state (.process workerId envelope)⟩
        (.run (.process workerId envelope) c)) s' L handled' accounted') ∨
      ∃ s', Closed P p (appEligibleWorkers fleet).length n
        (J.record p.context.proofUuid ⟨W, J.tracked.duties.run c J.tracked.world.state (.process workerId envelope)⟩
          (.run (.process workerId envelope) c)) s' := by
  obtain ⟨-, others, hold, hnew⟩ := TaskPool.ops_run hstep
  have hmem : (workerId, envelope.message) ∈ handling J.tracked.world.ops :=
    List.mem_filterMap.mpr ⟨_, TaskPool.op_mem hstep, rfl⟩
  have hfirst : ExecuteE2First (s.delivered ++ [envelope.message]) :=
    h.first.concat (h.underway.learned_of_answer h.heard (h.underway.settled hids hne).kept hmem)
  have hkinds {s' : TreeState} (htakes : s.Takes s' envelope.message) : ∀ r ∈ s'.delivered, P s'.emitted r := by
    rw [htakes.delivered]
    refine List.forall_mem_append.mpr ⟨fun r hr => hmono htakes.emitted (h.delivered r hr), fun r hr => ?_⟩
    obtain rfl := List.mem_singleton.mp hr
    exact hmono htakes.emitted (h.handles _ hmem)
  obtain ⟨s', handled', accounted', htakes, hnow⟩ | ⟨hdone, s', htakes, hs, hacc, hready, hproof, hpending⟩ :=
    h.underway.process ha hn hids hne hstep
  · refine .inl ⟨s', handled', accounted', hnow, ?_, htakes.delivered ▸ hfirst, hkinds htakes, fun entry hentry => ?_⟩
    · refine h.heard.run (h.underway.live _ (TaskPool.op_mem hstep)) hstep (fun q hq => ?_) fun entry hentry => ?_
      · rw [htakes.delivered]
        exact List.mem_append_left _ hq
      · obtain rfl := Option.some.inj hentry
        rw [htakes.delivered]
        exact List.mem_append_right _ List.mem_cons_self
    · exact hmono htakes.emitted (h.handles _ (mem_filterMap_of_next hold hnew handles_of_brought hentry))
  · obtain ⟨m, ht⟩ := tracks_of_accepted ha hn hs hacc
    exact .inr ⟨s', hdone, hs, hacc, ⟨ht.mirrors.status, hready⟩, ⟨.inl ⟨hproof, .inl hpending⟩, .inl hpending⟩,
      htakes.delivered ▸ hfirst, hkinds htakes⟩

end Pursued

private theorem pursued_or_closed (hids : (fleet.map Prod.fst).Nodup) (hne : appEligibleWorkers fleet ≠ [])
    (ha : Arities p.leafArity p.internalArity) (hn : 0 < n)
    (hwell : WellRun P p fleet leafPackThreshold maxLeafProvers n allowed)
    (hrun : JournalRun p.context.proofUuid allowed (.kickedOff p fleet leafPackThreshold maxLeafProvers staged) J) :
    (∃ s L handled accounted, Pursued P p fleet leafPackThreshold maxLeafProvers n J s L handled accounted) ∨
      ∃ s, Closed P p (appEligibleWorkers fleet).length n J s := by
  induction hrun with
  | start => exact .inl ⟨_, _, [], [], Pursued.start staged⟩
  | @step J l T _ hallowed hstep ih =>
    cases hstep with
    | request task => exact absurd hallowed (hwell.requests _ task)
    | report workerId envelope report =>
      obtain ⟨s, L, handled, accounted, h⟩ | ⟨s, h⟩ := ih
      · obtain ⟨handled', hnow⟩ := h.report hwell hallowed
        exact .inl ⟨s, L, handled', accounted, hnow⟩
      · exact absurd (hwell.owes _ _ _ _ hallowed) h.finished.not_owes
    | @run op c W hstep =>
      have hsmooth := hwell.runs _ _ _ hallowed
      obtain ⟨s, L, handled, accounted, h⟩ | ⟨s, h⟩ := ih
      · by_cases hop : op.kind = .process
        · cases op with
          | process workerId envelope =>
            refine (h.process hids hne ha hn hwell.mono hstep).imp_left fun hnow => ?_
            obtain ⟨s', handled', accounted', hnow⟩ := hnow
            exact ⟨s', L, handled', accounted', hnow⟩
          | _ => simp [Op.kind] at hop
        · obtain ⟨L', accounted', hnow⟩ := h.pass hids hne ha hn hsmooth hstep hop
          exact .inl ⟨s, L', handled, accounted', hnow⟩
      · have hkind := h.finished.finishing op (TaskPool.op_mem hstep)
        exact .inr ⟨s, { h with
          finished := h.finished.run hstep
          closing := h.closing.run h.artifact hkind hsmooth hstep }⟩

/-- Where a well-run proof comes to rest it is Completed, published from a state with the final artifact; and its
scheduler entry is gone. -/
theorem completed_of_stuck (hids : (fleet.map Prod.fst).Nodup) (hne : appEligibleWorkers fleet ≠ [])
    (hrange : ∀ id ∈ appEligibleWorkers fleet, id < (appEligibleWorkers fleet).length)
    (hevm : p.context.proofType = .evm → ∃ entry ∈ fleet, entry.2.workerRole.runsEvmProve = true)
    (ha : Arities p.leafArity p.internalArity) (hn : 0 < n)
    (hwell : WellRun P p fleet leafPackThreshold maxLeafProvers n allowed)
    (hrun : JournalRun p.context.proofUuid allowed (.kickedOff p fleet leafPackThreshold maxLeafProvers staged) J)
    (hstuck : ∀ K, ¬ JournalStep p.context.proofUuid (Smooth p (appEligibleWorkers fleet).length n) J K) :
    J.tracked.world.state.scheduler = none ∧ ∃ s now, Closed P p (appEligibleWorkers fleet).length n J s ∧
      J.tracked.world.state.proof = some (s.ps.finalize now (.ok ())) ∧
      (s.ps.finalize now (.ok ())).status = .completed := by
  obtain ⟨s, L, handled, accounted, h⟩ | ⟨s, h⟩ := pursued_or_closed hids hne ha hn hwell hrun
  · obtain ⟨K, hstep⟩ := h.underway.not_stuck h.heard h.first hids hne hrange hevm ha hn
    exact absurd hstep (hstuck K)
  · have hentry := h.closing.entry
    have hslot := h.closing.slot
    simp only [ops_of_stuck hstuck, List.not_mem_nil, or_self, and_false, false_or] at hentry hslot
    obtain ⟨now, hentry⟩ := hentry
    exact ⟨hslot, s, now, h, hentry, ProofState.finalize_sealed h.artifact now⟩

/-- Within the word no handler of a well-run proof faults. -/
theorem faultless_of_wellRun (hids : (fleet.map Prod.fst).Nodup) (hne : appEligibleWorkers fleet ≠ [])
    (ha : Arities p.leafArity p.internalArity) (hn : 0 < n) (hw : p.WithinWord n)
    (hwell : WellRun P p fleet leafPackThreshold maxLeafProvers n allowed)
    (hrun : JournalRun p.context.proofUuid allowed (.kickedOff p fleet leafPackThreshold maxLeafProvers staged) J) :
    ∀ op ∈ J.tracked.world.ops, op.Faultless J.tracked.world.state := by
  obtain ⟨s, L, handled, accounted, h⟩ | ⟨s, h⟩ := pursued_or_closed hids hne ha hn hwell hrun
  · exact h.underway.faultless hids hne ha hn hw
  · exact h.finished.faultless

end

/-- Where everything is reported and done, no step is possible. -/
theorem stuck_of_done {p : TreeParams} {numWorkers n : Nat} {J : Journal} (hops : J.tracked.world.ops = [])
    (hexecuted : J.tracked.duties.executed = true)
    (hsegments : ∀ id, ∀ segment ∈ shard id numWorkers n, (id, segment) ∈ J.tracked.duties.segments)
    (hitems : J.tracked.duties.items = []) (K : Journal) :
    ¬ JournalStep p.context.proofUuid (Smooth p numWorkers n) J K := by
  rintro ⟨l, T, hallowed, hstep, -⟩
  cases hstep with
  | request task => exact hallowed
  | report workerId envelope report => exact Duties.not_owes_of_reported hexecuted hsegments hitems hallowed.1
  | run hstep =>
    have hmem := TaskPool.op_mem hstep
    rw [hops] at hmem
    exact List.not_mem_nil hmem

theorem smooth_of_goesWell {p : TreeParams} {numWorkers n : Nat} (T : Tracked) (l : DutyLabel)
    (h : goesWell p numWorkers n T l = true) : Smooth p numWorkers n T l := by
  have hfree := failureFree_of_goesWell T l h
  unfold Smooth
  split
  · rename_i c
    cases hpersisted : c.persisted with
    | ok done => rfl
    | error e => simp [goesWell, hpersisted, Except.toOption] at h
  · simp only [goesWell, Option.all_eq_true] at h
    exact fun ps hps => by simpa using h ps hps
  · exact hfree

end EdgeProver
