import EdgeProver.Manager.Sealed
import EdgeProver.Worker.Admission

/-! One dispatch: the attempts of `send_work_with_retry` and the worker that answers them. -/
namespace EdgeProver

/-- What becomes of one attempt on its way: of the pushed deferral inputs, of the request and of the response. -/
structure Attempt where
  pushed : Bool
  requestLost : Bool
  responseLost : Bool
  deriving DecidableEq, Repr

structure Dispatch where
  /-- The proof on the manager, with every other task. -/
  world : World
  /-- What is left of this task. -/
  own : List Op
  /-- The pools of the worker. -/
  pools : WorkerPools
  /-- Attempts the worker accepted. -/
  accepted : Nat
  /-- Tasks of the worker for this item that have ended. -/
  ended : Nat

/-- A prover for the request is free. EVM requests are taken without asking. -/
def WorkerPools.hasRoom (pools : WorkerPools) : GeneralProveRequest → Bool
  | .leafProve _ => pools.leaf.hasAvailableWorker
  | .internalProve _ => pools.internal.hasAvailableWorker
  | .evmProve _ => true

namespace Dispatch
variable (D : Dispatch) (work : AssignedWork)

def reaches (attempt : Attempt) : Bool :=
  (!work.isDeferralTail || D.world.state.staged.isNone || attempt.pushed) && !attempt.requestLost

def accepts (decode : ProofBytes → Except String Unit) (attempt : Attempt) : Bool :=
  D.reaches work attempt && (D.pools.handleRecursionProve decode work.item).1.1 == .ok

def runOwn (proofUuid : String) (op : Op) (rest : List Op) (choice : Choice) : Dispatch :=
  let out := op.exec proofUuid choice D.world.state
  { D with
    world := ⟨out.state, out.spawned ++ D.world.tasks⟩
    own := out.next ++ rest }

/-- The manager takes an attempt for a success when the worker accepted it and the response came back. -/
def attempt (decode : ProofBytes → Except String Unit) (proofUuid : String) (retries : Nat) (rest : List Op)
    (attempt : Attempt) (choice : Choice) : Dispatch :=
  let accepted := D.accepts work decode attempt
  let choice := { choice with pushed := attempt.pushed, sent := accepted && !attempt.responseLost }
  let sent := D.runOwn proofUuid (.send work retries) rest choice
  { sent with
    pools := if D.reaches work attempt then (D.pools.handleRecursionProve decode work.item).2 else D.pools
    accepted := if accepted then D.accepted + 1 else D.accepted }

end Dispatch

inductive DispatchLabel where
  | attempt (attempt : Attempt)
  | own (op : Op)
  /-- The rest of the manager and of the worker. -/
  | others

/-- The envelope has a message id of its own, so nobody else sends this item to the worker. -/
inductive DispatchStep (decode : ProofBytes → Except String Unit) (proofUuid : String) (work : AssignedWork)
    (D : Dispatch) : DispatchLabel → Dispatch → Prop
  | attempt {retries : Nat} {rest : List Op} (attempt : Attempt) (choice : Choice)
      (hown : D.own = .send work retries :: rest) :
      DispatchStep decode proofUuid work D (.attempt attempt)
        (D.attempt work decode proofUuid retries rest attempt choice)
  | own {op : Op} {rest : List Op} (choice : Choice) (hown : D.own = op :: rest)
      (hop : ∀ retries, op ≠ .send work retries) :
      DispatchStep decode proofUuid work D (.own op) (D.runOwn proofUuid op rest choice)
  | manager {l : WorldLabel} {W : World} (hstep : WorldStep proofUuid D.world l W) :
      DispatchStep decode proofUuid work D .others { D with world := W }
  | prove {pools : WorkerPools} (hstep : PoolsStep D.pools pools) :
      DispatchStep decode proofUuid work D .others { D with pools := pools }
  | finish {item : EdgeWorkItem} {pools : WorkerPools} (hpost : Posts D.pools item pools) :
      DispatchStep decode proofUuid work D .others
        { D with pools := pools, ended := if item = work.item then D.ended + 1 else D.ended }
  | deliver {item : EdgeWorkItem} (hother : item ≠ work.item) :
      DispatchStep decode proofUuid work D .others { D with pools := (D.pools.handleRecursionProve decode item).2 }

/-- Runs of one dispatch, with the states they went through. The worker starts without the item. -/
inductive DispatchRun (decode : ProofBytes → Except String Unit) (proofUuid : String) (work : AssignedWork) :
    List (Dispatch × DispatchLabel) → Dispatch → Prop
  | start (world : World) (pools : WorkerPools) (hfresh : work.item ∉ pools.jobs) :
      DispatchRun decode proofUuid work [] ⟨world, [.send work 0], pools, 0, 0⟩
  | step {trace : List (Dispatch × DispatchLabel)} {D D' : Dispatch} {l : DispatchLabel}
      (hrun : DispatchRun decode proofUuid work trace D) (hstep : DispatchStep decode proofUuid work D l D') :
      DispatchRun decode proofUuid work ((D, l) :: trace) D'

/-- An item the worker accepted is run once: by a task that has ended, or by one that has it. -/
def Dispatch.RunsOnce (work : AssignedWork) (D : Dispatch) : Prop :=
  0 < D.accepted → D.ended + D.pools.jobs.count work.item = 1

/-- The step that gives the worker's slot back, and the one that fails the proof. -/
def Op.Withdraws : Op → Prop
  | .releaseWorker _ | .dispatchFailed _ => True
  | _ => False

/-- In no state of the run was the item run more than once, and the dispatch was withdrawn only when
the worker did not have the item. -/
structure Idempotent (work : AssignedWork) (trace : List (Dispatch × DispatchLabel)) (D : Dispatch) : Prop where
  once : ∀ E, E = D ∨ (∃ l, (E, l) ∈ trace) → E.RunsOnce work
  spared : ∀ E op, (E, .own op) ∈ trace → op.Withdraws → work.item ∉ E.pools.jobs

/-- An attempt after an accepted one does not reach the worker while a prover is free, and the retries
are not used up while the worker has the item. -/
structure Dispatch.Tolerates (work : AssignedWork) (D : Dispatch) (l : DispatchLabel) : Prop where
  attempt : ∀ a, l = .attempt a → 0 < D.accepted → D.reaches work a = true →
    D.pools.hasRoom work.envelope.message = false
  release : ∀ workerId, l = .own (.releaseWorker workerId) → work.item ∉ D.pools.jobs

section
variable {decode : ProofBytes → Except String Unit} {proofUuid : String} {work : AssignedWork} {D D' : Dispatch}
  {l : DispatchLabel} {trace : List (Dispatch × DispatchLabel)}

/-- The proofs the request carries can be read. -/
private def Decodes (decode : ProofBytes → Except String Unit) : GeneralProveRequest → Prop
  | .leafProve req => ∃ proofs, req.appProofs.mapM decode = .ok proofs
  | .internalProve req => ∃ proofs, req.childProofs.mapM decode = .ok proofs
  | .evmProve _ => True

private theorem handleRecursionProve_ok_iff (pools : WorkerPools) (item : EdgeWorkItem) :
    (pools.handleRecursionProve decode item).1.1 = .ok ↔
      pools.hasRoom item.envelope.message = true ∧ Decodes decode item.envelope.message := by
  unfold WorkerPools.handleRecursionProve
  cases item.envelope.message with
  | leafProve req =>
    simp only [WorkerPools.hasRoom, Decodes]
    cases pools.leaf.hasAvailableWorker <;> cases req.appProofs.mapM decode <;> simp
  | internalProve req =>
    simp only [WorkerPools.hasRoom, Decodes]
    cases pools.internal.hasAvailableWorker <;> cases req.childProofs.mapM decode <;> simp
  | evmProve req => simp [WorkerPools.hasRoom, Decodes]

private theorem handleRecursionProve_jobs (decode : ProofBytes → Except String Unit) (pools : WorkerPools)
    (item : EdgeWorkItem) :
    ((pools.handleRecursionProve decode item).1.1 = .ok ∧
        (pools.handleRecursionProve decode item).2.jobs.Perm (item :: pools.jobs)) ∨
      (pools.handleRecursionProve decode item).1.1 ≠ .ok ∧ (pools.handleRecursionProve decode item).2 = pools := by
  unfold WorkerPools.handleRecursionProve
  cases item.envelope.message with
  | leafProve req =>
    simp only
    cases pools.leaf.hasAvailableWorker with
    | false => exact Or.inr ⟨by simp, rfl⟩
    | true =>
      cases req.appProofs.mapM decode with
      | error e => exact Or.inr ⟨by simp, rfl⟩
      | ok proofs => exact Or.inl ⟨rfl, List.Perm.refl _⟩
  | internalProve req =>
    simp only
    cases pools.internal.hasAvailableWorker with
    | false => exact Or.inr ⟨by simp, rfl⟩
    | true =>
      cases req.childProofs.mapM decode with
      | error e => exact Or.inr ⟨by simp, rfl⟩
      | ok proofs => exact Or.inl ⟨rfl, List.perm_middle⟩
  | evmProve req =>
    refine Or.inl ⟨rfl, ?_⟩
    exact (List.perm_middle.append_left pools.leaf.jobs).trans List.perm_middle

/-- What the task comes to after the dispatch itself: finishing the failure, dropping the staged inputs. -/
private def Closes : Op → Prop
  | .checkFailing | .checkDrained _ | .transition | .removeStaged | .persist | .removeProof => True
  | _ => False

private inductive Phase (work : AssignedWork) : List Op → Prop
  | sending (retries : Nat) : Phase work [.send work retries]
  | withdrawing (reason : String) :
      Phase work [.releaseWorker work.workerId, .dispatchFailed reason, .checkFailing]
  | failing (reason : String) : Phase work [.dispatchFailed reason, .checkFailing]
  | closing {ops : List Op} (hops : ∀ op ∈ ops, Closes op) : Phase work ops

private theorem closes_exec {op : Op} (hop : Closes op) (choice : Choice) (m : Manager) :
    ∀ op' ∈ (op.exec proofUuid choice m).next, Closes op' := by
  cases op with
  | checkFailing =>
    simp only [Op.exec]
    split
    · simp [goOn]
    · simp only [goOn]
      split <;> simp [Closes]
  | checkDrained ttlExpired =>
    simp only [Op.exec, goOn]
    split <;> simp [Closes, finalizeProof]
  | transition | removeStaged | persist | removeProof => simp [Op.exec, goOn]
  | _ => exact hop.elim

private theorem phase_attempt (retries : Nat) (choice : Choice) (m : Manager) :
    Phase work ((Op.send work retries).exec proofUuid choice m).next := by
  simp only [Op.exec]
  split
  · refine .closing fun op hop => ?_
    simp only [goOn] at hop
    split at hop
    · obtain rfl := List.mem_singleton.mp hop
      exact trivial
    · simp at hop
  · split
    · exact .withdrawing _
    · exact .sending _

private theorem phase_own {op : Op} {rest : List Op} (h : Phase work (op :: rest))
    (hop : ∀ retries, op ≠ .send work retries)
    (choice : Choice) (m : Manager) : Phase work ((op.exec proofUuid choice m).next ++ rest) := by
  cases h with
  | sending retries => exact absurd rfl (hop retries)
  | withdrawing reason => exact .failing reason
  | failing reason => exact .closing (by simp [Op.exec, goOn, Closes])
  | closing hops =>
    refine .closing fun op' hop' => ?_
    rcases List.mem_append.mp hop' with hnext | hrest
    · exact closes_exec (hops op List.mem_cons_self) choice m op' hnext
    · exact hops op' (List.mem_cons_of_mem _ hrest)

/-- What holds all along: every acceptance is a run of the item, ended or in the pools. -/
private structure Followed (decode : ProofBytes → Except String Unit) (work : AssignedWork) (D : Dispatch) : Prop where
  runs : D.ended + D.pools.jobs.count work.item = D.accepted
  decodes : 0 < D.accepted → Decodes decode work.envelope.message
  phase : Phase work D.own

private theorem accepts_iff (attempt : Attempt) : D.accepts work decode attempt = true ↔
    D.reaches work attempt = true ∧ D.pools.hasRoom work.envelope.message = true ∧
      Decodes decode work.envelope.message := by
  rw [Dispatch.accepts, Bool.and_eq_true, beq_iff_eq, handleRecursionProve_ok_iff]
  rfl

private theorem followed_attempt (h : Followed decode work D) (retries : Nat) (rest : List Op) (attempt : Attempt)
    (choice : Choice) (hown : D.own = .send work retries :: rest) :
    Followed decode work (D.attempt work decode proofUuid retries rest attempt choice) := by
  have hrest : rest = [] := by
    have hphase := hown ▸ h.phase
    cases hphase with
    | sending retries => rfl
    | closing hops => exact (hops _ List.mem_cons_self).elim
  subst hrest
  refine ⟨?_, fun hpos => ?_, ?_⟩
  · have hruns := h.runs
    simp only [Dispatch.attempt, Dispatch.runOwn, Dispatch.accepts]
    by_cases hreach : D.reaches work attempt = true
    · obtain ⟨hok, hjobs⟩ | ⟨hrefused, hsame⟩ := handleRecursionProve_jobs decode D.pools work.item
      · simp only [hreach, hok, beq_self_eq_true, Bool.and_self, if_true, hjobs.count_eq, List.count_cons_self]
        omega
      · simp only [hreach, hsame, beq_false_of_ne hrefused, Bool.and_false, Bool.false_eq_true, if_false, if_true]
        exact hruns
    · simpa only [hreach, Bool.false_and, Bool.false_eq_true, if_false] using hruns
  · simp only [Dispatch.attempt] at hpos
    split at hpos
    · rename_i haccepts
      exact (accepts_iff attempt |>.mp haccepts).2.2
    · exact h.decodes hpos
  · simp only [Dispatch.attempt, Dispatch.runOwn, List.append_nil]
    exact phase_attempt retries _ _

private theorem followed_step (h : Followed decode work D) (hstep : DispatchStep decode proofUuid work D l D') :
    Followed decode work D' := by
  cases hstep with
  | attempt attempt choice hown => exact followed_attempt h _ _ attempt choice hown
  | own choice hown hop => exact ⟨h.runs, h.decodes, phase_own (hown ▸ h.phase) hop choice _⟩
  | manager hstep => exact ⟨h.runs, h.decodes, h.phase⟩
  | prove hstep =>
    refine ⟨?_, h.decodes, h.phase⟩
    rw [(PoolsFit.jobs_perm hstep).count_eq]
    exact h.runs
  | @finish item pools hpost =>
    refine ⟨?_, h.decodes, h.phase⟩
    have hruns := h.runs
    rw [(PoolsFit.posts_perm hpost).count_eq, List.count_cons] at hruns
    simp only
    split
    · rename_i hitem
      simp only [hitem, beq_self_eq_true, if_true] at hruns
      omega
    · rename_i hitem
      simpa [hitem] using hruns
  | @deliver item hother =>
    refine ⟨?_, h.decodes, h.phase⟩
    obtain ⟨-, hjobs⟩ | ⟨-, hsame⟩ := handleRecursionProve_jobs decode D.pools item
    · simpa only [hjobs.count_eq, List.count_cons_of_ne hother] using h.runs
    · simpa only [hsame] using h.runs

private theorem followed_run (hrun : DispatchRun decode proofUuid work trace D) : Followed decode work D := by
  induction hrun with
  | start world pools hfresh =>
    refine ⟨?_, fun hpos => absurd hpos (Nat.lt_irrefl 0), .sending 0⟩
    simp only [Nat.zero_add]
    exact List.count_eq_zero.mpr hfresh
  | step _ hstep ih => exact followed_step ih hstep

private theorem runsOnce_iff (h : Followed decode work D) : D.RunsOnce work ↔ D.accepted ≤ 1 := by
  have hruns := h.runs
  unfold Dispatch.RunsOnce
  omega

private theorem absent_others (hstep : DispatchStep decode proofUuid work D .others D')
    (habsent : work.item ∉ D.pools.jobs) : D'.own = D.own ∧ work.item ∉ D'.pools.jobs := by
  cases hstep with
  | manager hstep => exact ⟨rfl, habsent⟩
  | prove hstep => exact ⟨rfl, fun hmem => habsent ((PoolsFit.jobs_perm hstep).mem_iff.mp hmem)⟩
  | finish hpost =>
    exact ⟨rfl, fun hmem => habsent ((PoolsFit.posts_perm hpost).mem_iff.mpr (List.mem_cons_of_mem _ hmem))⟩
  | @deliver item hother =>
    refine ⟨rfl, fun hmem => ?_⟩
    obtain ⟨-, hjobs⟩ | ⟨-, hsame⟩ := handleRecursionProve_jobs decode D.pools item
    · rcases List.mem_cons.mp (hjobs.mem_iff.mp hmem) with heq | hmem
      · exact hother heq.symm
      · exact habsent hmem
    · exact habsent (hsame ▸ hmem)

/-- Once the slot is given back the proof is failed next. -/
private def Withdrawn (work : AssignedWork) (D : Dispatch) : Prop :=
  ∀ reason rest, D.own = .dispatchFailed reason :: rest → work.item ∉ D.pools.jobs

private theorem own_others (hstep : DispatchStep decode proofUuid work D .others D') : D'.own = D.own := by
  cases hstep <;> rfl

private theorem withdrawn_step (h : Followed decode work D) (hwithdrawn : Withdrawn work D)
    (hspared : ∀ op, l = .own op → op.Withdraws → work.item ∉ D.pools.jobs)
    (hstep : DispatchStep decode proofUuid work D l D') : Withdrawn work D' := by
  intro reason rest hown
  cases l with
  | others =>
    have hsame := own_others hstep
    exact (absent_others hstep (hwithdrawn reason rest (hsame ▸ hown))).2
  | attempt attempt =>
    -- An attempt ends in a success, in another attempt or in giving the slot back.
    cases hstep with
    | attempt _ choice howned =>
      simp only [Dispatch.attempt, Dispatch.runOwn, Op.exec] at hown
      have hphase := howned ▸ h.phase
      cases hphase with
      | sending retries =>
        split at hown
        · simp only [goOn] at hown
          split at hown <;> simp at hown
        · split at hown <;> simp [goOn] at hown
      | closing hops => exact (hops _ List.mem_cons_self).elim
  | own op =>
    cases hstep with
    | own choice howned hop =>
      have hphase := howned ▸ h.phase
      cases hphase with
      | sending retries => exact absurd rfl (hop retries)
      | withdrawing reason' => exact hspared _ rfl trivial
      | failing reason' => exact hspared _ rfl trivial
      | closing hops =>
        have hclosing : Closes (.dispatchFailed reason) := by
          have hmem : Op.dispatchFailed reason ∈ (D.runOwn proofUuid op _ choice).own := hown ▸ List.mem_cons_self
          rcases List.mem_append.mp hmem with hnext | hrest
          · exact closes_exec (hops op List.mem_cons_self) choice _ _ hnext
          · exact hops _ (List.mem_cons_of_mem _ hrest)
        exact hclosing.elim

private theorem tolerates_iff_step (h : Followed decode work D) (hone : D.accepted ≤ 1) (hwithdrawn : Withdrawn work D)
    (hstep : DispatchStep decode proofUuid work D l D') :
    (D'.RunsOnce work ∧ ∀ op, l = .own op → op.Withdraws → work.item ∉ D.pools.jobs) ↔ D.Tolerates work l := by
  rw [runsOnce_iff (followed_step h hstep)]
  cases l with
  | others =>
    have hsame : D'.accepted = D.accepted := by cases hstep <;> rfl
    rw [hsame]
    exact iff_of_true ⟨hone, by simp⟩ ⟨by simp, by simp⟩
  | attempt attempt =>
    have hcount : D'.accepted = if D.accepts work decode attempt = true then D.accepted + 1 else D.accepted := by
      cases hstep
      rfl
    rw [hcount]
    constructor
    · intro hkept
      refine ⟨fun a ha hpos hreach => ?_, by simp⟩
      obtain rfl := DispatchLabel.attempt.inj ha
      by_contra hroom
      have haccepts := (accepts_iff attempt).mpr ⟨hreach, by simpa using hroom, h.decodes hpos⟩
      have hle := hkept.1
      rw [if_pos haccepts] at hle
      omega
    · intro htolerates
      refine ⟨?_, by simp⟩
      split
      · rename_i haccepts
        obtain ⟨hreach, hroom, -⟩ := (accepts_iff attempt).mp haccepts
        by_contra hmore
        have hfull := htolerates.attempt attempt rfl (by omega) hreach
        exact Bool.false_ne_true (hfull.symm.trans hroom)
      · exact hone
  | own op =>
    have hsame : D'.accepted = D.accepted := by
      cases hstep
      rfl
    rw [hsame]
    constructor
    · intro hkept
      refine ⟨by simp, fun workerId hop => ?_⟩
      obtain rfl := DispatchLabel.own.inj hop
      exact hkept.2 _ rfl trivial
    · intro htolerates
      refine ⟨hone, fun other hother hwithdraws => ?_⟩
      obtain rfl := DispatchLabel.own.inj hother
      cases op with
      | releaseWorker workerId => exact htolerates.release workerId rfl
      | dispatchFailed reason =>
        cases hstep with
        | own choice hown hop => exact hwithdrawn reason _ hown
      | _ => exact hwithdraws.elim

/-- A dispatch is idempotent exactly when, after an attempt the worker accepted, no further attempt
reaches the worker while a prover is free, and the worker is through with the item when the retries
are used up. -/
theorem idempotent_iff (hrun : DispatchRun decode proofUuid work trace D) :
    Idempotent work trace D ↔ ∀ E l, (E, l) ∈ trace → E.Tolerates work l := by
  suffices (Idempotent work trace D ↔ ∀ E l, (E, l) ∈ trace → E.Tolerates work l) ∧
      (Idempotent work trace D → Withdrawn work D) from this.1
  induction hrun with
  | start world pools hfresh =>
    refine ⟨iff_of_true ⟨?_, by simp⟩ (by simp), fun _ reason rest hown => ?_⟩
    · rintro E (rfl | ⟨l, hmem⟩)
      · exact fun hpos => absurd hpos (Nat.lt_irrefl 0)
      · simp at hmem
    · simp at hown
  | @step trace D D' l hrun hstep ih =>
    obtain ⟨ihiff, ihwithdrawn⟩ := ih
    have hfollowed := followed_run hrun
    have hsplit : Idempotent work ((D, l) :: trace) D' ↔ Idempotent work trace D ∧
        (D'.RunsOnce work ∧ ∀ op, l = .own op → op.Withdraws → work.item ∉ D.pools.jobs) := by
      constructor
      · intro hall
        refine ⟨⟨?_, fun E op hmem => hall.spared E op (List.mem_cons_of_mem _ hmem)⟩, hall.once D' (.inl rfl), ?_⟩
        · rintro E (rfl | ⟨l', hmem⟩)
          · exact hall.once _ (.inr ⟨l, List.mem_cons_self⟩)
          · exact hall.once E (.inr ⟨l', List.mem_cons_of_mem _ hmem⟩)
        · rintro op rfl hwithdraws
          exact hall.spared D op List.mem_cons_self hwithdraws
      · rintro ⟨hbefore, hlast, hspared⟩
        refine ⟨?_, fun E op hmem hwithdraws => ?_⟩
        · rintro E (rfl | ⟨l', hmem⟩)
          · exact hlast
          · rcases List.mem_cons.mp hmem with heq | hmem
            · obtain ⟨rfl, rfl⟩ := Prod.mk.inj heq
              exact hbefore.once _ (.inl rfl)
            · exact hbefore.once E (.inr ⟨l', hmem⟩)
        · rcases List.mem_cons.mp hmem with heq | hmem
          · obtain ⟨rfl, rfl⟩ := Prod.mk.inj heq
            exact hspared op rfl hwithdraws
          · exact hbefore.spared E op hmem hwithdraws
    have hone (hbefore : Idempotent work trace D) : D.accepted ≤ 1 :=
      (runsOnce_iff hfollowed).mp (hbefore.once D (.inl rfl))
    refine ⟨?_, fun hall => ?_⟩
    · rw [hsplit]
      constructor
      · rintro ⟨hbefore, hlast⟩ E l' hmem
        have htolerates := (tolerates_iff_step hfollowed (hone hbefore) (ihwithdrawn hbefore) hstep).mp hlast
        rcases List.mem_cons.mp hmem with heq | hmem
        · obtain ⟨rfl, rfl⟩ := Prod.mk.inj heq
          exact htolerates
        · exact ihiff.mp hbefore E l' hmem
      · intro hall
        have hbefore := ihiff.mpr fun E l' hmem => hall E l' (List.mem_cons_of_mem _ hmem)
        exact ⟨hbefore, (tolerates_iff_step hfollowed (hone hbefore) (ihwithdrawn hbefore) hstep).mpr
          (hall D l List.mem_cons_self)⟩
    · obtain ⟨hbefore, hlast, hspared⟩ := hsplit.mp hall
      exact withdrawn_step hfollowed (ihwithdrawn hbefore) hspared hstep

end

def sampleDispatchWork : AssignedWork :=
  ⟨"proof", 0, "http://worker-0", (sampleLeafItem 0).envelope, .leafProve⟩

/-- The dispatch of a leaf to a worker with that many leaf threads. -/
def sampleDispatch (maxLeafProvers : Nat) : Dispatch :=
  ⟨sampleAdmitted, [.send sampleDispatchWork 0], .new ⟨1, maxLeafProvers, 1⟩ .full, 0, 0⟩

def Attempt.unheard : Attempt := ⟨true, false, true⟩
def Attempt.heard : Attempt := ⟨true, false, false⟩

/-- One attempt, and the answer comes back. -/
theorem idempotent_sample : ∃ trace D,
    DispatchRun (fun _ => .ok ()) "proof" sampleDispatchWork trace D ∧ D.accepted = 1 ∧
      Idempotent sampleDispatchWork trace D := by
  have hstart : DispatchRun (fun _ => .ok ()) "proof" sampleDispatchWork [] (sampleDispatch 1) :=
    .start _ _ (by decide)
  have hsent := hstart.step (.attempt .heard sampleChoice rfl)
  refine ⟨_, _, hsent, by decide, (idempotent_iff hsent).mpr fun E l hmem => ?_⟩
  obtain ⟨rfl, rfl⟩ := Prod.mk.inj (List.mem_singleton.mp hmem)
  exact ⟨fun a _ hpos => absurd hpos (by decide), by simp⟩

/-- The answer to the first attempt is lost. With a second leaf thread the worker takes the item
again; with only one it is busy with the item, answers 503 until the retries are used up, and the
manager gives its slot back. -/
theorem retry_not_idempotent :
    (∃ trace D, DispatchRun (fun _ => .ok ()) "proof" sampleDispatchWork trace D ∧
      ¬ Idempotent sampleDispatchWork trace D ∧ D.pools.jobs.count sampleDispatchWork.item = 2) ∧
    ∃ trace D, DispatchRun (fun _ => .ok ()) "proof" sampleDispatchWork trace D ∧
      ¬ Idempotent sampleDispatchWork trace D ∧ D.accepted = 1 := by
  have hstart (threads : Nat) (hfresh : sampleDispatchWork.item ∉ (sampleDispatch threads).pools.jobs) :
      DispatchRun (fun _ => .ok ()) "proof" sampleDispatchWork [] (sampleDispatch threads) := .start _ _ hfresh
  constructor
  · have hfirst := (hstart 2 (by decide)).step (.attempt .unheard sampleChoice rfl)
    have hsecond := hfirst.step (.attempt .heard sampleChoice rfl)
    refine ⟨_, _, hsecond, fun hall => ?_, by decide⟩
    exact absurd (hall.once _ (.inl rfl) (by decide)) (by decide)
  · have hfirst := (hstart 1 (by decide)).step (.attempt .unheard sampleChoice rfl)
    have hjob : sampleDispatchWork.item ∈ [sampleDispatchWork.item] := List.mem_cons_self
    have hqueued := hfirst.step (.prove (.leaf (.send hjob rfl ⟨[], [], rfl, rfl⟩)))
    have hreceived := hqueued.step (.prove (.leaf (.receive rfl rfl ⟨[], [], rfl, rfl⟩)))
    have hbusy := hreceived.step (.prove (.leaf (.setBusy rfl ⟨[], [], rfl, rfl⟩)))
    have hsecond := hbusy.step (.attempt .heard sampleChoice rfl)
    have hthird := hsecond.step (.attempt .heard sampleChoice rfl)
    have hreleased := hthird.step (.own sampleChoice rfl (by simp))
    refine ⟨_, _, hreleased, fun hall => ?_, by decide⟩
    exact hall.spared _ _ List.mem_cons_self trivial (by decide)

end EdgeProver
