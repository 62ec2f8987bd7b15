import EdgeProver.Manager.Handlers
import EdgeProver.Scheduler.Ledger

/-! What the workers owe for a proof: the shards and the items they accepted and have not reported. -/
namespace EdgeProver

inductive Report where
  | executeE2
  | segment (segment : Nat)
  /-- The shard has failed. -/
  | shard
  | item (item : EdgeWorkItem)

structure Duties where
  /-- Shards that were accepted, by worker. -/
  shards : List Nat
  /-- Workers that never got their shard. -/
  refused : List Nat
  /-- Items accepted and not reported. -/
  items : List (Nat × EdgeWorkItem)
  segments : List (Nat × Nat)
  /-- Shards reported by an Error result. -/
  failed : List Nat
  executed : Bool

namespace Duties

def start : Duties := ⟨[], [], [], [], [], false⟩

def report (D : Duties) (workerId : Nat) : Report → Duties
  | .executeE2 => { D with executed := true }
  | .segment segment => { D with segments := (workerId, segment) :: D.segments }
  | .shard => { D with failed := workerId :: D.failed }
  | .item item => { D with items := D.items.erase (workerId, item) }

/-- A worker accepts what is sent to it, and never got what could not be sent. -/
def run (D : Duties) (c : Choice) (m : Manager) : Op → Duties
  | .send work _ => if m.delivers c work then { D with items := (work.workerId, work.item) :: D.items } else D
  | .kickoff _ remaining _ =>
    match c.nextKickoff remaining with
    | none => D
    | some id => if c.sent then { D with shards := id :: D.shards } else { D with refused := id :: D.refused }
  | _ => D

/-- The shard of the worker is reported: all its segments, or its failure. -/
def ShardReported (D : Duties) (numWorkers n workerId : Nat) : Prop :=
  workerId ∈ D.failed ∨ ∀ segment ∈ shard workerId numWorkers n, (workerId, segment) ∈ D.segments

/-- The result reports something that its worker owes, in a run over `n` segments. -/
def Owes (D : Duties) (numWorkers n workerId : Nat) (result : ProofResult) : Report → Prop
  | .executeE2 => D.executed = false ∧ ∃ r, result = .executeE2 r ∧ r.state.numSegments = n
  | .segment segment => workerId ∈ D.shards ∧ workerId ∉ D.failed ∧ segment ∈ shard workerId numWorkers n ∧
      (workerId, segment) ∉ D.segments ∧ ∃ r, result = .app r ∧ r.state.segmentIdx = segment
  | .shard => workerId ∈ D.shards ∧ ¬ D.ShardReported numWorkers n workerId ∧ ∃ r, result = .error r
  | .item item => (workerId, item) ∈ D.items ∧
      (result.completedStep = some item.step ∨ ∃ r, result = .error r)

end Duties

/-- The proof with the duties of its workers. -/
structure Tracked where
  world : World
  duties : Duties

inductive DutyLabel where
  | request (task : List Op)
  | report (workerId : Nat) (envelope : MessageEnvelope ProofResult) (report : Report)
  | run (op : Op) (choice : Choice)

inductive DutyStep (proofUuid : String) (T : Tracked) : DutyLabel → Tracked → Prop
  | request (task : List Op) : DutyStep proofUuid T (.request task)
      { T with world := { T.world with tasks := task :: T.world.tasks } }
  | report (workerId : Nat) (envelope : MessageEnvelope ProofResult) (report : Report) :
      DutyStep proofUuid T (.report workerId envelope report)
        ⟨{ T.world with tasks := resultTask workerId envelope :: T.world.tasks }, T.duties.report workerId report⟩
  | run {op : Op} {choice : Choice} {W : World} (h : WorldStep proofUuid T.world (.run op choice) W) :
      DutyStep proofUuid T (.run op choice) ⟨W, T.duties.run choice T.world.state op⟩

inductive DutyRun (proofUuid : String) (allowed : Tracked → DutyLabel → Prop) (T : Tracked) : Tracked → Prop
  | refl : DutyRun proofUuid allowed T T
  | tail {U V : Tracked} {l : DutyLabel} (hrun : DutyRun proofUuid allowed T U) (hallowed : allowed U l)
      (hstep : DutyStep proofUuid U l V) : DutyRun proofUuid allowed T V

theorem DutyRun.mono {proofUuid : String} {allowed allowed' : Tracked → DutyLabel → Prop} {T U : Tracked}
    (hmono : ∀ T l, allowed T l → allowed' T l) (h : DutyRun proofUuid allowed T U) :
    DutyRun proofUuid allowed' T U := by
  induction h with
  | refl => exact .refl
  | tail _ hallowed hstep ih => exact ih.tail (hmono _ _ hallowed) hstep

/-- An invariant of the allowed steps holds along the runs. -/
theorem DutyRun.invariant {proofUuid : String} {allowed : Tracked → DutyLabel → Prop} {T U : Tracked}
    {I : Tracked → Prop}
    (hstep : ∀ T l U, I T → allowed T l → DutyStep proofUuid T l U → I U) (hstart : I T)
    (h : DutyRun proofUuid allowed T U) : I U := by
  induction h with
  | refl => exact hstart
  | tail _ hallowed hs ih => exact hstep _ _ _ ih hallowed hs

inductive DutyMove where
  | request (task : List Op)
  | report (workerId : Nat) (envelope : MessageEnvelope ProofResult) (report : Report)
  | run (index : Nat) (choice : Choice)

def Tracked.move (proofUuid : String) (T : Tracked) : DutyMove → Option (DutyLabel × Tracked)
  | .request task => some (.request task, { T with world := { T.world with tasks := task :: T.world.tasks } })
  | .report workerId envelope report => some (.report workerId envelope report,
      ⟨{ T.world with tasks := resultTask workerId envelope :: T.world.tasks }, T.duties.report workerId report⟩)
  | .run index choice =>
    match T.world.tasks[index]? with
    | some (op :: rest) =>
      let out := op.exec proofUuid choice T.world.state
      some (.run op choice, ⟨⟨out.state, out.spawned ++ T.world.tasks.set index (out.next ++ rest)⟩,
        T.duties.run choice T.world.state op⟩)
    | _ => none

def Tracked.play (proofUuid : String) (ok : Tracked → DutyLabel → Bool) (T : Tracked) : List DutyMove → Option Tracked
  | [] => some T
  | move :: moves =>
    match T.move proofUuid move with
    | some (l, U) => if ok T l then U.play proofUuid ok moves else none
    | none => none

theorem dutyStep_of_move {proofUuid : String} {T U : Tracked} {move : DutyMove} {l : DutyLabel}
    (h : T.move proofUuid move = some (l, U)) : DutyStep proofUuid T l U := by
  cases move with
  | request task =>
    obtain ⟨rfl, rfl⟩ := Prod.mk.inj (Option.some.inj h)
    exact .request task
  | report workerId envelope report =>
    obtain ⟨rfl, rfl⟩ := Prod.mk.inj (Option.some.inj h)
    exact .report workerId envelope report
  | run index choice =>
    simp only [Tracked.move] at h
    split at h
    · rename_i op rest hget
      obtain ⟨rfl, rfl⟩ := Prod.mk.inj (Option.some.inj h)
      exact .run (.run (Replace.replaces_set hget _))
    · simp at h

/-- A schedule that plays to a state with a property is a run to such a state. -/
theorem exists_dutyRun_of_play (proofUuid : String) (ok : Tracked → DutyLabel → Bool) (T : Tracked)
    (moves : List DutyMove) (P : Tracked → Bool) (h : (T.play proofUuid ok moves).any P = true) :
    ∃ U, DutyRun proofUuid (fun T l => ok T l = true) T U ∧ P U = true := by
  obtain ⟨U, hU, hP⟩ := (Option.any_eq_true _ _).mp h
  refine ⟨U, ?_, hP⟩
  suffices ∀ start, DutyRun proofUuid (fun T l => ok T l = true) start T →
      DutyRun proofUuid (fun T l => ok T l = true) start U from this T .refl
  intro start hrun
  clear h
  induction moves generalizing T with
  | nil =>
    obtain rfl := Option.some.inj hU
    exact hrun
  | cons move moves ih =>
    simp only [Tracked.play] at hU
    split at hU
    · rename_i l next hmove
      split at hU
      · rename_i hok
        exact ih next hU (hrun.tail hok (dutyStep_of_move hmove))
      · simp at hU
    · simp at hU

namespace Duties

def shardReported (D : Duties) (numWorkers n workerId : Nat) : Bool :=
  decide (workerId ∈ D.failed) || decide (∀ segment ∈ shard workerId numWorkers n, (workerId, segment) ∈ D.segments)

theorem shardReported_iff (D : Duties) (numWorkers n workerId : Nat) :
    D.shardReported numWorkers n workerId = true ↔ D.ShardReported numWorkers n workerId := by
  simp only [shardReported, Bool.or_eq_true, decide_eq_true_eq, ShardReported]

def owes (D : Duties) (numWorkers n workerId : Nat) (result : ProofResult) : Report → Bool
  | .executeE2 =>
    match result with
    | .executeE2 r => !D.executed && r.state.numSegments == n
    | _ => false
  | .segment segment =>
    match result with
    | .app r => decide (workerId ∈ D.shards) && decide (workerId ∉ D.failed) &&
        decide (segment ∈ shard workerId numWorkers n) && decide ((workerId, segment) ∉ D.segments) &&
        r.state.segmentIdx == segment
    | _ => false
  | .shard =>
    match result with
    | .error _ => decide (workerId ∈ D.shards) && !D.shardReported numWorkers n workerId
    | _ => false
  | .item item =>
    decide ((workerId, item) ∈ D.items) &&
      match result with
      | .error _ => true
      | result => result.completedStep == some item.step

theorem owes_of_bool {D : Duties} {numWorkers n workerId : Nat} {result : ProofResult} {report : Report}
    (h : D.owes numWorkers n workerId result report = true) : D.Owes numWorkers n workerId result report := by
  cases report with
  | executeE2 =>
    cases result with
    | executeE2 r =>
      simp only [owes, Bool.and_eq_true, Bool.not_eq_true', beq_iff_eq] at h
      exact ⟨h.1, r, rfl, h.2⟩
    | _ => simp [owes] at h
  | segment segment =>
    cases result with
    | app r =>
      simp only [owes, Bool.and_eq_true, decide_eq_true_eq, beq_iff_eq] at h
      exact ⟨h.1.1.1.1, h.1.1.1.2, h.1.1.2, h.1.2, r, rfl, h.2⟩
    | _ => simp [owes] at h
  | shard =>
    cases result with
    | error r =>
      simp only [owes, Bool.and_eq_true, decide_eq_true_eq, Bool.not_eq_true'] at h
      refine ⟨h.1, fun hreported => ?_, r, rfl⟩
      rw [(D.shardReported_iff numWorkers n workerId).mpr hreported] at h
      simp at h
    | _ => simp [owes] at h
  | item item =>
    simp only [owes, Bool.and_eq_true, decide_eq_true_eq] at h
    refine ⟨h.1, ?_⟩
    cases result with
    | error r => exact .inr ⟨r, rfl⟩
    | _ => exact .inl (by simpa using h.2)

end Duties
end EdgeProver
