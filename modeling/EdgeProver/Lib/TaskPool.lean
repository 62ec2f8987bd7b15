import Mathlib.Logic.Relation
import EdgeProver.Lib.Replace

/-! Tasks that share one state. A task is the list of the atomic operations it still has to do; any
task may do its next one, and an operation may put more work before the rest of its task or start
further tasks. -/
namespace TaskPool
open Replace

variable {S O C R : Type*}

/-- What one atomic operation does; `result` is what an observer sees of it. -/
structure Outcome (S O R : Type*) where
  state : S
  next : List O
  spawned : List (List O)
  result : R

structure Pool (S O : Type*) where
  state : S
  tasks : List (List O)

/-- A task arrives from outside, or an operation runs under a choice of its environment. -/
inductive Label (C O : Type*) where
  | arrive (task : List O)
  | run (op : O) (choice : C)

inductive Step (exec : C → S → O → Outcome S O R) (p : Pool S O) : Label C O → Pool S O → Prop
  | arrive (task : List O) : Step exec p (.arrive task) { p with tasks := task :: p.tasks }
  | run {op : O} {choice : C} {rest : List O} {tasks : List (List O)}
      (h : Replaces p.tasks tasks (op :: rest) ((exec choice p.state op).next ++ rest)) :
      Step exec p (.run op choice)
        ⟨(exec choice p.state op).state, (exec choice p.state op).spawned ++ tasks⟩

/-- Runs all of whose steps are allowed where they happen. -/
inductive Run (exec : C → S → O → Outcome S O R) (allowed : Pool S O → Label C O → Prop) (p : Pool S O) :
    Pool S O → Prop
  | refl : Run exec allowed p p
  | tail {q r : Pool S O} {l : Label C O} (hrun : Run exec allowed p q) (hallowed : allowed q l)
      (hstep : Step exec q l r) : Run exec allowed p r

variable {exec : C → S → O → Outcome S O R} {allowed allowed' : Pool S O → Label C O → Prop} {p q r : Pool S O}

/-- The operations still to be done, by whichever task. -/
def Pool.ops (p : Pool S O) : List O := p.tasks.flatten

theorem ops_arrive (task : List O) : ({ p with tasks := task :: p.tasks } : Pool S O).ops = task ++ p.ops := rfl

theorem mem_ops_arrive {task : List O} {op : O} :
    op ∈ ({ p with tasks := task :: p.tasks } : Pool S O).ops ↔ op ∈ task ∨ op ∈ p.ops := List.mem_append

/-- A step takes its operation off and puts what it leads to in its place. -/
theorem ops_run {op : O} {choice : C} (h : Step exec p (.run op choice) q) :
    q.state = (exec choice p.state op).state ∧ ∃ others, p.ops.Perm (op :: others) ∧
      q.ops.Perm ((exec choice p.state op).next ++ (exec choice p.state op).spawned.flatten ++ others) := by
  cases h with
  | @run _ _ rest tasks h =>
    obtain ⟨before, after, hold, hnew⟩ := h
    refine ⟨rfl, before.flatten ++ (rest ++ after.flatten), ?_, ?_⟩
    · simp only [Pool.ops, hold, List.flatten_append, List.flatten_cons, List.cons_append]
      exact List.perm_middle
    · simp only [Pool.ops, hnew, List.flatten_append, List.flatten_cons, List.append_assoc]
      exact (List.perm_append_comm_assoc _ _ _ |>.append_left _).trans (List.perm_append_comm_assoc _ _ _)

/-- The task that steps goes on with what its operation put first; every other task was there or is started. -/
theorem tasks_run {op : O} {choice : C} (h : Step exec p (.run op choice) q) :
    ∃ rest, op :: rest ∈ p.tasks ∧ (exec choice p.state op).next ++ rest ∈ q.tasks ∧
      ∀ task ∈ q.tasks, task = (exec choice p.state op).next ++ rest ∨ task ∈ (exec choice p.state op).spawned ∨
        task ∈ p.tasks := by
  cases h with
  | @run _ _ rest tasks h =>
    refine ⟨rest, h.mem_left, List.mem_append_right _ h.mem_right, fun task htask => ?_⟩
    rcases List.mem_append.mp htask with hspawned | htask
    · exact .inr (.inl hspawned)
    · exact (h.of_mem_right htask).imp_right .inr

theorem op_mem {op : O} {choice : C} (h : Step exec p (.run op choice) q) : op ∈ p.ops := by
  obtain ⟨-, others, hops, -⟩ := ops_run h
  exact hops.mem_iff.mpr List.mem_cons_self

/-- What an operation puts next is still to be done after it. -/
theorem next_mem {op next : O} {choice : C} (h : Step exec p (.run op choice) q)
    (hnext : next ∈ (exec choice p.state op).next) : next ∈ q.ops := by
  obtain ⟨-, others, -, hnew⟩ := ops_run h
  exact hnew.mem_iff.mpr (List.mem_append_left _ (List.mem_append_left _ hnext))

/-- An operation stays to be done until it is run. -/
theorem ops_step {op : O} {l : Label C O} (hop : op ∈ p.ops) (h : Step exec p l q) :
    op ∈ q.ops ∨ ∃ choice, l = .run op choice := by
  cases l with
  | arrive task =>
    cases h
    exact .inl (mem_ops_arrive.mpr (.inr hop))
  | run last choice =>
    obtain ⟨-, others, hold, hnew⟩ := ops_run h
    rcases List.mem_cons.mp (hold.mem_iff.mp hop) with rfl | hothers
    · exact .inr ⟨choice, rfl⟩
    · exact .inl (hnew.mem_iff.mpr (List.mem_append_right _ hothers))

theorem Run.mono (hmono : ∀ p l, allowed p l → allowed' p l) (h : Run exec allowed p q) : Run exec allowed' p q := by
  induction h with
  | refl => exact .refl
  | tail _ hallowed hstep ih => exact ih.tail (hmono _ _ hallowed) hstep

/-- An invariant of the allowed steps holds along the runs. -/
theorem Run.invariant {I : Pool S O → Prop}
    (hstep : ∀ q l r, I q → allowed q l → Step exec q l r → I r) (hp : I p) (h : Run exec allowed p q) : I q := by
  induction h with
  | refl => exact hp
  | tail _ hallowed hs ih => exact hstep _ _ _ ih hallowed hs

/-- What holds of every operation that arrives, and of every operation that one brings, holds of every
operation of the pool. -/
theorem forall_ops_step {P : O → Prop} {l : Label C O} (harrive : ∀ task, l = .arrive task → ∀ op ∈ task, P op)
    (hexec : ∀ op choice, l = .run op choice → P op →
      ∀ op' ∈ (exec choice q.state op).next ++ (exec choice q.state op).spawned.flatten, P op')
    (hq : ∀ op ∈ q.ops, P op) (hs : Step exec q l r) : ∀ op ∈ r.ops, P op := by
  cases l with
  | arrive task =>
    cases hs
    intro op hop
    rcases List.mem_append.mp (ops_arrive task ▸ hop) with hop | hop
    · exact harrive task rfl op hop
    · exact hq op hop
  | run op choice =>
    obtain ⟨-, others, hold, hnew⟩ := ops_run hs
    intro op' hop'
    rcases List.mem_append.mp (hnew.mem_iff.mp hop') with hop' | hop'
    · exact hexec op choice rfl (hq op (op_mem hs)) op' hop'
    · exact hq op' (hold.mem_iff.mpr (List.mem_cons_of_mem _ hop'))

/-- Runs with the pools they went through and what was done there, the latest first. -/
inductive Trace (exec : C → S → O → Outcome S O R) (allowed : Pool S O → Label C O → Prop) (p : Pool S O) :
    List (Pool S O × Label C O) → Pool S O → Prop
  | refl : Trace exec allowed p [] p
  | tail {trace : List (Pool S O × Label C O)} {q r : Pool S O} {l : Label C O} (htrace : Trace exec allowed p trace q)
      (hallowed : allowed q l) (hstep : Step exec q l r) : Trace exec allowed p ((q, l) :: trace) r

theorem Trace.mono (hmono : ∀ p l, allowed p l → allowed' p l) {trace : List (Pool S O × Label C O)}
    (h : Trace exec allowed p trace q) : Trace exec allowed' p trace q := by
  induction h with
  | refl => exact .refl
  | tail _ hallowed hstep ih => exact ih.tail (hmono _ _ hallowed) hstep

/-- What was done at a pool of the trace was done after a trace to that pool. -/
theorem Trace.before {trace recent older : List (Pool S O × Label C O)} {l : Label C O}
    (h : Trace exec allowed p trace r)
    (hsplit : trace = recent ++ (q, l) :: older) : Trace exec allowed p older q := by
  induction h generalizing recent with
  | refl => simp at hsplit
  | tail htrace hallowed hstep ih =>
    cases recent with
    | nil =>
      obtain ⟨heq, rfl⟩ := List.cons.inj hsplit
      obtain ⟨rfl, rfl⟩ := Prod.mk.inj heq
      exact htrace
    | cons last recent => exact ih (List.cons.inj hsplit).2

/-- What a trace lists was allowed, and done. -/
theorem Trace.step_of_mem {trace : List (Pool S O × Label C O)} {l : Label C O} (h : Trace exec allowed p trace r)
    (hmem : (q, l) ∈ trace) : allowed q l ∧ ∃ next, Step exec q l next := by
  induction h with
  | refl => simp at hmem
  | tail htrace hallowed hstep ih =>
    rcases List.mem_cons.mp hmem with heq | hmem
    · obtain ⟨rfl, rfl⟩ := Prod.mk.inj heq
      exact ⟨hallowed, _, hstep⟩
    · exact ih hmem

/-- What holds of the start and is carried over every step holds all along the trace. -/
theorem Trace.invariant {I : List (Pool S O × Label C O) → Pool S O → Prop} (hstart : I [] p)
    (hstep : ∀ trace q l r, I trace q → allowed q l → Step exec q l r → I ((q, l) :: trace) r)
    {trace : List (Pool S O × Label C O)} (h : Trace exec allowed p trace q) : I trace q := by
  induction h with
  | refl => exact hstart
  | tail _ hallowed hs ih => exact hstep _ _ _ _ ih hallowed hs

/-- One entry of a schedule: a task arrives, or the task at an index does its next operation. -/
inductive Move (C O : Type*) where
  | arrive (task : List O)
  | run (index : Nat) (choice : C)

/-- The label and the pool that a move leads to, where the task at its index has an operation left. -/
def Pool.move (exec : C → S → O → Outcome S O R) (p : Pool S O) : Move C O → Option (Label C O × Pool S O)
  | .arrive task => some (.arrive task, { p with tasks := task :: p.tasks })
  | .run index choice =>
    match p.tasks[index]? with
    | some (op :: rest) =>
      let out := exec choice p.state op
      some (.run op choice, ⟨out.state, out.spawned ++ p.tasks.set index (out.next ++ rest)⟩)
    | _ => none

/-- Play a schedule as long as its moves are possible and `ok`. -/
def Pool.play (exec : C → S → O → Outcome S O R) (ok : Pool S O → Label C O → Bool) (p : Pool S O) :
    List (Move C O) → Option (Pool S O)
  | [] => some p
  | move :: moves =>
    match p.move exec move with
    | some (l, q) => if ok p l then q.play exec ok moves else none
    | none => none

theorem step_of_move {move : Move C O} {l : Label C O} (h : p.move exec move = some (l, q)) : Step exec p l q := by
  cases move with
  | arrive task =>
    obtain ⟨rfl, rfl⟩ := Prod.mk.inj (Option.some.inj h)
    exact .arrive task
  | run index choice =>
    simp only [Pool.move] at h
    split at h
    · rename_i op rest hget
      obtain ⟨rfl, rfl⟩ := Prod.mk.inj (Option.some.inj h)
      exact .run (replaces_set hget _)
    · simp at h

/-- A schedule that plays to its end is a run. -/
theorem run_of_play {ok : Pool S O → Label C O → Bool} {moves : List (Move C O)} (h : p.play exec ok moves = some q) :
    Run exec (fun p l => ok p l = true) p q := by
  suffices ∀ start, Run exec (fun p l => ok p l = true) start p → Run exec (fun p l => ok p l = true) start q from
    this p .refl
  intro start hrun
  induction moves generalizing p with
  | nil =>
    obtain rfl := Option.some.inj h
    exact hrun
  | cons move moves ih =>
    simp only [Pool.play] at h
    split at h
    · rename_i l r hmove
      split at h
      · rename_i hok
        exact ih h (hrun.tail hok (step_of_move hmove))
      · simp at h
    · simp at h

/-- Play a schedule as long as its moves are possible and `ok`, and put what was done before `trace`. -/
def Pool.record (exec : C → S → O → Outcome S O R) (ok : Pool S O → Label C O → Bool) (p : Pool S O)
    (trace : List (Pool S O × Label C O)) : List (Move C O) → Option (List (Pool S O × Label C O) × Pool S O)
  | [] => some (trace, p)
  | move :: moves =>
    match p.move exec move with
    | some (l, q) => if ok p l then q.record exec ok ((p, l) :: trace) moves else none
    | none => none

private theorem trace_of_record {ok : Pool S O → Label C O → Bool} {start : Pool S O}
    {before trace : List (Pool S O × Label C O)}
    {moves : List (Move C O)} (hbefore : Trace exec (fun p l => ok p l = true) start before p)
    (h : p.record exec ok before moves = some (trace, q)) : Trace exec (fun p l => ok p l = true) start trace q := by
  induction moves generalizing p before with
  | nil =>
    obtain ⟨rfl, rfl⟩ := Prod.mk.inj (Option.some.inj h)
    exact hbefore
  | cons move moves ih =>
    simp only [Pool.record] at h
    split at h
    · rename_i l r hmove
      split at h
      · rename_i hok
        exact ih (hbefore.tail hok (step_of_move hmove)) h
      · simp at h
    · simp at h

/-- A schedule that plays with a property is a trace with it. -/
theorem exists_trace_of_record (exec : C → S → O → Outcome S O R) (ok : Pool S O → Label C O → Bool) (p : Pool S O)
    (moves : List (Move C O)) (P : List (Pool S O × Label C O) × Pool S O → Bool)
    (h : (p.record exec ok [] moves).any P = true) :
    ∃ trace q, Trace exec (fun p l => ok p l = true) p trace q ∧ P (trace, q) = true := by
  obtain ⟨⟨trace, q⟩, hrecord, hP⟩ := (Option.any_eq_true _ _).mp h
  exact ⟨trace, q, trace_of_record .refl hrecord, hP⟩

/-- A schedule that plays to a step of a kind, and from there to a pool with a property. -/
theorem exists_step_of_play (exec : C → S → O → Outcome S O R) (ok ok' : Pool S O → Label C O → Bool) (p : Pool S O)
    (before : List (Move C O)) (move : Move C O) (after : List (Move C O)) (kind : Label C O → Bool)
    (P : Pool S O → Bool)
    (h : ((p.play exec ok before).any fun q => (q.move exec move).any fun step => kind step.1 &&
      (step.2.play exec ok' after).any P) = true) :
    ∃ q l r last, Run exec (fun p l => ok p l = true) p q ∧ Step exec q l r ∧ kind l = true ∧
      Run exec (fun p l => ok' p l = true) r last ∧ P last = true := by
  obtain ⟨q, hq, h⟩ := (Option.any_eq_true _ _).mp h
  obtain ⟨⟨l, r⟩, hmove, h⟩ := (Option.any_eq_true _ _).mp h
  obtain ⟨hkind, h⟩ := (Bool.and_eq_true _ _).mp h
  obtain ⟨last, hlast, hP⟩ := (Option.any_eq_true _ _).mp h
  exact ⟨q, l, r, last, run_of_play hq, step_of_move hmove, hkind, run_of_play hlast, hP⟩

/-- A schedule that plays to a pool with a property is a run to such a pool. -/
theorem exists_run_of_play (exec : C → S → O → Outcome S O R) (ok : Pool S O → Label C O → Bool) (p : Pool S O)
    (moves : List (Move C O)) (P : Pool S O → Bool) (h : (p.play exec ok moves).any P = true) :
    ∃ q, Run exec (fun p l => ok p l = true) p q ∧ P q = true := by
  obtain ⟨q, hq, hP⟩ := (Option.any_eq_true _ _).mp h
  exact ⟨q, run_of_play hq, hP⟩

end TaskPool
