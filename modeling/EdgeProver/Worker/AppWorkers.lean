import Mathlib.Logic.Relation
import EdgeProver.Lib.Replace
import EdgeProver.Lib.Slot
import EdgeProver.Worker.Provers

/-! The app workers of a worker: threads without a program of their own, which load the GPU prover of a job's program
and keep it until a job for another program comes. -/
namespace EdgeProver
open Replace Slot

def ProgramRef.display (program : ProgramRef) : String := s!"{program.name}@v{program.version}"

/-- What every app worker has: the execution instances of each program, and what it builds a GPU prover from; `I` are
execution instances and `V` provers. -/
structure AppWorkerContext (I V : Type) where
  executionInstances : List (ProgramRef × I)
  /-- `build_gpu_prover`, with the proving key and the program's executable. -/
  buildGpuProver : ProgramRef → I → Except Raised V

/-- A sharded app job, a parallel coordinator or a segment consumer: what it does with the prover, and how it leaves
it. -/
structure AppProverJob (I V : Type) where
  targetProgram : ProgramRef
  run : I → V → Except String ProverResult × V

structure AppJobEnd (V : Type) where
  loaded : Option (ProgramRef × V)
  /-- A prover of another program was dropped. -/
  swapped : Bool
  result : ProverResult

section
variable {I V : Type} (ctx : AppWorkerContext I V)

/-- `run_app_job`, and what the loop makes of a panic in it. -/
def runAppJob (name : String) (loaded : Option (ProgramRef × V)) (job : AppProverJob I V) : AppJobEnd V :=
  let target := job.targetProgram
  match ctx.executionInstances.lookup target with
  | none =>
    ⟨loaded, false, .error (s!"Worker {name}: program {target.display} not in execution_instances; " ++
      "manager validation should have rejected this dispatch")⟩
  | some instances =>
    let swapped := evicts loaded target
    match acquire (ctx.buildGpuProver · instances) loaded target with
    | .error (.failed e) =>
      ⟨none, swapped, .error s!"Worker {name}: failed to build GPU prover for {target.display}: {e}"⟩
    | .error (.panicked message) => ⟨none, swapped, ProverResult.handlePanicResult (.error message)⟩
    | .ok prover =>
      let (result, prover) := job.run instances prover
      ⟨some (target, prover), swapped, ProverResult.handlePanicResult result⟩

structure AppWorker (I V : Type) where
  name : String
  loaded : Option (ProgramRef × V)
  answered : List (AppProverJob I V × ProverResult)

structure AppPool (I V : Type) where
  workers : List (AppWorker I V)
  appJobsTotal : Nat
  appSwapsTotal : Nat

def AppPool.start (count : Nat) : AppPool I V :=
  ⟨(List.range count).map fun i => ⟨s!"app-prover-{i}", none, []⟩, 0, 0⟩

inductive AppPoolStep (pool : AppPool I V) : AppPool I V → Prop
  | answer (job : AppProverJob I V) {worker : AppWorker I V} {workers : List (AppWorker I V)}
      (h : Replaces pool.workers workers worker
        ⟨worker.name, (runAppJob ctx worker.name worker.loaded job).loaded,
          (job, (runAppJob ctx worker.name worker.loaded job).result) :: worker.answered⟩) :
      AppPoolStep pool
        ⟨workers, pool.appJobsTotal + 1,
          pool.appSwapsTotal + if (runAppJob ctx worker.name worker.loaded job).swapped then 1 else 0⟩

end

namespace AppWorkerContext
variable {I V : Type} (ctx : AppWorkerContext I V)

def build (program : ProgramRef) : Except Raised V :=
  match ctx.executionInstances.lookup program with
  | none => .error (.failed "no execution instances")
  | some instances => ctx.buildGpuProver program instances

/-- A job of the program leaves the prover so. -/
def Uses (program : ProgramRef) (before after : V) : Prop :=
  ∃ (job : AppProverJob I V) (instances : I), job.targetProgram = program ∧
    ctx.executionInstances.lookup program = some instances ∧ after = (job.run instances before).2

/-- A prover that was built for this program and that only jobs for this program have used since. -/
abbrev Serves (program : ProgramRef) (prover : V) : Prop := Slot.Serves ctx.build ctx.Uses program prover

end AppWorkerContext

section
variable {I V : Type} {ctx : AppWorkerContext I V}

/-- How a job is answered: by itself, on a prover of its own program, unless the program is not there or its prover
cannot be built. -/
inductive JobAnswered (ctx : AppWorkerContext I V) (name : String) (job : AppProverJob I V) : ProverResult → Prop
  | unknown (h : ctx.executionInstances.lookup job.targetProgram = none) :
      JobAnswered ctx name job
        (.error (s!"Worker {name}: program {job.targetProgram.display} not in execution_instances; " ++
        "manager validation should have rejected this dispatch"))
  | unbuilt {e : String} (h : ctx.build job.targetProgram = .error (.failed e)) :
      JobAnswered ctx name job
        (.error s!"Worker {name}: failed to build GPU prover for {job.targetProgram.display}: {e}")
  | panicked {message : String} (h : ctx.build job.targetProgram = .error (.panicked message)) :
      JobAnswered ctx name job (ProverResult.handlePanicResult (.error message))
  | proved {instances : I} {prover : V} (hinstances : ctx.executionInstances.lookup job.targetProgram = some instances)
      (h : ctx.Serves job.targetProgram prover) :
      JobAnswered ctx name job (ProverResult.handlePanicResult (job.run instances prover).1)

/-- The programs of the answered jobs, those that are there. -/
def AppWorker.history (ctx : AppWorkerContext I V) (worker : AppWorker I V) : List ProgramRef :=
  (worker.answered.map (·.1.targetProgram)).filter fun program => (ctx.executionInstances.lookup program).isSome

private theorem history_answer (worker : AppWorker I V) (loaded : Option (ProgramRef × V)) (job : AppProverJob I V)
    (result : ProverResult) : AppWorker.history ctx ⟨worker.name, loaded, (job, result) :: worker.answered⟩ =
      if (ctx.executionInstances.lookup job.targetProgram).isSome then job.targetProgram :: worker.history ctx
      else worker.history ctx :=
  List.filter_cons

structure AppWorker.Sound (ctx : AppWorkerContext I V) (worker : AppWorker I V) : Prop where
  loaded : Slot.Sound ctx.build ctx.Uses worker.loaded
  answered : ∀ entry ∈ worker.answered, JobAnswered ctx worker.name entry.1 entry.2
  follows : Slot.Follows worker.loaded (worker.history ctx)

variable {name : String} {loaded : Option (ProgramRef × V)} {job : AppProverJob I V}

/-- One job: what it is answered with, what it leaves in the slot, and whether it evicted a prover. -/
theorem runAppJob_spec (hloaded : Slot.Sound ctx.build ctx.Uses loaded) :
    JobAnswered ctx name job (runAppJob ctx name loaded job).result ∧
      Slot.Sound ctx.build ctx.Uses (runAppJob ctx name loaded job).loaded ∧
      (if (ctx.executionInstances.lookup job.targetProgram).isSome then
        (∀ program prover, (runAppJob ctx name loaded job).loaded = some (program, prover) →
          program = job.targetProgram) ∧
          (runAppJob ctx name loaded job).swapped = evicts loaded job.targetProgram
      else (runAppJob ctx name loaded job).loaded = loaded ∧ (runAppJob ctx name loaded job).swapped = false) := by
  unfold runAppJob
  dsimp only
  cases hinstances : ctx.executionInstances.lookup job.targetProgram with
  | none => exact ⟨.unknown hinstances, hloaded, rfl, rfl⟩
  | some instances =>
    have hbuild : ctx.build job.targetProgram = ctx.buildGpuProver job.targetProgram instances := by
      rw [AppWorkerContext.build, hinstances]
    have hacquire := @acquire_congr _ _ _ _ _ loaded job.targetProgram (ctx.buildGpuProver · instances) hbuild
    dsimp only
    rw [← hacquire]
    cases hprover : acquire ctx.build loaded job.targetProgram with
    | ok prover =>
      have hserves := serves_acquire hloaded hprover
      refine ⟨.proved hinstances hserves, sound_some (hserves.used ⟨job, instances, rfl, hinstances, rfl⟩), ?_, rfl⟩
      rintro program prover' ⟨⟩
      rfl
    | error raised =>
      have hfailed : ctx.build job.targetProgram = .error raised := by
        unfold acquire at hprover
        split at hprover
        · split at hprover
          · cases hprover
          · exact hprover
        · exact hprover
      cases raised with
      | failed e => exact ⟨.unbuilt hfailed, sound_none, nofun, rfl⟩
      | panicked message => exact ⟨.panicked hfailed, sound_none, nofun, rfl⟩

theorem AppWorker.Sound.answer {worker : AppWorker I V} (h : worker.Sound ctx) (job : AppProverJob I V) :
    AppWorker.Sound ctx ⟨worker.name, (runAppJob ctx worker.name worker.loaded job).loaded,
      (job, (runAppJob ctx worker.name worker.loaded job).result) :: worker.answered⟩ := by
  obtain ⟨hanswered, hloaded, hslot⟩ := @runAppJob_spec I V ctx worker.name worker.loaded job h.loaded
  refine ⟨hloaded, ?_, ?_⟩
  · rintro entry hentry
    rcases List.mem_cons.mp hentry with rfl | hentry
    · exact hanswered
    · exact h.answered entry hentry
  · intro held v hheld
    rw [history_answer]
    split at hslot
    · next hknown =>
      obtain rfl := hslot.1 held v hheld
      rw [if_pos hknown]
      rfl
    · next hunknown =>
      rw [if_neg hunknown]
      exact h.follows held v (hslot.1 ▸ hheld)

private theorem swapped_le_changes {worker : AppWorker I V} (h : worker.Sound ctx) (job : AppProverJob I V) :
    changes (worker.history ctx) + (if (runAppJob ctx worker.name worker.loaded job).swapped then 1 else 0) ≤
      changes (AppWorker.history ctx ⟨worker.name, (runAppJob ctx worker.name worker.loaded job).loaded,
        (job, (runAppJob ctx worker.name worker.loaded job).result) :: worker.answered⟩) := by
  obtain ⟨-, -, hslot⟩ := @runAppJob_spec I V ctx worker.name worker.loaded job h.loaded
  rw [history_answer]
  split at hslot
  · next hknown =>
    rw [if_pos hknown, hslot.2]
    exact evicts_le_changes h.follows
  · next hunknown =>
    rw [if_neg hunknown, hslot.2]
    exact Nat.le_refl _

structure AppPool.Sound (ctx : AppWorkerContext I V) (pool : AppPool I V) : Prop where
  workers : ∀ worker ∈ pool.workers, worker.Sound ctx
  jobs : pool.appJobsTotal = (pool.workers.map fun worker => worker.answered.length).sum
  swaps : pool.appSwapsTotal ≤ (pool.workers.map fun worker => changes (worker.history ctx)).sum

private theorem AppPool.sound_start (count : Nat) : AppPool.Sound ctx (.start count) where
  workers := by
    intro worker hworker
    obtain ⟨i, -, rfl⟩ := List.mem_map.mp hworker
    exact ⟨sound_none, fun entry hentry => absurd hentry List.not_mem_nil, fun held v h => absurd h nofun⟩
  jobs := by
    symm
    apply List.sum_eq_zero_iff_forall_eq_nat.mpr
    intro jobs hjobs
    obtain ⟨worker, hworker, rfl⟩ := List.mem_map.mp hjobs
    obtain ⟨i, -, rfl⟩ := List.mem_map.mp hworker
    rfl
  swaps := Nat.zero_le _

theorem AppPool.Sound.step {pool pool' : AppPool I V} (h : pool.Sound ctx) (hstep : AppPoolStep ctx pool pool') :
    pool'.Sound ctx := by
  cases hstep with
  | @answer job worker workers hworkers =>
    have hworker := h.workers worker hworkers.mem_left
    refine ⟨?_, ?_, ?_⟩
    · exact (hworkers.forall_iff h.workers).mpr (hworker.answer job)
    · have hsum := hworkers.sum_eq fun worker => worker.answered.length
      have hjobs := h.jobs
      simp only [List.length_cons] at hsum ⊢
      omega
    · have hsum := hworkers.sum_eq fun worker => changes (worker.history ctx)
      have hswaps := h.swaps
      have hchange := swapped_le_changes hworker job
      dsimp only at hsum ⊢
      omega

theorem AppPool.sound_of_run {count : Nat} {pool : AppPool I V}
    (h : Relation.ReflTransGen (AppPoolStep ctx) (.start count) pool) : pool.Sound ctx := by
  induction h with
  | refl => exact sound_start count
  | tail _ hstep ih => exact ih.step hstep

/-- However the jobs fall to the workers: a job runs on a prover that was built for its own program and that no job of
another program has touched, every job has its one answer, and a worker swaps no more often than its program changes. -/
theorem app_pool_isolated {count : Nat} {pool : AppPool I V}
    (h : Relation.ReflTransGen (AppPoolStep ctx) (.start count) pool) :
    (∀ worker ∈ pool.workers, (∀ entry ∈ worker.answered, JobAnswered ctx worker.name entry.1 entry.2) ∧
      ∀ program prover, worker.loaded = some (program, prover) → ctx.Serves program prover) ∧
    pool.appJobsTotal = (pool.workers.map fun worker => worker.answered.length).sum ∧
    pool.appSwapsTotal ≤ (pool.workers.map fun worker => changes (worker.history ctx)).sum := by
  have hsound := AppPool.sound_of_run h
  refine ⟨fun worker hworker => ?_, hsound.jobs, hsound.swaps⟩
  exact ⟨(hsound.workers worker hworker).answered, (hsound.workers worker hworker).loaded⟩

end

private def swapContext : AppWorkerContext Nat (List Nat) where
  executionInstances := [(⟨"fib", 1⟩, 10), (⟨"sha", 1⟩, 20)]
  buildGpuProver _ instances := .ok [instances]

private def swapJob (program : ProgramRef) : AppProverJob Nat (List Nat) :=
  ⟨program, fun instances prover => (.ok (.success []), instances :: prover)⟩

/-- The second program takes the place of the first, and a program that is not there leaves it. -/
theorem app_pool_isolated_swap : ∃ pool : AppPool Nat (List Nat),
    (∀ worker ∈ pool.workers, (∀ entry ∈ worker.answered, JobAnswered swapContext worker.name entry.1 entry.2) ∧
      ∀ program prover, worker.loaded = some (program, prover) → swapContext.Serves program prover) ∧
    pool.workers.map (·.loaded) = [some (⟨"sha", 1⟩, [20, 20])] ∧ pool.appJobsTotal = 3 ∧ pool.appSwapsTotal = 1 := by
  have hfirst := Relation.ReflTransGen.single
    (@AppPoolStep.answer _ _ swapContext (.start 1) (swapJob ⟨"fib", 1⟩) _ _ ⟨[], [], rfl, rfl⟩)
  have hswapped := hfirst.tail (.answer (swapJob ⟨"sha", 1⟩) ⟨[], [], rfl, rfl⟩)
  have hunknown := hswapped.tail (.answer (swapJob ⟨"none", 1⟩) ⟨[], [], rfl, rfl⟩)
  exact ⟨_, (app_pool_isolated hunknown).1, by decide, by decide, by decide⟩

end EdgeProver
