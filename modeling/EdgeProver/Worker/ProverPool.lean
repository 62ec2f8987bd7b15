import EdgeProver.Lib.Replace

/-! The prover threads of one kind on a worker: `submit_to_workers`, `worker_loop` and
`has_available_worker`, for jobs of any type. -/
namespace EdgeProver
open Replace

variable {J : Type}

inductive ThreadPhase (J : Type) where
  | waiting
  /-- The job is received, `is_busy` is not set yet. -/
  | received (job : J)
  | running (job : J)
  /-- `is_busy` is cleared, the result is not sent yet. -/
  | cleared (job : J)

def ThreadPhase.jobs : ThreadPhase J → List J
  | .waiting => []
  | .received job | .running job | .cleared job => [job]

structure WorkerHandle (J : Type) where
  /-- The job channel, of capacity one. -/
  channel : Option J
  isBusy : Bool
  isInitialized : Bool
  phase : ThreadPhase J

def WorkerHandle.jobs (worker : WorkerHandle J) : List J := worker.channel.toList ++ worker.phase.jobs

/-- A thread whose prover is built and that never had a job. -/
def WorkerHandle.ready : WorkerHandle J := ⟨none, false, true, .waiting⟩

structure ProverPool (J : Type) where
  /-- Jobs inside `submit_to_workers` that no channel took yet. -/
  submitting : List J
  workers : List (WorkerHandle J)
  /-- Jobs whose result reached the submitter and is not posted yet. -/
  finished : List J

namespace ProverPool

def new (count : Nat) : ProverPool J := ⟨[], List.replicate count .ready, []⟩

def hasAvailableWorker (pool : ProverPool J) : Bool :=
  pool.workers.any fun worker => !worker.isBusy && worker.isInitialized

def submit (pool : ProverPool J) (job : J) : ProverPool J := { pool with submitting := job :: pool.submitting }

def jobs (pool : ProverPool J) : List J := pool.submitting ++ (pool.workers.flatMap WorkerHandle.jobs ++ pool.finished)

end ProverPool

/-- One statement of a submitter or of a prover thread. A submitter reads `is_busy` before it sends, so
the flag it read may be stale and only a full channel holds the job back. -/
inductive PoolStep [DecidableEq J] (pool : ProverPool J) : ProverPool J → Prop
  | send {job : J} {worker : WorkerHandle J} {workers : List (WorkerHandle J)} (hjob : job ∈ pool.submitting)
      (hroom : worker.channel = none)
        (hworkers : Replaces pool.workers workers worker { worker with channel := some job }) :
      PoolStep pool { pool with submitting := pool.submitting.erase job, workers := workers }
  | receive {job : J} {worker : WorkerHandle J} {workers : List (WorkerHandle J)} (hjob : worker.channel = some job)
      (hphase : worker.phase = .waiting)
      (hworkers : Replaces pool.workers workers worker { worker with channel := none, phase := .received job }) :
      PoolStep pool { pool with workers := workers }
  | setBusy {job : J} {worker : WorkerHandle J} {workers : List (WorkerHandle J)}
      (hphase : worker.phase = .received job)
      (hworkers : Replaces pool.workers workers worker { worker with isBusy := true, phase := .running job }) :
      PoolStep pool { pool with workers := workers }
  | clearBusy {job : J} {worker : WorkerHandle J} {workers : List (WorkerHandle J)}
      (hphase : worker.phase = .running job)
      (hworkers : Replaces pool.workers workers worker { worker with isBusy := false, phase := .cleared job }) :
      PoolStep pool { pool with workers := workers }
  | sendResult {job : J} {worker : WorkerHandle J} {workers : List (WorkerHandle J)}
      (hphase : worker.phase = .cleared job)
      (hworkers : Replaces pool.workers workers worker { worker with phase := .waiting }) :
      PoolStep pool { pool with workers := workers, finished := job :: pool.finished }

/-- The flag of a thread is set only while it runs a job, and its prover is built. -/
structure WorkerHandle.Sound (worker : WorkerHandle J) : Prop where
  initialized : worker.isInitialized = true
  busy : worker.isBusy = true → ∃ job, worker.phase = .running job

namespace ProverPool

def Sound (pool : ProverPool J) : Prop := ∀ worker ∈ pool.workers, worker.Sound

theorem sound_new (count : Nat) : (new count : ProverPool J).Sound := by
  intro worker hworker
  obtain rfl := List.eq_of_mem_replicate hworker
  exact ⟨rfl, fun h => absurd h Bool.false_ne_true⟩

private theorem sound_replaces {pool : ProverPool J} (h : pool.Sound) {workers : List (WorkerHandle J)}
    {worker worker' : WorkerHandle J} (hworkers : Replaces pool.workers workers worker worker')
    (hsound : worker'.Sound) :
    ∀ w ∈ workers, w.Sound := fun w hw => by
  obtain rfl | hmem := hworkers.of_mem_right hw
  · exact hsound
  · exact h w hmem

theorem Sound.step [DecidableEq J] {pool pool' : ProverPool J} (h : pool.Sound) (hstep : PoolStep pool pool') :
    pool'.Sound := by
  cases hstep with
  | send hjob hroom hworkers =>
    have hold := h _ hworkers.mem_left
    exact sound_replaces h hworkers ⟨hold.initialized, hold.busy⟩
  | receive hjob hphase hworkers =>
    have hold := h _ hworkers.mem_left
    refine sound_replaces h hworkers ⟨hold.initialized, fun hbusy => ?_⟩
    obtain ⟨job, hrunning⟩ := hold.busy hbusy
    exact nomatch hphase.symm.trans hrunning
  | setBusy hphase hworkers =>
    exact sound_replaces h hworkers ⟨(h _ hworkers.mem_left).initialized, fun _ => ⟨_, rfl⟩⟩
  | clearBusy hphase hworkers =>
    exact sound_replaces h hworkers ⟨(h _ hworkers.mem_left).initialized, fun hbusy => absurd hbusy Bool.false_ne_true⟩
  | sendResult hphase hworkers =>
    have hold := h _ hworkers.mem_left
    refine sound_replaces h hworkers ⟨hold.initialized, fun hbusy => ?_⟩
    obtain ⟨job, hrunning⟩ := hold.busy hbusy
    exact nomatch hphase.symm.trans hrunning

theorem workers_length_step [DecidableEq J] {pool pool' : ProverPool J} (hstep : PoolStep pool pool') :
    pool'.workers.length = pool.workers.length := by
  cases hstep <;> exact Replaces.length_eq ‹_›

/-- A step neither loses a job nor makes one. -/
theorem jobs_step [DecidableEq J] {pool pool' : ProverPool J} (hstep : PoolStep pool pool') :
    pool'.jobs.Perm pool.jobs := by
  unfold jobs
  cases hstep with
  | @send job worker workers hjob hroom hworkers =>
    have hflat := hworkers.flatMap_perm WorkerHandle.jobs (a := [job]) (b := []) (by
      simp only [WorkerHandle.jobs, hroom, Option.toList_some, Option.toList_none, List.nil_append, List.append_nil]
      exact (List.perm_append_singleton job _).symm)
    rw [List.append_nil] at hflat
    have hmoved := (hflat.trans (List.perm_append_singleton job _)).append_right pool.finished
    refine (hmoved.append_left _).trans ?_
    rw [List.cons_append]
    exact List.perm_middle.trans ((List.perm_cons_erase hjob).symm.append_right _)
  | @receive job worker workers hjob hphase hworkers =>
    have hflat := hworkers.flatMap_perm WorkerHandle.jobs (a := []) (b := []) (by
      simp [WorkerHandle.jobs, hjob, hphase, ThreadPhase.jobs])
    rw [List.append_nil, List.append_nil] at hflat
    exact (hflat.append_right _).append_left _
  | @setBusy job worker workers hphase hworkers =>
    have hflat := hworkers.flatMap_perm WorkerHandle.jobs (a := []) (b := []) (by
      simp [WorkerHandle.jobs, hphase, ThreadPhase.jobs])
    rw [List.append_nil, List.append_nil] at hflat
    exact (hflat.append_right _).append_left _
  | @clearBusy job worker workers hphase hworkers =>
    have hflat := hworkers.flatMap_perm WorkerHandle.jobs (a := []) (b := []) (by
      simp [WorkerHandle.jobs, hphase, ThreadPhase.jobs])
    rw [List.append_nil, List.append_nil] at hflat
    exact (hflat.append_right _).append_left _
  | @sendResult job worker workers hphase hworkers =>
    have hflat := hworkers.flatMap_perm WorkerHandle.jobs (a := []) (b := [job]) (by
      simp [WorkerHandle.jobs, hphase, ThreadPhase.jobs])
    rw [List.append_nil] at hflat
    refine List.Perm.append_left _ ?_
    have hmoved := hflat.append_right pool.finished
    rw [List.append_assoc] at hmoved
    exact hmoved

private theorem length_le_flatMap {workers : List (WorkerHandle J)} (h : ∀ worker ∈ workers, 1 ≤ worker.jobs.length) :
    workers.length ≤ (workers.flatMap WorkerHandle.jobs).length := by
  induction workers with
  | nil => exact Nat.le_refl 0
  | cons worker workers ih =>
    have hfirst := h worker List.mem_cons_self
    have hrest := ih fun w hw => h w (List.mem_cons_of_mem _ hw)
    simp only [List.length_cons, List.flatMap_cons, List.length_append]
    omega

/-- Where every thread is busy there is a job for every thread. -/
theorem workers_le_jobs {pool : ProverPool J} (h : pool.Sound) (hbusy : pool.hasAvailableWorker = false) :
    pool.workers.length ≤ pool.jobs.length := by
  have hone : ∀ worker ∈ pool.workers, 1 ≤ worker.jobs.length := fun worker hworker => by
    have hflags := List.any_eq_false.mp hbusy worker hworker
    simp only [(h worker hworker).initialized, Bool.and_true, Bool.not_eq_true', Bool.not_eq_false] at hflags
    obtain ⟨job, hphase⟩ := (h worker hworker).busy hflags
    simp [WorkerHandle.jobs, hphase, ThreadPhase.jobs]
  have hsum := length_le_flatMap hone
  simp only [jobs, List.length_append]
  omega

/-- A job whose result is there leaves with its post. -/
theorem jobs_post [DecidableEq J] {pool : ProverPool J} {job : J} (hjob : job ∈ pool.finished) :
    pool.jobs.Perm (job :: { pool with finished := pool.finished.erase job }.jobs) := by
  unfold jobs
  rw [← List.append_assoc, ← List.append_assoc]
  exact ((List.perm_cons_erase hjob).append_left _).trans List.perm_middle

end ProverPool
end EdgeProver
