import EdgeProver.Manager.Registration
import EdgeProver.Worker.AppWorkers

/-! How a worker comes up: its configuration, its program loadout, its registration with the manager, its artifacts and
its provers; and what a worker that reports ready can then run. -/
namespace EdgeProver
open KeyedList Outcome Slot

inductive ParseProgramsError where
  | missing
  | invalidJson (e : String)
  | empty
  | duplicate (program : ProgramRef)
  deriving DecidableEq, Repr

def ParseProgramsError.display : ParseProgramsError → String
  | .missing => "EDGE_PROGRAMS is not set; expected a JSON array of \x7bname, version\x7d objects"
  | .invalidJson e => s!"EDGE_PROGRAMS is not valid JSON: {e}"
  | .empty => "EDGE_PROGRAMS must contain at least one program"
  | .duplicate program => s!"EDGE_PROGRAMS contains duplicate program {program.display}"

def trim (s : String) : String := .ofList ((s.toList.dropWhile isWhitespace).reverse.dropWhile isWhitespace).reverse

def firstDuplicate (seen : List ProgramRef) : List ProgramRef → Option ProgramRef
  | [] => none
  | program :: rest => if program ∈ seen then some program else firstDuplicate (program :: seen) rest

/-- `fromStr` is `serde_json::from_str`. -/
def parseProgramsStr (fromStr : String → Except String (List ProgramRef)) (raw : String) :
    Except ParseProgramsError (List ProgramRef) :=
  let trimmed := trim raw
  if trimmed.isEmpty then .error .missing
  else
    match fromStr trimmed with
    | .error e => .error (.invalidJson e)
    | .ok programs =>
      if programs.isEmpty then .error .empty
      else
        match firstDuplicate [] programs with
        | some program => .error (.duplicate program)
        | none => .ok programs

def parseProgramsEnv (fromStr : String → Except String (List ProgramRef)) :
    Option String → Except ParseProgramsError (List ProgramRef)
  | none => .error .missing
  | some raw => parseProgramsStr fromStr raw

def sameSet (loaded programs : List ProgramRef) : Bool := loaded.all (· ∈ programs) && programs.all (· ∈ loaded)

/-- `/register_worker`, on a manager with these programs. -/
def registerWorker (programs : List ProgramRef) (registry : EdgeWorkerRegistry) (call : Registration)
    (loadedPrograms : List ProgramRef) : Except String Nat × EdgeWorkerRegistry :=
  if sameSet loadedPrograms programs then registry.register call else (.error "program_set_mismatch", registry)

/-- The program of a proof: the one asked for, if it is in the loadout, or the only one of the loadout. -/
def resolveProgram (programs : List ProgramRef) : Option ProgramRef → Except String ProgramRef
  | some program => if program ∈ programs then .ok program else .error "program_not_in_loadout"
  | none =>
    match programs with
    | [only] => .ok only
    | _ => .error "program_required"

structure WorkerProversConfig where
  maxAppProvers : Nat
  maxLeafProvers : Nat
  maxInternalProvers : Nat
  maxRootProvers : Nat
  maxHalo2Provers : Nat
  deriving DecidableEq, Repr

structure WorkerConfig where
  workerUrl : String
  proverId : Nat
  numProvers : Nat
  workerRole : WorkerRole
  provers : WorkerProversConfig
  deriving DecidableEq, Repr

def WorkerConfig.validate (config : WorkerConfig) : Except String Unit := do
  bail (config.proverId ≥ config.numProvers)
    s!"worker.prover_id ({config.proverId}) must be < worker.num_provers ({config.numProvers})"
  match config.workerRole with
  | .full | .starkOnly => bail (config.provers.maxAppProvers == 0) "provers.max_app_provers must be > 0"
  | .evmDedicated =>
    bail (config.provers.maxRootProvers == 0 || config.provers.maxHalo2Provers == 0)
      ("EvmDedicated worker requires root + halo2 capacity: " ++
        s!"provers.max_root_provers ({config.provers.maxRootProvers}) and provers.max_halo2_provers " ++
        s!"({config.provers.maxHalo2Provers}) must both be > 0")
    bail
      (config.provers.maxAppProvers != 0 || config.provers.maxLeafProvers != 0
        || config.provers.maxInternalProvers != 0)
      ("EvmDedicated worker must set app/leaf/internal capacity to 0 " ++
        s!"(got app={config.provers.maxAppProvers}, leaf={config.provers.maxLeafProvers}, " ++
        s!"internal={config.provers.maxInternalProvers}); this role runs only root + halo2")

def WorkerConfig.registration (config : WorkerConfig) (now : Time) : Registration where
  workerUrl := config.workerUrl
  workerId := config.proverId
  proversConfig := ⟨config.provers.maxAppProvers, config.provers.maxLeafProvers, config.provers.maxInternalProvers⟩
  workerRole := config.workerRole
  now := now

/-- What is on the disk of a worker, and what it makes of a program's executable; `X` are executables. -/
structure WorkerDisk (X I : Type) where
  /-- The keys that all programs share. -/
  sharedKeys : Except String Unit
  vmexe : ProgramRef → Except String X
  /-- The halo2 key. -/
  evm : Bool
  /-- `AppExecutionInstances::new`. -/
  instances : ProgramRef → X → Except String I

structure ArtifactStore (X : Type) where
  configuredPrograms : List ProgramRef
  edgeArtifacts : Option (List (ProgramRef × X))

section
variable {X I V : Type} (disk : WorkerDisk X I)

def loadFromDisk (programs : List ProgramRef) : Except String (List (ProgramRef × X)) := do
  disk.sharedKeys
  programs.foldlM (fun map program => do
    let exe ← disk.vmexe program
    return put program exe map) []

def ArtifactStore.init (programs : List ProgramRef) : ArtifactStore X :=
  ⟨programs, (loadFromDisk disk programs).toOption⟩

namespace ArtifactStore

def vmexe (store : ArtifactStore X) (program : ProgramRef) : Option X :=
  store.edgeArtifacts.bind fun programs => programs.lookup program

def isReady (store : ArtifactStore X) : Bool :=
  match store.edgeArtifacts with
  | some programs => programs.length == store.configuredPrograms.length
  | none => false

end ArtifactStore

def appWorkerEntry (store : ArtifactStore X) (program : ProgramRef) : Except String (ProgramRef × I) :=
  match store.vmexe program with
  | none => .error s!"vmexe for {program.display} missing from artifact store"
  | some exe => (disk.instances program exe).map fun instances => (program, instances)

/-- The entries are built in parallel and collected in order. -/
def buildAppWorkerContext (store : ArtifactStore X) (buildGpuProver : ProgramRef → I → Except Raised V)
    (programs : List ProgramRef) : Except String (AppWorkerContext I V) :=
  match store.edgeArtifacts with
  | none => .error "Edge artifacts not loaded"
  | some _ => do
    let entries ← programs.mapM (appWorkerEntry disk store)
    return ⟨entries.foldl (fun map entry => put entry.1 entry.2 map) [], buildGpuProver⟩

/-- The threads of each class, by whether their prover is initialized. -/
structure ProverThreads where
  app : List Bool
  leaf : List Bool
  internal : List Bool
  root : List Bool
  halo2 : List Bool
  deriving DecidableEq, Repr

/-- The sizes of the pools that `ProverPool::new` builds; the app pool is built over an app context only. -/
def poolSizes (provers : WorkerProversConfig) (role : WorkerRole) (appCtx : Bool) : WorkerProversConfig where
  maxAppProvers := if role.runsStarkProving && appCtx then provers.maxAppProvers else 0
  maxLeafProvers := if role.runsStarkProving then provers.maxLeafProvers else 0
  maxInternalProvers := if role.runsStarkProving then provers.maxInternalProvers else 0
  maxRootProvers := if role.runsEvmProve then provers.maxRootProvers else 0
  maxHalo2Provers := if role.runsEvmProve then provers.maxHalo2Provers else 0

/-- The threads are those of pools of these sizes. -/
structure ProverThreads.Of (threads : ProverThreads) (sizes : WorkerProversConfig) : Prop where
  app : threads.app.length = sizes.maxAppProvers
  leaf : threads.leaf.length = sizes.maxLeafProvers
  internal : threads.internal.length = sizes.maxInternalProvers
  root : threads.root.length = sizes.maxRootProvers
  halo2 : threads.halo2.length = sizes.maxHalo2Provers

def ProverThreads.allProversInitialized (threads : ProverThreads) : Bool :=
  let ready (workers : List Bool) : Bool := workers.isEmpty || workers.all id
  ready threads.app && ready threads.leaf && ready threads.internal && ready threads.root && ready threads.halo2

inductive Readiness where
  | ready
  | artifactsNotLoaded
  | evmArtifactsNotLoaded
  | proversInitializing
  deriving DecidableEq, Repr

def evaluateReadiness (role : WorkerRole) (artifactsReady proversReady evmArtifactsReady : Bool) : Readiness :=
  if !artifactsReady then .artifactsNotLoaded
  else if role = .evmDedicated ∧ !evmArtifactsReady then .evmArtifactsNotLoaded
  else if !proversReady then .proversInitializing
  else .ready

structure BootedWorker (X I V : Type) where
  config : WorkerConfig
  store : ArtifactStore X
  appCtx : Option (AppWorkerContext I V)

/-- `run_server` up to its routes, with the manager's answer to the registration; a refusal stands for its `error`. -/
def runServer (config : WorkerConfig) (fromStr : String → Except String (List ProgramRef)) (env : Option String)
    (managerPrograms : List ProgramRef) (registry : EdgeWorkerRegistry) (now : Time)
    (buildGpuProver : ProgramRef → I → Except Raised V) : Except String (BootedWorker X I V) := do
  let programs ← (parseProgramsEnv fromStr env).mapError fun e => s!"Failed to parse EDGE_PROGRAMS: {e.display}"
  let workerId ← ((registerWorker managerPrograms registry (config.registration now) programs).1).mapError
    fun e => s!"Failed to register: status=400 Bad Request, body={e}"
  bail (workerId != config.proverId)
    s!"manager returned worker_id {workerId} but config prover_id is {config.proverId}"
  let store := ArtifactStore.init disk programs
  let appCtx ← (if config.workerRole.runsStarkProving then
      (buildAppWorkerContext disk store buildGpuProver programs).map some
    else .ok none : Except String (Option (AppWorkerContext I V)))
  return ⟨config, store, appCtx⟩

def BootedWorker.readyz (worker : BootedWorker X I V) (threads : ProverThreads) : Readiness :=
  evaluateReadiness worker.config.workerRole worker.store.isReady threads.allProversInitialized
    (worker.store.edgeArtifacts.isSome && disk.evm)

end

private theorem firstDuplicate_eq_none {seen programs : List ProgramRef} (h : firstDuplicate seen programs = none) :
    programs.Nodup ∧ ∀ program ∈ programs, program ∉ seen := by
  induction programs generalizing seen with
  | nil => exact ⟨List.nodup_nil, nofun⟩
  | cons program rest ih =>
    rw [firstDuplicate] at h
    split at h
    · cases h
    · next hnew =>
      obtain ⟨hnodup, hunseen⟩ := ih h
      refine ⟨List.nodup_cons.mpr ⟨fun hmem => hunseen program hmem List.mem_cons_self, hnodup⟩, ?_⟩
      intro other hother
      rcases List.mem_cons.mp hother with rfl | hother
      · exact hnew
      · exact fun hseen => hunseen other hother (List.mem_cons_of_mem _ hseen)

private theorem nodup_of_parse {fromStr : String → Except String (List ProgramRef)} {env : Option String}
    {programs : List ProgramRef} (h : parseProgramsEnv fromStr env = .ok programs) : programs.Nodup := by
  cases env with
  | none => cases h
  | some raw =>
    rw [parseProgramsEnv, parseProgramsStr] at h
    split at h
    · cases h
    · split at h
      · cases h
      · split at h
        · cases h
        · split at h
          · cases h
          · next hnone =>
            obtain rfl := Except.ok.inj h
            exact (firstDuplicate_eq_none hnone).1

private theorem mem_of_sameSet {loaded programs : List ProgramRef} (h : sameSet loaded programs = true)
    (program : ProgramRef) :
    program ∈ loaded ↔ program ∈ programs := by
  obtain ⟨hsub, hsup⟩ := Bool.and_eq_true_iff.mp h
  constructor
  · intro hmem
    exact of_decide_eq_true (List.all_eq_true.mp hsub program hmem)
  · intro hmem
    exact of_decide_eq_true (List.all_eq_true.mp hsup program hmem)

private theorem mem_of_resolve {programs : List ProgramRef} {requested : Option ProgramRef} {program : ProgramRef}
    (h : resolveProgram programs requested = .ok program) : program ∈ programs := by
  cases requested with
  | some asked =>
    rw [resolveProgram] at h
    split at h
    · next hmem => exact Except.ok.inj h ▸ hmem
    · cases h
  | none =>
    unfold resolveProgram at h
    dsimp only at h
    split at h
    · exact Except.ok.inj h ▸ List.mem_singleton_self _
    · cases h

section
variable {X I V : Type} {disk : WorkerDisk X I} {programs : List ProgramRef}

private theorem foldlM_vmexe {map loaded : List (ProgramRef × X)} (hnodup : (map.map Prod.fst ++ programs).Nodup)
    (h : programs.foldlM (fun map program => do
      let exe ← disk.vmexe program
      return put program exe map) map = Except.ok loaded) :
    loaded.map Prod.fst = map.map Prod.fst ++ programs ∧
      ∀ entry ∈ loaded, entry ∈ map ∨ disk.vmexe entry.1 = .ok entry.2 := by
  induction programs generalizing map with
  | nil =>
    obtain rfl := Except.ok.inj h
    exact ⟨(List.append_nil _).symm, fun entry hentry => .inl hentry⟩
  | cons program rest ih =>
    rw [List.foldlM_cons] at h
    obtain ⟨next, hnext, h⟩ := bind_ok_iff.mp h
    obtain ⟨exe, hexe, hput⟩ := bind_ok_iff.mp hnext
    obtain rfl := Except.ok.inj hput
    have hnew : program ∉ map.map Prod.fst := by
      intro hmem
      exact (List.nodup_append.mp hnodup).2.2 program hmem program List.mem_cons_self rfl
    rw [put_of_notMem hnew] at h
    have hkeys : (map ++ [(program, exe)]).map Prod.fst ++ rest = map.map Prod.fst ++ program :: rest := by simp
    obtain ⟨hloaded, hentries⟩ := ih (hkeys ▸ hnodup) h
    refine ⟨hloaded.trans hkeys, fun entry hentry => ?_⟩
    rcases hentries entry hentry with hmem | hvmexe
    · rcases List.mem_append.mp hmem with hmem | hmem
      · exact .inl hmem
      · obtain rfl := List.mem_singleton.mp hmem
        exact .inr hexe
    · exact .inr hvmexe

private theorem loadFromDisk_ok (hnodup : programs.Nodup) {loaded : List (ProgramRef × X)}
    (h : loadFromDisk disk programs = .ok loaded) :
    loaded.map Prod.fst = programs ∧ ∀ entry ∈ loaded, disk.vmexe entry.1 = .ok entry.2 := by
  obtain ⟨-, -, h⟩ := bind_ok_iff.mp h
  obtain ⟨hkeys, hentries⟩ := foldlM_vmexe (by simpa using hnodup) h
  exact ⟨hkeys, fun entry hentry => (hentries entry hentry).resolve_left List.not_mem_nil⟩

private theorem vmexe_init (hnodup : programs.Nodup) {program : ProgramRef} {exe : X}
    (h : (ArtifactStore.init disk programs).vmexe program = some exe) : disk.vmexe program = .ok exe := by
  obtain ⟨loaded, hloaded, hlookup⟩ := Option.bind_eq_some_iff.mp h
  cases hload : loadFromDisk disk programs with
  | error e =>
    rw [ArtifactStore.init, hload] at hloaded
    cases hloaded
  | ok map =>
    rw [ArtifactStore.init, hload] at hloaded
    obtain rfl := Option.some.inj hloaded
    obtain ⟨before, after, rfl, -⟩ := List.lookup_eq_some_iff.mp hlookup
    exact (loadFromDisk_ok hnodup hload).2 (program, exe) (List.mem_append_right _ List.mem_cons_self)

/-- The execution instances of a program are made from its own executable. -/
def WorkerDisk.Compiles (disk : WorkerDisk X I) (program : ProgramRef) (instances : I) : Prop :=
  ∃ exe, disk.vmexe program = .ok exe ∧ disk.instances program exe = .ok instances

private theorem appWorkerEntry_ok (hnodup : programs.Nodup) {program : ProgramRef} {entry : ProgramRef × I}
    (h : appWorkerEntry disk (ArtifactStore.init disk programs) program = .ok entry) :
    program = entry.1 ∧ disk.Compiles entry.1 entry.2 := by
  unfold appWorkerEntry at h
  split at h
  · cases h
  · next exe hexe =>
    obtain ⟨instances, hinstances, rfl⟩ := map_ok_iff.mp h
    exact ⟨rfl, exe, vmexe_init hnodup hexe, hinstances⟩

private theorem buildAppWorkerContext_ok (hnodup : programs.Nodup) {buildGpuProver : ProgramRef → I → Except Raised V}
    {ctx : AppWorkerContext I V}
    (h : buildAppWorkerContext disk (ArtifactStore.init disk programs) buildGpuProver programs = .ok ctx) :
    ctx.buildGpuProver = buildGpuProver ∧ ∀ program ∈ programs, ∃ instances,
      ctx.executionInstances.lookup program = some instances ∧ disk.Compiles program instances := by
  unfold buildAppWorkerContext at h
  split at h
  · cases h
  · obtain ⟨entries, hentries, h⟩ := bind_ok_iff.mp h
    obtain rfl := Except.ok.inj h
    refine ⟨rfl, fun program hmem => ?_⟩
    have hforall := (mapM_ok_iff.mp hentries).imp fun _ _ he => appWorkerEntry_ok hnodup he
    have hkey : program ∈ (entries.foldl (fun map entry => put entry.1 entry.2 map) []).map Prod.fst := by
      obtain ⟨entry, hentry, hprogram, -⟩ := exists_of_forall₂ hforall program hmem
      rw [mem_keys_foldl_put, hprogram]
      exact .inr (List.mem_map_of_mem hentry)
    obtain ⟨instances, hinstances⟩ := Option.isSome_iff_exists.mp (lookup_isSome.mpr hkey)
    obtain ⟨before, after, hmap, -⟩ := List.lookup_eq_some_iff.mp hinstances
    have hentry : (program, instances) ∈ entries := by
      refine (mem_of_mem_foldl_put ?_).resolve_left List.not_mem_nil
      exact hmap ▸ List.mem_append_right _ List.mem_cons_self
    obtain ⟨_, -, -, hcompiles⟩ := exists_of_forall₂ hforall.flip _ hentry
    exact ⟨instances, hinstances, hcompiles⟩

private theorem validateProvers_of_register {registry : EdgeWorkerRegistry} {call : Registration} {id : Nat}
    (h : (registry.register call).1 = .ok id) :
    registry.validateProvers call.proversConfig call.workerRole = .ok () := by
  unfold EdgeWorkerRegistry.register at h
  split at h
  · cases h
  · assumption

variable {config : WorkerConfig} {fromStr : String → Except String (List ProgramRef)} {env : Option String}
  {managerPrograms : List ProgramRef} {registry : EdgeWorkerRegistry} {now : Time}
  {buildGpuProver : ProgramRef → I → Except Raised V} {worker : BootedWorker X I V}

/-- A worker that serves has the manager's programs and capacities, a store of these programs, and an app context of
them if its role is to prove STARKs. -/
theorem runServer_ok
    (h : runServer disk config fromStr env managerPrograms registry now buildGpuProver = .ok worker) :
    worker.config = config ∧
    registry.validateProvers (config.registration now).proversConfig config.workerRole = .ok () ∧
    ∃ programs, programs.Nodup ∧ (∀ program, program ∈ programs ↔ program ∈ managerPrograms) ∧
      worker.store = ArtifactStore.init disk programs ∧
      if config.workerRole.runsStarkProving then
        ∃ ctx, worker.appCtx = some ctx ∧
          buildAppWorkerContext disk (ArtifactStore.init disk programs) buildGpuProver programs = .ok ctx
      else worker.appCtx = none := by
  unfold runServer at h
  obtain ⟨programs, hprograms, h⟩ := bind_ok_iff.mp h
  obtain ⟨workerId, hregister, h⟩ := bind_ok_iff.mp h
  obtain ⟨-, h⟩ := bail_bind_ok h
  obtain ⟨appCtx, hctx, h⟩ := bind_ok_iff.mp h
  obtain rfl := Except.ok.inj h
  have hnodup := nodup_of_parse (mapError_ok_iff.mp hprograms)
  have hanswer := mapError_ok_iff.mp hregister
  unfold registerWorker at hanswer
  split at hanswer
  · next hsame =>
    refine ⟨rfl, validateProvers_of_register hanswer, programs, hnodup, mem_of_sameSet hsame, rfl, ?_⟩
    split at hctx
    · next hrole =>
      obtain ⟨ctx, hbuilt, rfl⟩ := map_ok_iff.mp hctx
      exact (if_pos hrole).mpr ⟨ctx, rfl, hbuilt⟩
    · next hrole => exact (if_neg hrole).mpr (Except.ok.inj hctx).symm
  · cases hanswer

/-- A pool with a thread, and every thread has its prover. -/
def Staffed (workers : List Bool) : Prop := workers ≠ [] ∧ workers.all id = true

/-- What it takes to prove the STARKs of these programs. -/
structure BootedWorker.ServesStark (disk : WorkerDisk X I) (worker : BootedWorker X I V) (threads : ProverThreads)
    (programs : List ProgramRef) : Prop where
  app : Staffed threads.app
  leaf : Staffed threads.leaf
  internal : Staffed threads.internal
  loadout : ∃ ctx, worker.appCtx = some ctx ∧ ∀ program ∈ programs, ∃ instances,
    ctx.executionInstances.lookup program = some instances ∧ disk.Compiles program instances

/-- What the EVM step takes. -/
structure BootedWorker.ServesEvm (disk : WorkerDisk X I) (worker : BootedWorker X I V) (threads : ProverThreads) :
    Prop where
  root : Staffed threads.root
  halo2 : Staffed threads.halo2
  artifacts : worker.store.edgeArtifacts.isSome
  key : disk.evm = true

private theorem staffed_of_ready {workers : List Bool} {size : Nat} (hsize : workers.length = size) (hpos : 0 < size)
    (hready : (workers.isEmpty || workers.all id) = true) : Staffed workers := by
  have hne : workers ≠ [] := List.ne_nil_of_length_pos (hsize ▸ hpos)
  refine ⟨hne, (Bool.or_eq_true_iff.mp hready).resolve_left ?_⟩
  rwa [List.isEmpty_iff]

private theorem initialized_of_ready {threads : ProverThreads} (h : worker.readyz disk threads = .ready) :
    worker.store.isReady = true ∧ threads.allProversInitialized = true ∧
      (worker.config.workerRole = .evmDedicated → worker.store.edgeArtifacts.isSome ∧ disk.evm = true) := by
  unfold BootedWorker.readyz evaluateReadiness at h
  split at h
  · cases h
  · next hartifacts =>
    split at h
    · cases h
    · next hevm =>
      split at h
      · cases h
      · next hprovers =>
        refine ⟨by simpa using hartifacts, by simpa using hprovers, fun hrole => ?_⟩
        simpa [hrole, Option.isSome_iff_ne_none] using hevm

/-- The capacity that a STARK worker may have: the manager's, and at least one thread of each kind. -/
theorem stark_capacity {manager : ManagerConfig} (hmanager : manager.validate = .ok ())
    (hexpected : registry.expectedProvers = manager.provers) (hconfig : config.validate = .ok ())
    (hrole : config.workerRole.runsStarkProving = true)
    (h : registry.validateProvers (config.registration now).proversConfig config.workerRole = .ok ()) :
    0 < config.provers.maxAppProvers ∧ 0 < config.provers.maxLeafProvers ∧ 0 < config.provers.maxInternalProvers := by
  have hprovers : (config.registration now).proversConfig = manager.provers ∧ config.provers.maxAppProvers ≠ 0 := by
    obtain ⟨-, hconfig⟩ := bail_bind_ok hconfig
    cases hworker : config.workerRole with
    | evmDedicated => simp [hworker, WorkerRole.runsStarkProving] at hrole
    | full | starkOnly =>
      rw [hworker] at h hconfig
      simp only [EdgeWorkerRegistry.validateProvers] at h
      split at h
      · cases h
      · next hsame =>
        refine ⟨(not_not.mp hsame).trans hexpected, fun hzero => ?_⟩
        simp [bail, hzero] at hconfig
  obtain ⟨hleaf, hinternal⟩ := manager.provers_pos hmanager
  rw [← hprovers.1] at hleaf hinternal
  exact ⟨Nat.pos_of_ne_zero hprovers.2, hleaf, hinternal⟩

private theorem evm_capacity (hconfig : config.validate = .ok ()) (hrole : config.workerRole = .evmDedicated) :
    0 < config.provers.maxRootProvers ∧ 0 < config.provers.maxHalo2Provers := by
  obtain ⟨-, hconfig⟩ := bail_bind_ok hconfig
  rw [hrole] at hconfig
  obtain ⟨hcapacity, -⟩ := bail_bind_ok hconfig
  rw [Bool.or_eq_false_iff, beq_eq_false_iff_ne, beq_eq_false_iff_ne] at hcapacity
  exact ⟨Nat.pos_of_ne_zero hcapacity.1, Nat.pos_of_ne_zero hcapacity.2⟩

/-- A worker whose `/readyz` says so has what its role needs: a STARK worker threads of every kind with their provers
and every program of the manager compiled, a worker for the EVM step its root and halo2 provers and their key. -/
theorem ready_worker_serves {manager : ManagerConfig} {threads : ProverThreads} (hmanager : manager.validate = .ok ())
    (hexpected : registry.expectedProvers = manager.provers) (hconfig : config.validate = .ok ())
    (hboot : runServer disk config fromStr env managerPrograms registry now buildGpuProver = .ok worker)
    (hthreads : threads.Of (poolSizes worker.config.provers worker.config.workerRole worker.appCtx.isSome))
    (hready : worker.readyz disk threads = .ready) :
    (config.workerRole.runsStarkProving = true → worker.ServesStark disk threads managerPrograms) ∧
    (config.workerRole = .evmDedicated → worker.ServesEvm disk threads) := by
  obtain ⟨rfl, hvalid, programs, hnodup, hprograms, -, hctx⟩ := runServer_ok hboot
  obtain ⟨-, hinitialized, hevm⟩ := initialized_of_ready hready
  simp only [ProverThreads.allProversInitialized, Bool.and_eq_true] at hinitialized
  obtain ⟨⟨⟨⟨happ, hleaf⟩, hinternal⟩, hroot⟩, hhalo2⟩ := hinitialized
  constructor
  · intro hrole
    obtain ⟨ctx, hsome, hbuilt⟩ := (if_pos hrole).mp hctx
    obtain ⟨happPos, hleafPos, hinternalPos⟩ := stark_capacity hmanager hexpected hconfig hrole hvalid
    simp only [poolSizes, hrole, hsome, Option.isSome_some, Bool.and_self, if_true] at hthreads
    refine ⟨staffed_of_ready hthreads.app happPos happ, staffed_of_ready hthreads.leaf hleafPos hleaf,
      staffed_of_ready hthreads.internal hinternalPos hinternal, ctx, hsome, ?_⟩
    intro program hmem
    exact (buildAppWorkerContext_ok hnodup hbuilt).2 program ((hprograms program).mpr hmem)
  · intro hrole
    obtain ⟨hrootPos, hhalo2Pos⟩ := evm_capacity hconfig hrole
    have hruns : worker.config.workerRole.runsEvmProve = true := by rw [hrole]; rfl
    simp only [poolSizes, hruns, if_true] at hthreads
    exact ⟨staffed_of_ready hthreads.root hrootPos hroot, staffed_of_ready hthreads.halo2 hhalo2Pos hhalo2,
      (hevm hrole).1, (hevm hrole).2⟩

private def fibProgram : ProgramRef := ⟨"fib", 1⟩

private def plainDisk : WorkerDisk Nat Nat where
  sharedKeys := .ok ()
  vmexe program := .ok program.version
  evm := false
  instances _ exe := .ok (exe + 10)

private def plainConfig : WorkerConfig := ⟨"http://w0", 0, 1, .starkOnly, ⟨1, 1, 1, 0, 0⟩⟩

private def plainContext : AppWorkerContext Nat (List Nat) := ⟨[(fibProgram, 11)], fun _ instances => .ok [instances]⟩

private def plainBooted : BootedWorker Nat Nat (List Nat) :=
  ⟨plainConfig, ⟨[fibProgram], some [(fibProgram, 1)]⟩, some plainContext⟩

private theorem runServer_plain :
    runServer plainDisk plainConfig (fun _ => .ok [fibProgram]) (some "[]") [fibProgram] (.new 1 ⟨1, 1, 1⟩) 0
      plainContext.buildGpuProver = .ok plainBooted := by
  rfl

theorem ready_worker_serves_plain : plainBooted.ServesStark plainDisk ⟨[true], [true], [true], [], []⟩
    [fibProgram] := by
  have hmanager : ManagerConfig.validate ⟨⟨1⟩, .default, ⟨1, 1, 1⟩, .default⟩ = .ok () := rfl
  exact (ready_worker_serves hmanager rfl rfl runServer_plain ⟨rfl, rfl, rfl, rfl, rfl⟩ rfl).1 rfl

/-- No job that the manager's loadout admits meets a worker without its program: whatever the threads did before, it
runs on the instances of its own executable and on a prover of its own, unless that prover cannot be built. -/
theorem loadout_served {ctx : AppWorkerContext I V} {count : Nat} {pool : AppPool I V} {thread : AppWorker I V}
    {job : AppProverJob I V} {result : ProverResult} {requested : Option ProgramRef}
    (hboot : runServer disk config fromStr env managerPrograms registry now buildGpuProver = .ok worker)
    (hctx : worker.appCtx = some ctx) (hrun : Relation.ReflTransGen (AppPoolStep ctx) (.start count) pool)
    (hthread : thread ∈ pool.workers) (hjob : (job, result) ∈ thread.answered)
    (hprogram : resolveProgram managerPrograms requested = .ok job.targetProgram) :
    ∃ instances, disk.Compiles job.targetProgram instances ∧
      ((∃ prover, ctx.Serves job.targetProgram prover ∧
          result = ProverResult.handlePanicResult (job.run instances prover).1) ∨
        ∃ raised e, buildGpuProver job.targetProgram instances = .error raised ∧ result = .error e) := by
  obtain ⟨-, -, programs, hnodup, hprograms, -, hbuilt⟩ := runServer_ok hboot
  split at hbuilt
  · obtain ⟨ctx', hctx', hbuilt⟩ := hbuilt
    obtain rfl := Option.some.inj (hctx'.symm.trans hctx)
    obtain ⟨hbuild, hloadout⟩ := buildAppWorkerContext_ok hnodup hbuilt
    obtain ⟨instances, hinstances, hcompiles⟩ :=
      hloadout _ ((hprograms _).mpr (mem_of_resolve hprogram))
    have hraised : ctx'.build job.targetProgram = buildGpuProver job.targetProgram instances := by
      rw [AppWorkerContext.build, hinstances, hbuild]
    refine ⟨instances, hcompiles, ?_⟩
    have hanswered := ((AppPool.sound_of_run hrun).workers thread hthread).answered _ hjob
    dsimp only at hanswered
    cases hanswered with
    | unknown hnone => cases hnone.symm.trans hinstances
    | unbuilt hfailed => exact .inr ⟨_, _, hraised.symm.trans hfailed, rfl⟩
    | panicked hpanic => exact .inr ⟨_, _, hraised.symm.trans hpanic, rfl⟩
    | proved hown hserves =>
      obtain rfl := Option.some.inj (hown.symm.trans hinstances)
      exact .inl ⟨_, hserves, rfl⟩
  · cases hbuilt.symm.trans hctx

private def fibJob : AppProverJob Nat (List Nat) :=
  ⟨fibProgram, fun instances prover => (.ok (.success []), instances :: prover)⟩

theorem loadout_served_fib : ∃ instances, plainDisk.Compiles fibProgram instances ∧
    ((∃ prover, plainContext.Serves fibProgram prover ∧
        ProverResult.success [] = ProverResult.handlePanicResult (fibJob.run instances prover).1) ∨
      ∃ raised e, plainContext.buildGpuProver fibProgram instances = .error raised ∧
      ProverResult.success [] = .error e) := by
  have hresolved : resolveProgram [fibProgram] none = .ok fibJob.targetProgram := rfl
  have hrun := Relation.ReflTransGen.single
    (@AppPoolStep.answer _ _ plainContext (.start 1) fibJob _ _ ⟨[], [], rfl, rfl⟩)
  exact loadout_served runServer_plain rfl hrun List.mem_cons_self List.mem_cons_self hresolved

end
end EdgeProver
