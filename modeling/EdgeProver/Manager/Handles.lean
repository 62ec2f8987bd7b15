import EdgeProver.Manager.Sealed

/-! The calls of the scheduler store in the two steps they take: the entry is fetched from the map, and
then it is locked and changed. In between `remove_proof` may take it out of the map. -/
namespace EdgeProver

/-- `manager.scheduler` is the entry, which a call that fetched it still locks after `remove_proof`. -/
structure HeldManager where
  manager : Manager
  removed : Bool

/-- What a lookup in the map finds. -/
def HeldManager.visible (h : HeldManager) : Manager :=
  { h.manager with scheduler := if h.removed then none else h.manager.scheduler }

inductive HeldOp where
  | step (op : Op)
  /-- A call that has fetched the entry and waits for its lock. -/
  | locked (op : Op)

/-- The calls that clone the entry's `Arc` out of the map and then await its lock. -/
def Op.fetches : Op → Bool
  | .setNumSegments _ | .workerCompleted .. | .workerDrained .. | .enqueue _ | .releaseWorker _ | .checkDrained _ =>
    true
  | _ => false

abbrev HeldOutcome := TaskPool.Outcome HeldManager HeldOp Handed

/-- What a step leads to, with no entry fetched yet. -/
def OpOutcome.held (out : OpOutcome) (h : HeldManager) : HeldOutcome :=
  ⟨h, out.next.map .step, out.spawned.map (·.map .step), out.result⟩

def HeldOp.exec (proofUuid : String) (c : Choice) (h : HeldManager) : HeldOp → HeldOutcome
  | .locked op =>
    let out := op.exec proofUuid c h.manager
    OpOutcome.held out { h with manager := out.state }
  | .step .removeProof => ⟨{ h with removed := true }, [], [], ⟨[], []⟩⟩
  | .step op =>
    if op.fetches && h.visible.scheduler.isSome then ⟨h, [.locked op], [], ⟨[], []⟩⟩
    else
      let out := op.exec proofUuid c h.visible
      -- only a locked call writes the entry
      OpOutcome.held out { h with manager := { out.state with scheduler := h.manager.scheduler } }

abbrev HeldWorld := TaskPool.Pool HeldManager HeldOp
abbrev HeldLabel := TaskPool.Label Choice HeldOp
abbrev HeldRun (proofUuid : String) := TaskPool.Run (HeldOp.exec proofUuid)

/-- Every interleaving of the requests with what they set going, one fetch or lock at a time. -/
def HeldRequests (_ : HeldWorld) : HeldLabel → Prop
  | .arrive task => ∃ request, isRequest request = true ∧ task = request.map .step
  | .run _ _ => True

def HeldOp.op : HeldOp → Op
  | .step op | .locked op => op

/-- The manager that the operation works on. -/
def HeldOp.sees (h : HeldManager) : HeldOp → Manager
  | .step _ => h.visible
  | .locked _ => h.manager

def HeldOp.isLocked : HeldOp → Bool
  | .step _ => false
  | .locked _ => true

/-- The world in which every call is one step. -/
def HeldWorld.atomic (V : HeldWorld) : World := ⟨V.state.visible, V.tasks.map (·.map HeldOp.op)⟩

/-- The same world, with no entry fetched. -/
def World.held (W : World) : HeldWorld := ⟨⟨W.state, false⟩, W.tasks.map (·.map .step)⟩

/-- The entry is removed only while no call has it fetched. -/
def Unheld (V : HeldWorld) : HeldLabel → Prop
  | .run (.step .removeProof) _ => ∀ x ∈ V.ops, x.isLocked = false
  | l => HeldRequests V l

section
variable {proofUuid : String} {c : Choice} {h : HeldManager} {op : Op} {x : HeldOp} {V V' : HeldWorld}

theorem HeldManager.visible_of_not_removed (hkept : h.removed = false) : h.visible = h.manager := by
  rw [visible, hkept, if_neg Bool.false_ne_true]

private theorem not_removed_of_isSome (hsome : h.visible.scheduler.isSome = true) : h.removed = false := by
  rw [HeldManager.visible] at hsome
  split at hsome
  · simp at hsome
  · rename_i hkept
    exact Bool.eq_false_iff.mpr hkept

private theorem visible_restored {m : Manager} (hm : m.scheduler = h.visible.scheduler) :
    HeldManager.visible { h with manager := { m with scheduler := h.manager.scheduler } } = m := by
  cases m
  simp only [HeldManager.visible] at hm ⊢
  rw [hm]

private theorem scheduler_exec_of_not_fetched (hremove : op ≠ .removeProof)
    (hop : (op.fetches && h.visible.scheduler.isSome) = false) :
    (op.exec proofUuid c h.visible).state.scheduler = h.visible.scheduler := by
  rcases Bool.and_eq_false_iff.mp hop with hfetch | hnone
  · refine scheduler_exec ?_
    cases op with
    | removeProof => exact absurd rfl hremove
    | setNumSegments | workerCompleted | workerDrained | enqueue | releaseWorker => simp [Op.fetches] at hfetch
    | _ => rfl
  · rw [Option.isSome_eq_false_iff, Option.isNone_iff_eq_none] at hnone
    rw [scheduler_of_none hnone, hnone]

/-- A call fetches the entry, or the operation does on the manager it sees what it does in one step. -/
theorem HeldOp.exec_cases (proofUuid : String) (c : Choice) (h : HeldManager) (x : HeldOp) :
    (∃ op, x = .step op ∧ h.removed = false ∧
      x.exec proofUuid c h = ⟨h, [.locked op], [], ⟨[], []⟩⟩) ∨
    (∃ op h', x = .step op ∧ x.exec proofUuid c h = OpOutcome.held (op.exec proofUuid c h.visible) h' ∧
      h'.visible = (op.exec proofUuid c h.visible).state ∧ h'.manager.scheduler = h.manager.scheduler ∧
      (op = .removeProof ∨ h'.removed = h.removed)) ∨
    ∃ op, x = .locked op ∧ x.exec proofUuid c h = OpOutcome.held (op.exec proofUuid c h.manager)
      { h with manager := (op.exec proofUuid c h.manager).state } := by
  cases x with
  | locked op => exact .inr (.inr ⟨op, rfl, rfl⟩)
  | step op =>
    by_cases hremove : op = .removeProof
    · subst hremove
      exact .inr (.inl ⟨.removeProof, { h with removed := true }, rfl, rfl, rfl, rfl, .inl rfl⟩)
    · have hexec : HeldOp.exec proofUuid c h (.step op) =
          if op.fetches && h.visible.scheduler.isSome then ⟨h, [.locked op], [], ⟨[], []⟩⟩
          else OpOutcome.held (op.exec proofUuid c h.visible)
            { h with manager := { (op.exec proofUuid c h.visible).state with scheduler := h.manager.scheduler } } := by
        cases op <;> first | rfl | exact absurd rfl hremove
      rw [hexec]
      split
      · rename_i hfetch
        obtain ⟨-, hsome⟩ := (Bool.and_eq_true _ _).mp hfetch
        exact .inl ⟨op, rfl, not_removed_of_isSome hsome, rfl⟩
      · rename_i hfetch
        have hsame : (op.exec proofUuid c h.visible).state.scheduler = h.visible.scheduler :=
          scheduler_exec_of_not_fetched hremove (Bool.eq_false_iff.mpr hfetch)
        exact .inr (.inl ⟨op, _, rfl, rfl, visible_restored hsame, rfl, .inr rfl⟩)

private theorem map_op_step (ops : List Op) : (ops.map HeldOp.step).map HeldOp.op = ops := by
  rw [List.map_map, show HeldOp.op ∘ HeldOp.step = id from rfl, List.map_id]

private theorem map_op_steps (tasks : List (List Op)) :
    (tasks.map (·.map HeldOp.step)).map (·.map HeldOp.op) = tasks := by
  induction tasks with
  | nil => rfl
  | cons task tasks ih => rw [List.map_cons, List.map_cons, map_op_step, ih]

private theorem not_locked_steps {ops : List Op} : ∀ x ∈ ops.map HeldOp.step, x.isLocked = false := by
  intro x hx
  obtain ⟨op, -, rfl⟩ := List.mem_map.mp hx
  rfl

/-- What holds of everything that steps of one call, it does on the atomic world in one step. -/
private theorem atomic_step {tasks tasks' : List (List HeldOp)} {rest : List HeldOp} {m : Manager}
    (hreplaces : Replace.Replaces tasks tasks' (x :: rest)
      ((OpOutcome.held (x.op.exec proofUuid c m) h).next ++ rest))
    (hvisible : h.visible = (x.op.exec proofUuid c m).state) :
    WorldStep proofUuid ⟨m, tasks.map (·.map HeldOp.op)⟩ (.run x.op c)
      (HeldWorld.atomic ⟨h, (OpOutcome.held (x.op.exec proofUuid c m) h).spawned ++ tasks'⟩) := by
  have hmap := hreplaces.map (·.map HeldOp.op)
  simp only [OpOutcome.held, List.map_append, List.map_cons, map_op_step] at hmap
  have hstep : WorldStep proofUuid ⟨m, tasks.map (·.map HeldOp.op)⟩ (.run x.op c) _ := .run hmap
  simpa only [HeldWorld.atomic, OpOutcome.held, List.map_append, map_op_steps, hvisible] using hstep

/-- No call has an entry fetched that is out of the map. -/
private def Unlocked (V : HeldWorld) : Prop := V.state.removed = true → ∀ x ∈ V.ops, x.isLocked = false

private theorem unlocked_step {l : HeldLabel} (hV : Unlocked V) (hallowed : Unheld V l)
    (hstep : TaskPool.Step (HeldOp.exec proofUuid) V l V') : Unlocked V' := by
  cases l with
  | arrive task =>
    cases hstep
    obtain ⟨request, -, rfl⟩ := hallowed
    intro hremoved x hx
    rcases List.mem_append.mp (TaskPool.ops_arrive (request.map HeldOp.step) ▸ hx) with hx | hx
    · exact not_locked_steps x hx
    · exact hV hremoved x hx
  | run x c =>
    obtain ⟨hstate, others, hold, hnew⟩ := TaskPool.ops_run hstep
    obtain ⟨op, rfl, hkept, hexec⟩ | ⟨op, h', rfl, hexec, -, -, hremoved⟩ | ⟨op, rfl, hexec⟩ :=
      HeldOp.exec_cases proofUuid c V.state x
    · rw [hexec] at hstate
      intro hremoved
      simp [hstate, hkept] at hremoved
    · rw [hexec] at hstate hnew
      intro hremoved' y hy
      have hothers : ∀ z ∈ V.ops, z.isLocked = false := by
        rcases hremoved with rfl | hsame
        · exact hallowed
        · exact hV (by rw [← hsame, ← hremoved', hstate, OpOutcome.held])
      rcases List.mem_append.mp (hnew.mem_iff.mp hy) with hy | hy
      · simp only [OpOutcome.held, ← List.map_flatten, ← List.map_append] at hy
        exact not_locked_steps y hy
      · exact hothers y (hold.mem_iff.mpr (List.mem_cons_of_mem _ hy))
    · intro hremoved
      have hlocked := hV (by rwa [hstate, hexec, OpOutcome.held] at hremoved) (.locked op) (TaskPool.op_mem hstep)
      simp [HeldOp.isLocked] at hlocked

private theorem fetch_and_lock {tasks : List (List HeldOp)} {rest : List HeldOp}
    (hexec : (HeldOp.step op).exec proofUuid c V.state = ⟨V.state, [.locked op], [], ⟨[], []⟩⟩)
    (hreplaces : Replace.Replaces V.tasks tasks (.step op :: rest)
      (((HeldOp.locked op).exec proofUuid c V.state).next ++ rest)) :
    ∃ V₁ : HeldWorld, TaskPool.Step (HeldOp.exec proofUuid) V (.run (.step op) c) V₁ ∧
      TaskPool.Step (HeldOp.exec proofUuid) V₁ (.run (.locked op) c)
        ⟨((HeldOp.locked op).exec proofUuid c V.state).state,
          ((HeldOp.locked op).exec proofUuid c V.state).spawned ++ tasks⟩ := by
  obtain ⟨before, after, hold, hnew⟩ := hreplaces
  refine ⟨⟨V.state, before ++ (.locked op :: rest) :: after⟩, ?_, .run ⟨before, after, rfl, hnew⟩⟩
  have hfetch : TaskPool.Step (HeldOp.exec proofUuid) V (.run (.step op) c) _ := .run ⟨before, after, hold, rfl⟩
  simpa only [hexec, List.nil_append, List.cons_append] using hfetch

end

/-- As long as the entry is removed only while no call has it fetched, the calls may be taken for one step. -/
theorem worldRun_of_unheld {proofUuid : String} {V V' : HeldWorld} (hkept : V.state.removed = false)
    (hrun : TaskPool.Run (HeldOp.exec proofUuid) Unheld V V') :
    WorldRun proofUuid Requests V.atomic V'.atomic := by
  suffices Unlocked V' ∧ WorldRun proofUuid Requests V.atomic V'.atomic from this.2
  induction hrun with
  | refl => exact ⟨fun hremoved => by simp [hkept] at hremoved, .refl⟩
  | @tail U U' l _ hallowed hstep ih =>
    obtain ⟨hunlocked, ih⟩ := ih
    refine ⟨unlocked_step hunlocked hallowed hstep, ?_⟩
    cases hstep with
    | arrive task =>
      obtain ⟨request, hrequest, rfl⟩ := hallowed
      have harrive := ih.tail (l := .arrive request) hrequest (.arrive request)
      simpa only [HeldWorld.atomic, List.map_cons, map_op_step] using harrive
    | @run x c rest tasks hreplaces =>
      obtain ⟨op, rfl, -, hexec⟩ | ⟨op, h', rfl, hexec, hvisible, -, -⟩ | ⟨op, rfl, hexec⟩ :=
        HeldOp.exec_cases proofUuid c U.state x
      · rw [hexec] at hreplaces ⊢
        have hsame : HeldWorld.atomic ⟨U.state, [] ++ tasks⟩ = HeldWorld.atomic U :=
          congrArg (TaskPool.Pool.mk _) (hreplaces.map_eq (·.map HeldOp.op) rfl)
        rwa [hsame]
      · rw [hexec] at hreplaces ⊢
        exact ih.tail (l := .run op c) trivial (atomic_step (x := .step op) hreplaces hvisible)
      · have hkept : U.state.removed = false := by
          by_contra hremoved
          have hlocked := hunlocked (by simpa using hremoved) (.locked op)
            (List.mem_flatten.mpr ⟨_, hreplaces.mem_left, List.mem_cons_self⟩)
          simp [HeldOp.isLocked] at hlocked
        rw [hexec] at hreplaces ⊢
        have hatomic := atomic_step (x := .locked op) (h := { U.state with manager := _ }) hreplaces
          (HeldManager.visible_of_not_removed hkept)
        have hseen : HeldWorld.atomic U = ⟨U.state.manager, U.tasks.map (·.map HeldOp.op)⟩ := by
          rw [HeldWorld.atomic, HeldManager.visible_of_not_removed hkept]
        rw [hseen] at ih
        exact ih.tail (l := .run op c) trivial hatomic

/-- What happens in one step per call happens when each call locks the entry as soon as it has fetched it. -/
theorem heldRun_of_worldRun {proofUuid : String} {W W' : World} (hrun : WorldRun proofUuid Requests W W') :
    ∃ V' : HeldWorld, HeldRun proofUuid HeldRequests W.held V' ∧ V'.state.visible = W'.state ∧
      V'.tasks = W'.tasks.map (·.map .step) := by
  induction hrun with
  | refl => exact ⟨W.held, .refl, rfl, rfl⟩
  | @tail U U' l _ hallowed hstep ih =>
    obtain ⟨V, hheld, hvisible, htasks⟩ := ih
    cases hstep with
    | arrive request =>
      refine ⟨_, hheld.tail (l := .arrive (request.map .step)) ⟨request, hallowed, rfl⟩ (.arrive _), hvisible, ?_⟩
      rw [List.map_cons, htasks]
    | @run op c rest tasks hreplaces =>
      have hmap := hreplaces.map (·.map HeldOp.step)
      rw [← htasks, List.map_cons, List.map_append] at hmap
      obtain ⟨op', hop, hkept, hexec⟩ | ⟨op', h', hop, hexec, hvisible', -, -⟩ | ⟨op', hop, -⟩ :=
        HeldOp.exec_cases proofUuid c V.state (.step op)
      · obtain rfl := HeldOp.step.inj hop
        rw [HeldManager.visible_of_not_removed hkept] at hvisible
        have hlocked : (HeldOp.locked op).exec proofUuid c V.state =
            OpOutcome.held (op.exec proofUuid c U.state)
              { V.state with manager := (op.exec proofUuid c U.state).state } := by
          rw [HeldOp.exec, hvisible]
        obtain ⟨V₁, hfetch, hlock⟩ := fetch_and_lock hexec (by rwa [hlocked])
        refine ⟨_, (hheld.tail (l := .run (.step op) c) trivial hfetch).tail (l := .run (.locked op) c) trivial hlock,
          ?_, ?_⟩
        · rw [hlocked]
          exact HeldManager.visible_of_not_removed hkept
        · rw [hlocked, OpOutcome.held, List.map_append]
      · obtain rfl := HeldOp.step.inj hop
        have hact : TaskPool.Step (HeldOp.exec proofUuid) V (.run (.step op) c) ⟨_, _ ++ tasks.map (·.map .step)⟩ :=
          .run (by rwa [hexec, OpOutcome.held, hvisible])
        refine ⟨_, hheld.tail (l := .run (.step op) c) trivial hact, ?_, ?_⟩
        · rw [hexec, OpOutcome.held, hvisible', hvisible]
        · rw [hexec, OpOutcome.held, hvisible, List.map_append]
      · simp at hop

end EdgeProver
