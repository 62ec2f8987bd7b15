import EdgeProver.Scheduler.Handing
import EdgeProver.Scheduler.Redelivery

/-! Whether a worker that runs the EVM step runs it alone. -/
namespace EdgeProver
open Replace

namespace EdgeWorkerState

/-- A worker that holds an EVM step holds nothing else. -/
def EvmAlone (w : EdgeWorkerState) : Prop := w.runs .evmProve = true → w.activeProofs.length = 1

/-- What the worker holds is work of its role. -/
structure InRole (w : EdgeWorkerState) : Prop where
  dedicated : w.workerRole = .evmDedicated → ∀ active ∈ w.activeProofs, active.step = .evmProve
  starkOnly : w.workerRole = .starkOnly → ∀ active ∈ w.activeProofs, active.step ≠ .evmProve

/-- A worker with no counted work, for the EVM step. -/
def idleForEvm (w : EdgeWorkerState) : Bool := w.workerRole.runsEvmProve && w.activeProofCount == 0

end EdgeWorkerState

/-- `w` is the first of the workers with the property. -/
def FirstOf (p : EdgeWorkerState → Bool) (workers : List EdgeWorkerState) (w : EdgeWorkerState) : Prop :=
  ∃ before after, workers = before ++ w :: after ∧ p w = true ∧ ∀ v ∈ before, p v = false

/-- Of the workers with the property `w` has the least key, and is the first of those with this key. -/
def LeastOf (key : EdgeWorkerState → Nat) (p : EdgeWorkerState → Bool) (workers : List EdgeWorkerState)
    (w : EdgeWorkerState) : Prop :=
  ∃ before after, workers = before ++ w :: after ∧ p w = true ∧ (∀ v ∈ before, p v = true → key w < key v) ∧
    ∀ v ∈ after, p v = true → key w ≤ key v

/-- Where an item of this kind would go, it finds no EVM step, and an EVM step finds nothing at all. -/
def EdgeProofState.Clear (st : EdgeProofState) : Step → Prop
  | .leafProve => (∀ w, FirstOf EdgeWorkerState.freeForLeaf st.workers w → w.runs .evmProve = false) ∧
    ((∀ w ∈ st.workers, w.freeForLeaf = false) → st.assignedLeafProofs < st.leafPackThreshold →
      ∀ w, LeastOf EdgeWorkerState.packingKey (EdgeWorkerState.packable st.maxLeafProvers) st.workers w →
        w.runs .evmProve = false)
  | .evmProve => ∀ w, FirstOf EdgeWorkerState.idleForEvm st.workers w → w.activeProofs = []
  | .internalProve | .shardedAppProve | .rootProve | .halo2Prove => True

/-- The first item of the queue, in the state it is tried in. -/
def EdgeProofState.firstTry (st : EdgeProofState) : List (EdgeProofState × Step) :=
  match st.pending.pop with
  | some (item, _) => [(st, item.step)]
  | none => []

def EdgeProofState.drainTries (proofUuid : String) : Nat → EdgeProofState → List (EdgeProofState × Step)
  | 0, _ => []
  | fuel + 1, st =>
    st.firstTry ++
      match st.tryDequeueWork proofUuid with
      | (some _, st) => drainTries proofUuid fuel st
      | (none, _) => []

namespace SchedulerCall

def tries (proofUuid : String) (st : EdgeProofState) : SchedulerCall → List (EdgeProofState × Step)
  | .enqueueOrAssign _ step => [(st, step)]
  | .setNumSegments numSegments =>
    if !st.workers.any (·.dividesByZero st.numWorkers numSegments) &&
        st.workers.any (·.shardDone st.numWorkers numSegments) then
      let released := (SchedulerCall.setNumSegments numSegments).account proofUuid st
      released.drainTries proofUuid released.pending.items.length
    else []
  | .workerCompleted workerId result =>
    match st.applyCompletion proofUuid workerId result with
    | .ok (true, st) => st.firstTry
    | _ => []
  | .workerDrained _ _ | .releaseWorker _ => []

/-- Every item that the call tries to place is clear of an EVM step. -/
def Clear (proofUuid : String) (st : EdgeProofState) (call : SchedulerCall) : Prop :=
  ∀ entry ∈ call.tries proofUuid st, entry.1.Clear entry.2

end SchedulerCall

section Search
variable {p : EdgeWorkerState → Bool} {key : EdgeWorkerState → Nat} {workers : List EdgeWorkerState}
  {w : EdgeWorkerState}

private theorem firstOf_iff : FirstOf p workers w ↔ workers.find? p = some w := by
  rw [List.find?_eq_some_iff_append]
  constructor
  · rintro ⟨before, after, hsplit, hw, hbefore⟩
    exact ⟨hw, before, after, hsplit, fun v hv => by simp [hbefore v hv]⟩
  · rintro ⟨hw, before, after, hsplit, hbefore⟩
    exact ⟨before, after, hsplit, hw, fun v hv => by simpa using hbefore v hv⟩

private theorem minByKey_none {α : Type*} {key : α → Nat} {xs : List α} (h : minByKey key xs = none) : xs = [] := by
  cases xs with
  | nil => rfl
  | cons x xs =>
    unfold minByKey at h
    split at h
    · cases h
    · split at h <;> cases h

private theorem minByKey_iff {α : Type*} {key : α → Nat} {xs : List α} {x : α} : minByKey key xs = some x ↔
    ∃ before after, xs = before ++ x :: after ∧ (∀ y ∈ before, key x < key y) ∧ ∀ y ∈ after, key x ≤ key y := by
  induction xs generalizing x with
  | nil =>
    refine iff_of_false (by intro h; cases h) ?_
    rintro ⟨before, after, hsplit, -⟩
    simp at hsplit
  | cons z zs ih =>
    unfold minByKey
    constructor
    · intro h
      split at h
      · rename_i hnone
        obtain rfl := Option.some.inj h
        obtain rfl := minByKey_none hnone
        exact ⟨[], [], rfl, by simp, by simp⟩
      · rename_i y hy
        obtain ⟨before, after, rfl, hbefore, hafter⟩ := ih.mp hy
        split at h
        · rename_i hless
          obtain rfl := Option.some.inj h
          exact ⟨z :: before, after, rfl, List.forall_mem_cons.mpr ⟨hless, hbefore⟩, hafter⟩
        · rename_i hleast
          obtain rfl := Option.some.inj h
          refine ⟨[], before ++ y :: after, rfl, by simp, fun v hv => ?_⟩
          have hz : key z ≤ key y := Nat.not_lt.mp hleast
          rcases List.mem_append.mp hv with hv | hv
          · exact hz.trans (hbefore v hv).le
          · rcases List.mem_cons.mp hv with rfl | hv
            · exact hz
            · exact hz.trans (hafter v hv)
    · rintro ⟨before, after, hsplit, hbefore, hafter⟩
      cases before with
      | nil =>
        obtain ⟨rfl, rfl⟩ := List.cons.inj hsplit
        split
        · rfl
        · rename_i y hy
          exact if_neg (Nat.not_lt.mpr (hafter y (minByKey_mem hy)))
      | cons v before =>
        obtain ⟨rfl, rfl⟩ := List.cons.inj hsplit
        obtain ⟨hv, hbefore⟩ := List.forall_mem_cons.mp hbefore
        rw [ih.mpr ⟨before, after, rfl, hbefore, hafter⟩]
        exact if_pos hv

private theorem leastOf_iff : LeastOf key p workers w ↔ minByKey key (workers.filter p) = some w := by
  rw [minByKey_iff]
  constructor
  · rintro ⟨before, after, rfl, hw, hbefore, hafter⟩
    refine ⟨before.filter p, after.filter p, by rw [List.filter_append, List.filter_cons_of_pos hw], ?_, ?_⟩
    · intro v hv
      obtain ⟨hv, hp⟩ := List.mem_filter.mp hv
      exact hbefore v hv hp
    · intro v hv
      obtain ⟨hv, hp⟩ := List.mem_filter.mp hv
      exact hafter v hv hp
  · rintro ⟨before, after, hsplit, hbefore, hafter⟩
    obtain ⟨front, back, rfl, rfl, hback⟩ := List.filter_eq_append_iff.mp hsplit
    obtain ⟨skipped, rest, rfl, hskipped, hw, rfl⟩ := List.filter_eq_cons_iff.mp hback
    refine ⟨front ++ skipped, rest, by simp, hw, fun v hv hp => ?_, fun v hv hp => ?_⟩
    · rcases List.mem_append.mp hv with hv | hv
      · exact hbefore v (List.mem_filter.mpr ⟨hv, hp⟩)
      · exact absurd hp (hskipped v hv)
    · exact hafter v (List.mem_filter.mpr ⟨hv, hp⟩)

private theorem find_zipIdx (p : EdgeWorkerState → Bool) (workers : List EdgeWorkerState) :
    (workers.zipIdx.find? (p ·.1)).map Prod.fst = workers.find? p := by
  conv_rhs => rw [← List.zipIdx_map_fst 0 workers]
  exact List.find?_map.symm

private theorem minByKey_map {α β : Type*} (key : β → Nat) (f : α → β) (xs : List α) :
    minByKey key (xs.map f) = (minByKey (fun x => key (f x)) xs).map f := by
  induction xs with
  | nil => rfl
  | cons x xs ih =>
    rw [List.map_cons, minByKey, minByKey, ih]
    cases minByKey (fun x => key (f x)) xs with
    | none => rfl
    | some y =>
      dsimp only [Option.map_some]
      split <;> rfl

private theorem minByKey_zipIdx (key : EdgeWorkerState → Nat) (p : EdgeWorkerState → Bool)
    (workers : List EdgeWorkerState) :
    (minByKey (key ·.1) (workers.zipIdx.filter (p ·.1))).map Prod.fst = minByKey key (workers.filter p) := by
  conv_rhs => rw [← List.zipIdx_map_fst 0 workers, List.filter_map, minByKey_map]
  rfl

end Search

namespace EdgeProofState
variable {st : EdgeProofState} {step : Step} {worker : EdgeWorkerState} {idx : Nat}

private theorem canAcceptWork_evm (w : EdgeWorkerState) (maxLeafProvers : Nat) :
    w.canAcceptWork .evmProve maxLeafProvers = w.idleForEvm := by
  unfold EdgeWorkerState.canAcceptWork EdgeWorkerState.idleForEvm
  cases w.workerRole.runsEvmProve <;> rfl

private theorem pickWorker_leaf (st : EdgeProofState) : (st.pickWorker .leafProve).map Prod.fst =
    match st.workers.find? EdgeWorkerState.freeForLeaf with
    | some w => some w
    | none => if st.assignedLeafProofs < st.leafPackThreshold then
        minByKey EdgeWorkerState.packingKey (st.workers.filter (EdgeWorkerState.packable st.maxLeafProvers))
      else none := by
  unfold pickWorker findBestWorkerForLeaf
  rw [if_pos rfl, ← find_zipIdx EdgeWorkerState.freeForLeaf st.workers]
  cases st.workers.zipIdx.find? (·.1.freeForLeaf) with
  | some entry => rfl
  | none =>
    dsimp only [Option.map_none]
    rw [apply_ite (Option.map Prod.fst), minByKey_zipIdx EdgeWorkerState.packingKey]
    rfl

private theorem pickWorker_other (hleaf : step ≠ .leafProve) (st : EdgeProofState) :
    (st.pickWorker step).map Prod.fst = st.workers.find? (·.canAcceptWork step st.maxLeafProvers) := by
  unfold pickWorker
  rw [if_neg hleaf]
  exact find_zipIdx (·.canAcceptWork step st.maxLeafProvers) st.workers

private theorem clear_iff (h : st.pickWorker step = some (worker, idx)) : st.Clear step ↔
    (step = .evmProve → worker.activeProofs = []) ∧ (step ≠ .evmProve → worker.runs .evmProve = false) := by
  have hpick : (st.pickWorker step).map Prod.fst = some worker := by rw [h]; rfl
  cases step with
  | leafProve =>
    simp only [Clear, reduceCtorEq, false_implies, true_and, ne_eq, not_false_eq_true, true_implies]
    rw [pickWorker_leaf] at hpick
    cases hfree : st.workers.find? EdgeWorkerState.freeForLeaf with
    | some w =>
      rw [hfree] at hpick
      obtain rfl := Option.some.inj hpick
      have hfirst := firstOf_iff.mpr hfree
      constructor
      · intro hclear
        exact hclear.1 w hfirst
      · intro hruns
        refine ⟨fun v hv => ?_, fun hnone => ?_⟩
        · rw [firstOf_iff, hfree] at hv
          exact Option.some.inj hv ▸ hruns
        · have hnot := hnone w (List.mem_of_find?_eq_some hfree)
          rw [List.find?_some hfree] at hnot
          cases hnot
    | none =>
      rw [hfree] at hpick
      have hnone : ∀ w ∈ st.workers, w.freeForLeaf = false := by
        simpa using List.find?_eq_none.mp hfree
      dsimp only at hpick
      split at hpick
      · rename_i hthreshold
        have hleast := leastOf_iff.mpr hpick
        constructor
        · intro hclear
          exact hclear.2 hnone hthreshold worker hleast
        · intro hruns
          refine ⟨fun v hv => ?_, fun _ _ v hv => ?_⟩
          · rw [firstOf_iff, hfree] at hv
            cases hv
          · rw [leastOf_iff, hpick] at hv
            exact Option.some.inj hv ▸ hruns
      · cases hpick
  | evmProve =>
    simp only [Clear, true_implies, ne_eq, not_true_eq_false, false_implies, and_true]
    rw [pickWorker_other (by simp), funext fun w => canAcceptWork_evm w st.maxLeafProvers] at hpick
    constructor
    · intro hclear
      exact hclear worker (firstOf_iff.mpr hpick)
    · intro hempty v hv
      rw [firstOf_iff, hpick] at hv
      exact Option.some.inj hv ▸ hempty
  | internalProve =>
    rw [pickWorker_other (by simp)] at hpick
    have haccept := List.find?_some hpick
    simp only [EdgeWorkerState.canAcceptWork, reduceCtorEq, if_false] at haccept
    split_ifs at haccept with _ hruns
    exact iff_of_true trivial ⟨by simp, fun _ => by simpa using hruns⟩
  | shardedAppProve | rootProve | halo2Prove =>
    rw [pickWorker_other (by simp)] at hpick
    have haccept := List.find?_some hpick
    simp only [EdgeWorkerState.canAcceptWork, reduceCtorEq, if_false] at haccept
    split_ifs at haccept

private theorem clear_of_none (h : st.pickWorker step = none) : st.Clear step := by
  have hpick : (st.pickWorker step).map Prod.fst = none := by rw [h]; rfl
  cases step with
  | leafProve =>
    rw [pickWorker_leaf] at hpick
    cases hfree : st.workers.find? EdgeWorkerState.freeForLeaf with
    | some w =>
      rw [hfree] at hpick
      cases hpick
    | none =>
      rw [hfree] at hpick
      refine ⟨fun v hv => ?_, fun _ hthreshold v hv => ?_⟩
      · rw [firstOf_iff, hfree] at hv
        cases hv
      · dsimp only at hpick
        rw [if_pos hthreshold] at hpick
        rw [leastOf_iff, hpick] at hv
        cases hv
  | evmProve =>
    rw [pickWorker_other (by simp), funext fun w => canAcceptWork_evm w st.maxLeafProvers] at hpick
    intro v hv
    rw [firstOf_iff, hpick] at hv
    cases hv
  | internalProve | shardedAppProve | rootProve | halo2Prove => exact trivial

end EdgeProofState

namespace EdgeWorkerState
variable {w w' : EdgeWorkerState} {item : EdgeWorkItem}

/-- Taking an item leaves the EVM step alone exactly if it finds none, or is one and finds nothing. -/
theorem evmAlone_assign_iff (h : w.EvmAlone) : (w.assign item).EvmAlone ↔
    (item.step = .evmProve → w.activeProofs = []) ∧ (item.step ≠ .evmProve → w.runs .evmProve = false) := by
  have hlength : (w.assign item).activeProofs.length = w.activeProofs.length + 1 := by simp [assign]
  have hruns : (w.assign item).runs .evmProve = (w.runs .evmProve || item.step == .evmProve) := by
    simp [runs, assign, activeProofFromRequest]
  unfold EvmAlone
  rw [hlength, hruns, Nat.add_eq_right, List.length_eq_zero_iff]
  by_cases hitem : item.step = .evmProve
  · simp [hitem]
  · simp only [hitem, false_implies, true_and, ne_eq, not_false_eq_true, true_implies, beq_eq_false_iff_ne.mpr hitem,
      Bool.or_false]
    constructor
    · intro halone
      cases hw : w.runs .evmProve with
      | false => rfl
      | true =>
        have hone := h hw
        rw [halone hw] at hone
        cases hone
    · intro hnone hsome
      rw [hnone] at hsome
      cases hsome

/-- What is taken away leaves the EVM step alone. -/
theorem EvmAlone.less (h : w.EvmAlone) (hsub : w'.activeProofs.Sublist w.activeProofs) : w'.EvmAlone := by
  intro hruns
  obtain ⟨active, hactive, hstep⟩ := List.any_eq_true.mp hruns
  have hone := h (List.any_eq_true.mpr ⟨active, hsub.subset hactive, hstep⟩)
  have hle := hsub.length_le
  have hpos := List.length_pos_of_mem hactive
  omega

theorem InRole.assign (h : w.InRole) (htakes : w.workerRole.takes item.step = true) : (w.assign item).InRole := by
  have hmem {active : ActiveProof} (hactive : active ∈ (w.assign item).activeProofs) :
      active ∈ w.activeProofs ∨ active.step = item.step := by
    refine (List.mem_append.mp hactive).imp_right fun hnew => ?_
    rw [List.mem_singleton.mp hnew]
    rfl
  refine ⟨fun hrole active hactive => ?_, fun hrole active hactive => ?_⟩
  · have hrole : w.workerRole = .evmDedicated := hrole
    rcases hmem hactive with hold | hnew
    · exact h.dedicated hrole active hold
    · rw [hrole] at htakes
      rw [hnew]
      cases hstep : item.step <;> rw [hstep] at htakes <;> first | rfl | cases htakes
  · have hrole : w.workerRole = .starkOnly := hrole
    rcases hmem hactive with hold | hnew
    · exact h.starkOnly hrole active hold
    · intro hevm
      rw [hrole, ← hnew, hevm] at htakes
      cases htakes

theorem InRole.less (h : w.InRole) (hrole : w'.workerRole = w.workerRole)
    (hsub : w'.activeProofs.Sublist w.activeProofs) : w'.InRole :=
  ⟨fun hw active hactive => h.dedicated (hrole ▸ hw) active (hsub.subset hactive),
    fun hw active hactive => h.starkOnly (hrole ▸ hw) active (hsub.subset hactive)⟩

end EdgeWorkerState

section Calls
variable {st st' : EdgeProofState} {P : EdgeWorkerState → Prop} {works : List AssignedWork} {proofUuid : String}

private theorem forall_handsOut (hgive : ∀ w item, P w → w.workerRole.takes item.step = true → P (w.assign item))
    (h : HandsOut st works st') (hst : ∀ w ∈ st.workers, P w) : ∀ w ∈ st'.workers, P w := by
  induction h with
  | queue => exact hst
  | @give st next st' pending worker work works hid hassigns hrest ih =>
    refine ih ((hassigns.replaces.forall_iff hst).mpr ?_)
    exact hgive worker work.item (hst worker hassigns.replaces.mem_left) hassigns.accepts.takes

private theorem forall_account (hless : ∀ w w' : EdgeWorkerState, P w → w'.workerRole = w.workerRole →
      w'.activeProofs.Sublist w.activeProofs → P w')
    (hst : ∀ w ∈ st.workers, P w) (call : SchedulerCall) : ∀ w ∈ (call.account proofUuid st).workers, P w := by
  have hreport (workerId : Nat) (result : ProofResult) :
      ∀ w ∈ (st.workerDrained proofUuid workerId result).workers, P w := by
    unfold EdgeProofState.workerDrained
    split
    · rename_i freed next hcall
      obtain ⟨worker, workers, hreplaces, -, -, rfl⟩ := EdgeProofState.applyCompletion_ok hcall
      refine (hreplaces.forall_iff hst).mpr (hless worker _ (hst worker hreplaces.mem_left) ?_ ?_)
      · exact (EdgeProofState.complete_static worker st.numWorkers st.numSegments result).2.2
      · exact EdgeProofState.complete_sublist worker st.numWorkers st.numSegments result
    · exact hst
  cases call with
  | enqueueOrAssign envelope step => exact hst
  | setNumSegments numSegments =>
    intro w hw
    obtain ⟨old, hold, rfl | ⟨rfl, -⟩⟩ := EdgeWorkerState.mem_releaseShards hw
    · unfold EdgeWorkerState.releaseShard
      split
      · exact hless old _ (hst old hold) rfl List.filter_sublist
      · exact hst old hold
    · exact hst w hold
  | workerCompleted workerId result => exact hreport workerId result
  | workerDrained workerId result => exact hreport workerId result
  | releaseWorker workerId =>
    simp only [SchedulerCall.account, EdgeProofState.releaseWorker]
    split
    · rename_i worker idx hfind
      have hget := (find_zipIdx_some (fun w : EdgeWorkerState => w.id == workerId) hfind).1
      refine ((replaces_set hget worker.release).forall_iff hst).mpr ?_
      exact hless worker _ (hst worker (List.mem_of_getElem? hget)) rfl (List.nil_sublist _)
    · exact hst

private theorem handsOut_exec (proofUuid : String) (st : EdgeProofState) (call : SchedulerCall) :
    ∃ works, HandsOut (call.account proofUuid st) works (call.exec proofUuid st) := by
  cases call with
  | enqueueOrAssign envelope step => exact ⟨_, st.handsOut_assignOrQueue proofUuid ⟨envelope, step⟩⟩
  | setNumSegments numSegments => exact ⟨_, st.handsOut_setNumSegments proofUuid numSegments⟩
  | workerCompleted workerId result =>
    simp only [SchedulerCall.exec, SchedulerCall.account, EdgeProofState.workerCompleted,
      EdgeProofState.workerDrained, EdgeProofState.completeWork]
    cases hcall : st.applyCompletion proofUuid workerId result with
    | error e => exact ⟨[], .refl st⟩
    | ok called =>
      obtain ⟨freed, next⟩ := called
      cases freed with
      | true => exact ⟨_, next.handsOut_tryDequeueWork proofUuid⟩
      | false => exact ⟨[], .refl next⟩
  | workerDrained workerId result => exact ⟨[], .refl _⟩
  | releaseWorker workerId => exact ⟨[], .refl _⟩

private theorem inRole_exec (hst : ∀ w ∈ st.workers, w.InRole) (call : SchedulerCall) :
    ∀ w ∈ (call.exec proofUuid st).workers, w.InRole := by
  obtain ⟨works, hout⟩ := handsOut_exec proofUuid st call
  refine forall_handsOut (fun w item h htakes => h.assign htakes) hout ?_
  exact forall_account (fun w w' h hrole hsub => h.less hrole hsub) hst call

/-- No worker of the state runs anything beside an EVM step. -/
def EvmIsolated (st : EdgeProofState) : Prop := ∀ w ∈ st.workers, w.EvmAlone

private theorem evmIsolated_assignTo_iff (h : EvmIsolated st) {item : EdgeWorkItem}
    {worker : EdgeWorkerState} {idx : Nat}
    (hpick : st.pickWorker item.step = some (worker, idx)) (proofUuid : String) :
    EvmIsolated (st.assignTo proofUuid worker idx item).2 ↔ st.Clear item.step := by
  have hassigns := EdgeProofState.assigns_of_pickWorker hpick proofUuid
  rw [EdgeProofState.clear_iff hpick, ← EdgeWorkerState.evmAlone_assign_iff (h worker hassigns.replaces.mem_left)]
  exact hassigns.replaces.forall_iff h

private theorem evmIsolated_tryDequeueWork_iff (h : EvmIsolated st) (proofUuid : String) :
    EvmIsolated (st.tryDequeueWork proofUuid).2 ↔ ∀ entry ∈ st.firstTry, entry.1.Clear entry.2 := by
  unfold EdgeProofState.firstTry
  obtain ⟨hpop, hcall⟩ | ⟨item, pending, hpop, ⟨work, worker, idx, hcall, -, -, hpick⟩ | ⟨hpick, hcall⟩⟩ :=
    st.tryDequeueWork_cases proofUuid
  · rw [hcall, hpop]
    exact iff_of_true h (List.forall_mem_nil _)
  · rw [hcall, hpop]
    dsimp only
    rw [List.forall_mem_singleton]
    have h' : EvmIsolated { st with pending := pending } := h
    exact evmIsolated_assignTo_iff h' hpick proofUuid
  · rw [hcall, hpop]
    dsimp only
    rw [List.forall_mem_singleton]
    have hclear := EdgeProofState.clear_of_none hpick
    exact iff_of_true h hclear

private theorem evmIsolated_of_handsOut (hout : HandsOut st works st') (h : EvmIsolated st') : EvmIsolated st := by
  induction hout with
  | queue => exact h
  | @give st next st' pending worker work works hid hassigns hrest ih =>
    intro w hw
    rcases hassigns.replaces.of_mem_left hw with rfl | hnext
    · exact (ih h _ hassigns.replaces.mem_right).less (List.sublist_append_left _ _)
    · exact ih h w hnext

private theorem evmIsolated_drainLoop_iff (h : EvmIsolated st) (fuel : Nat) :
    EvmIsolated (EdgeProofState.drainLoop proofUuid fuel st).2 ↔
      ∀ entry ∈ st.drainTries proofUuid fuel, entry.1.Clear entry.2 := by
  induction fuel generalizing st with
  | zero => exact iff_of_true h (List.forall_mem_nil _)
  | succ fuel ih =>
    have hfirst := evmIsolated_tryDequeueWork_iff h proofUuid
    unfold EdgeProofState.drainLoop EdgeProofState.drainTries
    rw [List.forall_mem_append, ← hfirst]
    cases hcall : st.tryDequeueWork proofUuid with
    | mk work next =>
      cases work with
      | none => exact ⟨fun hnext => ⟨hnext, List.forall_mem_nil _⟩, And.left⟩
      | some work =>
        constructor
        · intro hlast
          have hnext := evmIsolated_of_handsOut (EdgeProofState.handsOut_drainLoop proofUuid fuel next) hlast
          exact ⟨hnext, (ih hnext).mp hlast⟩
        · rintro ⟨hnext, hrest⟩
          exact (ih hnext).mpr hrest

/-- A call keeps the isolation exactly if every item that it tries to place is clear. -/
theorem evmIsolated_exec_iff (h : EvmIsolated st) (proofUuid : String) (call : SchedulerCall) :
    EvmIsolated (call.exec proofUuid st) ↔ call.Clear proofUuid st := by
  have haccount : EvmIsolated (call.account proofUuid st) :=
    forall_account (fun w w' h _ hsub => h.less hsub) h call
  unfold SchedulerCall.Clear
  cases call with
  | enqueueOrAssign envelope step =>
    simp only [SchedulerCall.tries, List.forall_mem_singleton, SchedulerCall.exec]
    obtain ⟨work, worker, idx, hcall, -, -, hpick⟩ | ⟨hpick, hcall⟩ :=
      st.assignOrQueue_cases proofUuid ⟨envelope, step⟩
    · rw [hcall]
      exact evmIsolated_assignTo_iff h hpick proofUuid
    · rw [hcall]
      exact iff_of_true h (EdgeProofState.clear_of_none hpick)
  | setNumSegments numSegments =>
    simp only [SchedulerCall.tries, SchedulerCall.exec, EdgeProofState.setNumSegments]
    split
    · exact evmIsolated_drainLoop_iff haccount _
    · exact iff_of_true haccount (List.forall_mem_nil _)
  | workerCompleted workerId result =>
    simp only [SchedulerCall.account, EdgeProofState.workerDrained] at haccount
    simp only [SchedulerCall.tries, SchedulerCall.exec, EdgeProofState.workerCompleted, EdgeProofState.completeWork]
    cases hcall : st.applyCompletion proofUuid workerId result with
    | error e => exact iff_of_true h (List.forall_mem_nil _)
    | ok called =>
      obtain ⟨freed, next⟩ := called
      rw [hcall] at haccount
      cases freed with
      | true => exact evmIsolated_tryDequeueWork_iff haccount proofUuid
      | false => exact iff_of_true haccount (List.forall_mem_nil _)
  | workerDrained workerId result => exact iff_of_true haccount (List.forall_mem_nil _)
  | releaseWorker workerId => exact iff_of_true haccount (List.forall_mem_nil _)

end Calls

section Runs
variable {fleet : List (Nat × RegisteredWorker)} {leafPackThreshold maxLeafProvers : Nat}

private theorem shardOnly_initProof {w : EdgeWorkerState}
    (hw : w ∈ (EdgeProofState.initProof fleet leafPackThreshold maxLeafProvers).workers) :
    ∀ active ∈ w.activeProofs, active.step = .shardedAppProve ∧ w.workerRole.runsStarkProving = true := by
  obtain ⟨entry, -, rfl⟩ := List.mem_map.mp hw
  dsimp only
  split
  · rename_i hstark
    exact List.forall_mem_singleton.mpr ⟨rfl, hstark⟩
  · exact List.forall_mem_nil _

/-- In every run the workers hold work of their roles only, and no worker ever runs anything beside an EVM step
exactly if every item is clear where a call tries to place it. -/
theorem evm_isolation_iff (fleet : List (Nat × RegisteredWorker)) (leafPackThreshold maxLeafProvers : Nat)
    (proofUuid : String) (calls : List SchedulerCall) :
    let start := EdgeProofState.initProof fleet leafPackThreshold maxLeafProvers
    (∀ before, before <+: calls → ∀ w ∈ (afterCalls proofUuid start before).workers, w.InRole) ∧
    ((∀ before, before <+: calls → ∀ w ∈ (afterCalls proofUuid start before).workers, w.EvmAlone) ↔
      ∀ before call, before ++ [call] <+: calls → call.Clear proofUuid (afterCalls proofUuid start before)) := by
  intro start
  refine ⟨fun before _ => ?_, ?_, ?_⟩
  · clear * -
    induction before using List.reverseRecOn with
    | nil =>
      intro w hw
      refine ⟨fun hrole active hactive => ?_, fun _ active hactive => ?_⟩
      · have hstark := (shardOnly_initProof hw active hactive).2
        rw [hrole] at hstark
        cases hstark
      · rw [(shardOnly_initProof hw active hactive).1]
        decide
    | append_singleton before call ih =>
      rw [afterCalls_append]
      exact inRole_exec ih call
  · intro halone before call hbegins
    have hnext := halone _ hbegins
    rw [afterCalls_append] at hnext
    have hbefore := halone before ((List.prefix_append before [call]).trans hbegins)
    exact (evmIsolated_exec_iff hbefore proofUuid call).mp hnext
  · intro hclear before hbegins
    induction before using List.reverseRecOn with
    | nil =>
      intro w hw hruns
      obtain ⟨active, hactive, hstep⟩ := List.any_eq_true.mp hruns
      rw [(shardOnly_initProof hw active hactive).1] at hstep
      cases hstep
    | append_singleton before call ih =>
      rw [afterCalls_append]
      have hbefore := ih ((List.prefix_append before [call]).trans hbegins)
      exact (evmIsolated_exec_iff hbefore proofUuid call).mpr (hclear before call hbegins)

end Runs

/-- The EVM step of a proof with one worker, whose shard is done, and then a leaf. -/
def leafBesideEvm : List SchedulerCall :=
  [.setNumSegments 0,
    .enqueueOrAssign ⟨0, "", .evmProve ⟨sampleWorkContext, [], none, false⟩⟩ .evmProve,
    .enqueueOrAssign (sampleLeafItem 0).envelope .leafProve]

/-- The leaf rule packs the leaf on the worker that runs the EVM step. -/
theorem evm_isolation_fails : ¬ ∀ (fleet : List (Nat × RegisteredWorker)) (leafPackThreshold maxLeafProvers : Nat)
    (proofUuid : String) (calls before : List SchedulerCall), before <+: calls →
      ∀ w ∈ (afterCalls proofUuid (.initProof fleet leafPackThreshold maxLeafProvers) before).workers,
        w.EvmAlone ∧ w.InRole := by
  intro hall
  have halone := hall sampleFleet 4 2 "proof" leafBesideEvm leafBesideEvm (List.prefix_refl _)
  have hbroken : ∃ w ∈ (afterCalls "proof" (.initProof sampleFleet 4 2) leafBesideEvm).workers,
      w.runs .evmProve = true ∧ w.activeProofs.length = 2 := by decide
  obtain ⟨w, hw, hruns, htwo⟩ := hbroken
  have hone := (halone w hw).1 hruns
  omega

end EdgeProver
