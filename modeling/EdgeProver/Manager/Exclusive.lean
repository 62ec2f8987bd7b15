import EdgeProver.Manager.Reclaim

/-! Admission is exclusive: whoever is past the gate of `start_proof` finds and leaves the deployment without any
other proof. -/
namespace EdgeProver

/-- The steps that `start_proof` does under the gate. -/
def AppOp.underGate : AppOp → Bool
  | .checkBusy _ | .checkDuplicate _ | .insertProof _ | .initProof _ => true
  | _ => false

/-- The steps left to a call that found no proof running. -/
def AppOp.foundIdle : AppOp → Prop
  | .checkDuplicate _ | .insertProof _ | .initProof _ => True
  | _ => False

/-- The scheduler store is empty. -/
def AppState.Idle (d : AppState) : Prop := ∀ proofUuid, (d.slices proofUuid).scheduler = none

/-- At most one call is under the gate, and what it has checked still holds. -/
structure Gated (A : App) : Prop where
  gate : A.ops.countP AppOp.underGate = if A.state.gate then 1 else 0
  idle : ∀ op ∈ A.ops, op.foundIdle → A.state.Idle
  fresh : ∀ req, .insertProof req ∈ A.ops → (A.state.slices req.context.proofUuid).proof = none
  single : ∀ u v, (A.state.slices u).scheduler.isSome = true → (A.state.slices v).scheduler.isSome = true → u = v

structure CallStep where
  before : AppState
  outcome : AppOutcome

/-- The steps of one call of `start_proof` from `op` on, each at the state that it finds, and how it ends. -/
inductive CallRun (config : ManagerConfig) : AppOp → List CallStep → Option Rejection → Prop
  | finish (op : AppOp) (c : Choice) (d : AppState) (hend : (op.exec config c d).next = []) :
      CallRun config op [⟨d, op.exec config c d⟩] (op.exec config c d).result
  | goOn {op next : AppOp} {c : Choice} {d : AppState} {steps : List CallStep} {rejection : Option Rejection}
      (hnext : (op.exec config c d).next = [next]) (hrest : CallRun config next steps rejection) :
      CallRun config op (⟨d, op.exec config c d⟩ :: steps) rejection

/-- The step leaves all three stores as they were and starts nothing. -/
structure CallStep.Untouched (step : CallStep) : Prop where
  slices : step.outcome.state.slices = step.before.slices
  uuids : step.outcome.state.uuids = step.before.uuids
  spawned : step.outcome.spawned = []

section
variable {config : ManagerConfig} {c : Choice} {d : AppState} {op : AppOp} {A A' : App} {l : AppLabel}

private theorem idle_of_hasAnyProofs (h : d.hasAnyProofs = false) : d.Idle := by
  intro proofUuid
  by_cases hmem : proofUuid ∈ d.uuids
  · have hall := List.any_eq_false.mp h proofUuid hmem
    simpa using hall
  · rw [d.slices_of_not_mem proofUuid hmem]
    rfl

/-- Off the gate, no step takes it but that of a call that arrives at it, and none goes on under it. -/
theorem gate_app (hgate : op.underGate = false) (hstart : ∀ req, op = .startProof req → d.gate = true) :
    (op.exec config c d).state.gate = d.gate ∧
      ((op.exec config c d).next ++ (op.exec config c d).spawned.flatten).countP AppOp.underGate = 0 := by
  have hsteps (u : String) (ops : List Op) : (ops.map (AppOp.step u)).countP AppOp.underGate = 0 := by
    rw [List.countP_eq_zero]
    intro op hop
    obtain ⟨step, -, rfl⟩ := List.mem_map.mp hop
    simp [AppOp.underGate]
  cases op with
  | step u step =>
    by_cases hevict : step = .evict
    · subst hevict
      exact ⟨rfl, rfl⟩
    · rw [exec_step hevict]
      refine ⟨rfl, ?_⟩
      rw [List.countP_append, hsteps, ← List.map_flatten, hsteps]
  | startProof req =>
    rw [AppOp.exec, if_pos (hstart req rfl)]
    exact ⟨rfl, rfl⟩
  | checkBusy req | checkDuplicate req | insertProof req | initProof req =>
    exact absurd hgate (by simp [AppOp.underGate])
  | evictPass now remaining found | sweepPass now remaining found =>
    cases remaining with
    | nil =>
      refine ⟨rfl, List.countP_eq_zero.mpr fun op hop => ?_⟩
      obtain ⟨u, -, rfl⟩ := List.mem_map.mp (by simpa [AppOp.exec, proceed] using hop)
      simp [AppOp.underGate]
    | cons u remaining => exact ⟨rfl, rfl⟩
  | watchdog =>
    refine ⟨rfl, List.countP_eq_zero.mpr fun op hop => ?_⟩
    simp only [AppOp.exec, proceed, List.flatten_nil, List.append_nil, List.mem_append, List.mem_flatMap,
      List.mem_map, List.mem_singleton] at hop
    obtain ⟨u, -, step, -, rfl⟩ | rfl := hop <;> simp [AppOp.underGate]
  | stage u staged | evictRemove u | sweep now | sweepRemove u => exact ⟨rfl, rfl⟩

/-- Who is past the gate does not go on under it but to find the deployment idle. -/
theorem scheduler_idle (hidle : d.Idle) (hinit : ∀ req, op ≠ .initProof req) : (op.exec config c d).state.Idle := by
  intro proofUuid
  by_contra hsome
  rcases scheduler_app (Option.isSome_iff_ne_none.mpr hsome) with hold | ⟨req, hop, -⟩
  · simp [hidle proofUuid] at hold
  · exact hinit req hop

private theorem proof_none {proofUuid : String} (hnone : (d.slices proofUuid).proof = none)
    (hinsert : ∀ req, op ≠ .insertProof req) : ((op.exec config c d).state.slices proofUuid).proof = none := by
  by_contra hsome
  obtain ⟨ps', hps'⟩ := Option.ne_none_iff_exists'.mp hsome
  rcases proof_app hps' with ⟨ps, hps, -⟩ | ⟨req, hop, -⟩
  · simp [hnone] at hps
  · exact hinsert req hop

private theorem underGate_of_foundIdle (h : op.foundIdle) : op.underGate = true := by
  cases op <;> first | rfl | exact h.elim

private theorem offGate_arrival {task : List AppOp} (h : isArrival task = true) : task.countP AppOp.underGate = 0 := by
  unfold isArrival at h
  split at h <;> first | rfl | cases h

private theorem gated_of_new {new others : List AppOp} (hops : A.ops.Perm (new ++ others))
    (hothers : others.countP AppOp.underGate = 0) (hgate : new.countP AppOp.underGate = if A.state.gate then 1 else 0)
    (hidle : ∀ op ∈ new, op.foundIdle → A.state.Idle)
    (hfresh : ∀ req, .insertProof req ∈ new → (A.state.slices req.context.proofUuid).proof = none)
    (hsingle : ∀ u v, (A.state.slices u).scheduler.isSome = true → (A.state.slices v).scheduler.isSome = true → u = v) :
    Gated A := by
  have hoff := List.countP_eq_zero.mp hothers
  refine ⟨?_, fun op hop hfound => ?_, fun req hreq => ?_, hsingle⟩
  · rw [hops.countP_eq, List.countP_append, hothers, hgate, Nat.add_zero]
  · rcases List.mem_append.mp (hops.mem_iff.mp hop) with hop | hop
    · exact hidle op hop hfound
    · exact absurd (underGate_of_foundIdle hfound) (hoff op hop)
  · rcases List.mem_append.mp (hops.mem_iff.mp hreq) with hreq | hreq
    · exact hfresh req hreq
    · exact absurd rfl (hoff _ hreq)

private theorem gated_arrive {task : List AppOp} (harrive : isArrival task = true)
    (hstep : AppStep config A (.arrive task) A') (h : Gated A) : Gated A' := by
  have hoff := List.countP_eq_zero.mp (offGate_arrival harrive)
  cases hstep
  refine ⟨?_, fun op hop hfound => ?_, fun req hreq => ?_, h.single⟩
  · rw [TaskPool.ops_arrive, List.countP_append, offGate_arrival harrive, Nat.zero_add]
    exact h.gate
  · rcases List.mem_append.mp (TaskPool.ops_arrive (p := A) task ▸ hop) with hop | hop
    · exact absurd (underGate_of_foundIdle hfound) (hoff op hop)
    · exact h.idle op hop hfound
  · rcases List.mem_append.mp (TaskPool.ops_arrive (p := A) task ▸ hreq) with hreq | hreq
    · exact absurd rfl (hoff _ hreq)
    · exact h.fresh req hreq

/-- A call that no step but its own has to answer for goes on alone: it took the gate, or finds it free. -/
private theorem gated_call {others : List AppOp} (h : Gated A) (hops : op ∈ A.ops)
    (hothers : others.countP AppOp.underGate = 0) (hheld : op.underGate = true → A.state.gate = true)
    (hop : op.underGate = true ∨ ∃ req, op = .startProof req ∧ A.state.gate = false)
    (hstate : A'.state = (op.exec config c A.state).state)
    (hnew : A'.ops.Perm ((op.exec config c A.state).next ++ (op.exec config c A.state).spawned.flatten ++ others))
    (hsingle : (∀ req, op ≠ .initProof req) → ∀ u v, (A'.state.slices u).scheduler.isSome = true →
      (A'.state.slices v).scheduler.isSome = true → u = v) : Gated A' := by
  have hfound : op.foundIdle → A.state.Idle := h.idle op hops
  cases op with
  | startProof req =>
    obtain hop | ⟨-, -, hfree⟩ := hop
    · simp [AppOp.underGate] at hop
    · simp only [AppOp.exec, hfree, Bool.false_eq_true, if_false, proceed] at hstate hnew
      refine gated_of_new hnew hothers ?_ ?_ ?_ (hsingle (by simp))
      · rw [hstate]
        rfl
      · simp [AppOp.foundIdle]
      · simp
  | checkBusy req =>
    have hgate := hheld rfl
    cases hbusy : A.state.hasAnyProofs with
    | true =>
      simp only [AppOp.exec, hbusy, if_true] at hstate hnew
      refine gated_of_new hnew hothers ?_ (by simp) (by simp) (hsingle (by simp))
      rw [hstate]
      rfl
    | false =>
      simp only [AppOp.exec, hbusy, Bool.false_eq_true, if_false, proceed] at hstate hnew
      refine gated_of_new hnew hothers ?_ ?_ (by simp) (hsingle (by simp))
      · rw [hstate, hgate]
        rfl
      · rintro - - -
        exact hstate ▸ idle_of_hasAnyProofs hbusy
  | checkDuplicate req =>
    have hgate := hheld rfl
    cases hproof : (A.state.slices req.context.proofUuid).proof with
    | some ps =>
      simp only [AppOp.exec, hproof, Option.isSome_some, if_true] at hstate hnew
      refine gated_of_new hnew hothers ?_ (by simp) (by simp) (hsingle (by simp))
      rw [hstate]
      rfl
    | none =>
      simp only [AppOp.exec, hproof, Option.isSome_none, Bool.false_eq_true, if_false, proceed] at hstate hnew
      refine gated_of_new hnew hothers ?_ ?_ ?_ (hsingle (by simp))
      · rw [hstate, hgate]
        rfl
      · rintro - - -
        exact hstate ▸ hfound trivial
      · intro req' hreq'
        simp only [List.flatten_nil, List.append_nil, List.mem_singleton, AppOp.insertProof.injEq] at hreq'
        rw [hstate, hreq', hproof]
  | insertProof req =>
    have hgate := hheld rfl
    have hidle : ((AppOp.insertProof req).exec config c A.state).state.Idle := scheduler_idle (hfound trivial) (by simp)
    simp only [AppOp.exec, proceed] at hstate hnew
    refine gated_of_new hnew hothers ?_ ?_ (by simp) (hsingle (by simp))
    · rw [hstate, AppState.put_gate, hgate]
      rfl
    · rintro - - -
      exact hstate ▸ hidle
  | initProof req =>
    have hidle := hfound trivial
    refine gated_of_new hnew hothers ?_ ?_ ?_ fun u v hu hv => ?_
    · rw [hstate]
      rfl
    · simp [AppOp.exec, proceed, AppOp.foundIdle]
    · simp [AppOp.exec, proceed]
    · have hown (w : String) (hw : (A'.state.slices w).scheduler.isSome = true) : req.context.proofUuid = w := by
        rw [hstate] at hw
        rcases scheduler_app hw with hold | ⟨req', hreq', huuid⟩
        · simp [hidle w] at hold
        · obtain rfl := AppOp.initProof.inj hreq'
          exact huuid
      exact (hown u hu).symm.trans (hown v hv)
  | _ =>
    obtain hop | ⟨req, hop, -⟩ := hop
    · simp [AppOp.underGate] at hop
    · cases hop

private theorem gated_run (hstep : AppStep config A (.run op c) A') (h : Gated A) : Gated A' := by
  obtain ⟨hstate, others, hold, hnew⟩ := TaskPool.ops_run hstep
  have hops : ∀ op' ∈ op :: others, op' ∈ A.ops := fun op' hop' => hold.mem_iff.mpr hop'
  have hcount := h.gate
  rw [hold.countP_eq, List.countP_cons] at hcount
  have hsingle (hinit : ∀ req, op ≠ .initProof req) (u v : String)
      (hu : (A'.state.slices u).scheduler.isSome = true) (hv : (A'.state.slices v).scheduler.isSome = true) :
      u = v := by
    rw [hstate] at hu hv
    refine h.single u v ?_ ?_
    · exact (scheduler_app hu).resolve_right fun ⟨req, hop, _⟩ => hinit req hop
    · exact (scheduler_app hv).resolve_right fun ⟨req, hop, _⟩ => hinit req hop
  by_cases hop : op.underGate = true ∨ ∃ req, op = .startProof req ∧ A.state.gate = false
  · refine gated_call h (hops op List.mem_cons_self) ?_ (fun hunder => ?_) hop hstate hnew hsingle
    · rcases hop with hop | ⟨-, -, hfree⟩
      · rw [if_pos hop] at hcount
        split at hcount <;> omega
      · rw [hfree, if_neg Bool.false_ne_true] at hcount
        omega
    · rw [if_pos hunder] at hcount
      by_contra hfree
      rw [if_neg hfree] at hcount
      omega
  · have hoff : op.underGate = false := Bool.eq_false_iff.mpr fun hunder => hop (.inl hunder)
    have hstart : ∀ req, op = .startProof req → A.state.gate = true := by
      rintro req rfl
      by_contra hfree
      exact hop (.inr ⟨req, rfl, Bool.eq_false_iff.mpr hfree⟩)
    have hinit : ∀ req, op ≠ .initProof req := by
      rintro req rfl
      exact absurd hoff (by simp [AppOp.underGate])
    obtain ⟨hgate, hzero⟩ := @gate_app config c A.state op hoff hstart
    have hnone := List.countP_eq_zero.mp hzero
    refine ⟨?_, fun op' hop' hfound => ?_, fun req hreq => ?_, hsingle hinit⟩
    · rw [hnew.countP_eq, List.countP_append, hzero, hstate, hgate, Nat.zero_add]
      simpa [hoff] using hcount
    · rcases List.mem_append.mp (hnew.mem_iff.mp hop') with hmem | hmem
      · exact absurd (underGate_of_foundIdle hfound) (hnone op' hmem)
      · exact hstate ▸ scheduler_idle (h.idle op' (hops op' (List.mem_cons_of_mem _ hmem)) hfound) hinit
    · rcases List.mem_append.mp (hnew.mem_iff.mp hreq) with hmem | hmem
      · exact absurd rfl (hnone _ hmem)
      · refine hstate ▸ proof_none (h.fresh req (hops _ (List.mem_cons_of_mem _ hmem))) ?_
        rintro req' rfl
        exact absurd hoff (by simp [AppOp.underGate])

/-- The gate keeps the deployment to one proof along every run. -/
theorem gated_of_run (hrun : AppRun config AppArrivals App.start A) : Gated A := by
  refine TaskPool.Run.invariant (fun A l A' h hallowed hstep => ?_) ?_ hrun
  · cases l with
    | arrive task => exact gated_arrive hallowed hstep h
    | run op c => exact gated_run hstep h
  · exact ⟨rfl, by simp [App.start, TaskPool.Pool.ops], by simp [App.start, TaskPool.Pool.ops],
      fun u v hu _ => by simp [App.start, AppState.empty, Manager.empty] at hu⟩

def AppOp.mayReject : AppOp → Bool
  | .startProof _ | .checkBusy _ | .checkDuplicate _ => true
  | _ => false

private theorem untouched_of_mayReject (h : op.mayReject = true) : CallStep.Untouched ⟨d, op.exec config c d⟩ := by
  cases op with
  | startProof req | checkBusy req | checkDuplicate req =>
    simp only [AppOp.exec]
    split <;> exact ⟨rfl, rfl, rfl⟩
  | _ => cases h

private theorem not_rejected (h : op.mayReject = false) :
    (op.exec config c d).result = none ∧ ∀ next, (op.exec config c d).next = [next] → next.mayReject = false := by
  cases op with
  | step u step =>
    by_cases hevict : step = .evict
    · subst hevict
      refine ⟨rfl, fun next hnext => ?_⟩
      obtain rfl := List.singleton_inj.mp hnext
      rfl
    · rw [exec_step hevict]
      refine ⟨rfl, fun next hnext => ?_⟩
      obtain ⟨op, -, rfl⟩ := List.map_eq_singleton_iff.mp hnext
      rfl
  | insertProof req | initProof req | sweep now =>
    refine ⟨rfl, fun next hnext => ?_⟩
    obtain rfl := List.singleton_inj.mp hnext
    rfl
  | evictPass now remaining found | sweepPass now remaining found =>
    cases remaining with
    | nil =>
      refine ⟨rfl, fun next hnext => ?_⟩
      obtain ⟨u, -, rfl⟩ := List.map_eq_singleton_iff.mp hnext
      rfl
    | cons u remaining =>
      refine ⟨rfl, fun next hnext => ?_⟩
      obtain rfl := List.singleton_inj.mp hnext
      rfl
  | watchdog =>
    refine ⟨rfl, fun next hnext => ?_⟩
    have hlast := congrArg List.getLast? hnext
    simp only [AppOp.exec, proceed, List.getLast?_append, List.getLast?_singleton, Option.some_or,
      Option.some.injEq] at hlast
    rw [← hlast]
    rfl
  | stage u staged | evictRemove u | sweepRemove u => exact ⟨rfl, fun next hnext => by cases hnext⟩
  | startProof req | checkBusy req | checkDuplicate req => cases h

/-- Whatever a call finds between its steps, none of them changes anything if it is rejected. -/
theorem untouched_of_rejected {steps : List CallStep} {ending : Option Rejection} (h : CallRun config op steps ending)
    (hrejected : ending.isSome = true) : op.mayReject = true ∧ ∀ step ∈ steps, step.Untouched := by
  induction h with
  | finish op c d hend =>
    have hop : op.mayReject = true := by
      by_contra hoff
      rw [(not_rejected (Bool.eq_false_iff.mpr hoff)).1] at hrejected
      cases hrejected
    exact ⟨hop, fun step hstep => List.mem_singleton.mp hstep ▸ untouched_of_mayReject hop⟩
  | @goOn op next c d steps rejection hnext hrest ih =>
    obtain ⟨hmay, hall⟩ := ih hrejected
    have hop : op.mayReject = true := by
      by_contra hoff
      rw [(not_rejected (Bool.eq_false_iff.mpr hoff)).2 next hnext] at hmay
      cases hmay
    exact ⟨hop, List.forall_mem_cons.mpr ⟨untouched_of_mayReject hop, hall⟩⟩

end

/-- In every interleaving of calls of `start_proof` with everything else the manager does: the scheduler has at most
one proof; a call that goes on to insert its proof finds no proof of its uuid and nothing in the scheduler, where only
such calls insert; and a rejected call leaves the stores alone. -/
theorem admission_exclusive {config : ManagerConfig} {A : App} (hrun : AppRun config AppArrivals App.start A) :
    (∀ u v, (A.state.slices u).scheduler.isSome = true → (A.state.slices v).scheduler.isSome = true → u = v) ∧
    (∀ req, .insertProof req ∈ A.ops → (A.state.slices req.context.proofUuid).proof = none) ∧
    (∀ req, .insertProof req ∈ A.ops ∨ .initProof req ∈ A.ops → ∀ u, (A.state.slices u).scheduler = none) ∧
    (∀ (op : AppOp) (c : Choice) (u : String), (A.state.slices u).proof = none →
      ((op.exec config c A.state).state.slices u).proof ≠ none →
        ∃ req, op = .insertProof req ∧ req.context.proofUuid = u) ∧
    (∀ (op : AppOp) (c : Choice) (u : String), (A.state.slices u).scheduler = none →
      ((op.exec config c A.state).state.slices u).scheduler ≠ none →
        ∃ req, op = .initProof req ∧ req.context.proofUuid = u) ∧
    ∀ req steps rejection, CallRun config (.startProof req) steps (some rejection) →
      ∀ step ∈ steps, step.Untouched := by
  have h := gated_of_run hrun
  refine ⟨h.single, h.fresh, fun req hreq => ?_, fun op c u hnone hsome => ?_, fun op c u hnone hsome => ?_,
    fun req steps rejection hcall => (untouched_of_rejected hcall rfl).2⟩
  · rcases hreq with hreq | hreq
    · exact h.idle _ hreq trivial
    · exact h.idle _ hreq trivial
  · obtain ⟨ps', hps'⟩ := Option.ne_none_iff_exists'.mp hsome
    rcases proof_app hps' with ⟨ps, hps, -⟩ | ⟨req, hop, huuid, -⟩
    · simp [hnone] at hps
    · exact ⟨req, hop, huuid⟩
  · rcases scheduler_app (Option.isSome_iff_ne_none.mpr hsome) with hold | ⟨req, hop, huuid⟩
    · simp [hnone] at hold
    · exact ⟨req, hop, huuid⟩

/-- Two calls race for an idle deployment, step by step in turn. -/
theorem admission_exclusive_sample : ∃ A : App, (A.state.slices "proof").scheduler.isSome = true ∧
    (A.state.slices "canceled").proof = none ∧
    (∀ u, (A.state.slices u).scheduler.isSome = true → u = "proof") := by
  obtain ⟨A, hrun, hA⟩ := TaskPool.exists_run_of_play (AppOp.exec sampleConfig) appArrivals App.start
    ([.arrive [.startProof (sampleRequest "canceled" valid_canceled 300)],
      .arrive [.startProof (sampleRequest "proof" valid_sample 300)]] ++
      (List.replicate 6 [.run 0 sampleChoice, .run 1 sampleChoice]).flatten)
    (fun A => (A.state.slices "proof").scheduler.isSome && (A.state.slices "canceled").proof.isNone) (by decide +kernel)
  obtain ⟨hentry, hnone⟩ := (Bool.and_eq_true _ _).mp hA
  obtain ⟨hsingle, -⟩ := admission_exclusive (hrun.mono appArrivals_of_bool)
  exact ⟨A, hentry, Option.isNone_iff_eq_none.mp hnone, fun u hu => hsingle u "proof" hu hentry⟩

end EdgeProver
