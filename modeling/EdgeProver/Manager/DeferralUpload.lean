import EdgeProver.Manager.Sealed
import EdgeProver.Manager.StagedInputs
import EdgeProver.Manager.UploadInput

/-! The way of the deferral artifacts of a proof: from its upload over the check of `start_proof` to the bundle of
states that every worker gets, and to the bundle of inputs that goes out with the final internal prove. -/
namespace EdgeProver

/-- `states.remove(&i).unwrap_or_default()` for each of the indices. -/
def takeStates : List Nat → List (Nat × Bytes) → List Bytes
  | [], _ => []
  | i :: indices, states => (states.lookup i).getD [] :: takeStates indices (KeyedList.remove i states)

/-- The `DeferralState`s as `start_proof` fans them out. -/
def StagedInputs.stateBundle (staged : StagedInputs) : List Bytes :=
  takeStates (List.range staged.deferralStates.length) staged.deferralStates

/-- The `DeferralInput`s in the order in which their map is iterated. -/
def StagedInputs.inputBundle (staged : StagedInputs) : List Bytes := staged.deferralInputs.map Prod.snd

/-- What `push_deferral_inputs_jit` posts before the work is sent. -/
def Manager.pushes (m : Manager) (work : AssignedWork) : Option (List Bytes) :=
  if work.isDeferralTail then m.staged.map (·.inputBundle) else none

/-- What `start_proof` does once the deferral upload was found complete. -/
def afterDeferralCheck (proofUuid : String) (req : StartRequest) (staged : StagedInputs) : List Op :=
  if req.inputAlreadyUploaded && decide (staged.deferralStates.length > 0) then
    abortProof ("input_already_uploaded=true is incompatible with deferral: stage the deferral " ++
      "artifacts (and the input) on the manager instead")
  else if req.inputAlreadyUploaded then afterUpload req staged
  else if staged.main.isSome then [.upload req staged]
  else
    abortProof (s!"no input staged for proof {proofUuid}: POST the bincode StdIn to " ++
      s!"/upload_input/{proofUuid} before /start_proof (or set " ++
      "input_already_uploaded=true to pre-upload directly to workers)")

def incompleteReason (proofUuid : String) (states inputs : List Nat) : String :=
  s!"incomplete deferral upload for proof {proofUuid}: need one DeferralState and " ++
    "one DeferralInput per circuit at contiguous indices 0..N (got state idx " ++
    s!"{states}, input idx {inputs})"

def incompleteDeferralUpload (proofUuid : String) (staged : StagedInputs) : String :=
  incompleteReason proofUuid (staged.deferralStates.map Prod.fst) (staged.deferralInputs.map Prod.fst)

section
variable {staged : StagedInputs} {proofUuid : String} {req : StartRequest} {count : Nat}

private theorem checkStaged_eq : checkStaged proofUuid req staged =
    if staged.deferralComplete then afterDeferralCheck proofUuid req staged
    else abortProof (incompleteDeferralUpload proofUuid staged) := by
  rw [checkStaged]
  cases staged.deferralComplete <;> rfl

private theorem toString_eq (text : String) : toString text = text := rfl

private theorem third_of_incomplete (proofUuid : String) (states inputs : List Nat) :
    (incompleteReason proofUuid states inputs).toList[2]? = some 'c' := by
  delta incompleteReason
  simp only [toString_eq, String.toList_append, List.append_assoc]
  rw [List.getElem?_append_left (by decide)]
  decide

private theorem afterDeferralCheck_ne (proofUuid : String) (req : StartRequest) (staged staged' : StagedInputs) :
    afterDeferralCheck proofUuid req staged ≠ abortProof (incompleteDeferralUpload proofUuid staged') := by
  intro hsame
  have hreason : ∀ message, abortProof message = abortProof (incompleteDeferralUpload proofUuid staged') →
      message.toList[2]? = some 'c' := by
    intro message habort
    rw [Op.abort.inj (List.cons.inj habort).1]
    exact third_of_incomplete proofUuid _ _
  rw [afterDeferralCheck, afterUpload] at hsame
  split at hsame
  · have hthird := hreason _ hsame
    simp only [String.toList_append] at hthird
    rw [List.getElem?_append_left (by decide)] at hthird
    revert hthird
    decide
  · split at hsame
    · split at hsame <;> cases hsame
    · split at hsame
      · cases hsame
      · have hthird := hreason _ hsame
        simp only [toString_eq, String.toList_append, List.append_assoc] at hthird
        rw [List.getElem?_append_left (by decide)] at hthird
        revert hthird
        decide

private theorem delivers_eq (m : Manager) (c : Choice) (work : AssignedWork) :
    m.delivers c work = (((m.pushes work).isNone || c.pushed) && c.sent) := by
  rw [Manager.delivers, Manager.pushes]
  cases work.isDeferralTail <;> cases m.staged <;> rfl

private theorem takeStates_eq {indices : List Nat} (hnodup : indices.Nodup) (states : List (Nat × Bytes)) :
    takeStates indices states = indices.map fun i => (states.lookup i).getD [] := by
  induction indices generalizing states with
  | nil => rfl
  | cons i indices ih =>
    obtain ⟨hi, hnodup⟩ := List.nodup_cons.mp hnodup
    rw [takeStates, ih hnodup, List.map_cons]
    apply congrArg (List.cons _)
    apply List.map_congr_left
    intro j hj
    have hne : ¬ (j == i) = true := by
      rw [beq_iff_eq]
      rintro rfl
      exact hi hj
    rw [KeyedList.lookup_remove, if_neg hne]

private theorem StagedInputs.Contiguous.stateBundle (h : staged.Contiguous count) (hordered : staged.Ordered) :
    staged.stateBundle.length = count ∧ ∀ i, staged.stateBundle[i]? = staged.artifact (.state i) := by
  rw [StagedInputs.stateBundle, takeStates_eq List.nodup_range, h.length hordered]
  refine ⟨by rw [List.length_map, List.length_range], fun i => ?_⟩
  rw [List.getElem?_map]
  by_cases hi : i < count
  · obtain ⟨bytes, hbytes⟩ := Option.isSome_iff_exists.mp ((h.1 i).mpr hi)
    rw [List.getElem?_range hi, hbytes, Option.map_some]
    rw [show staged.deferralStates.lookup i = some bytes from hbytes]
    rfl
  · have hnone : staged.artifact (.state i) = none := Option.not_isSome_iff_eq_none.mp (mt (h.1 i).mp hi)
    rw [hnone, List.getElem?_eq_none (by rw [List.length_range]; exact Nat.le_of_not_lt hi)]
    rfl

private theorem StagedInputs.Contiguous.inputBundle (h : staged.Contiguous count) (hordered : staged.Ordered) :
    staged.inputBundle.length = count ∧ ∀ i, staged.inputBundle[i]? = staged.artifact (.input i) := by
  have hkeys := h.inputs_keys hordered
  constructor
  · rw [StagedInputs.inputBundle, List.length_map, ← List.length_map (f := Prod.fst), hkeys, List.length_range]
  · exact KeyedList.values_of_range hkeys

end

/-- The artifacts are those of the upload, or there are no states among them. -/
def StagedInputs.From (staged upload : StagedInputs) : Prop :=
  staged.deferralStates = [] ∨
    staged.deferralStates = upload.deferralStates ∧ staged.deferralInputs = upload.deferralInputs

def Op.Carries (upload : StagedInputs) : Op → Prop
  | .upload _ staged => staged.From upload
  | .fanout _ staged =>
    staged.deferralStates = upload.deferralStates ∧ staged.deferralInputs = upload.deferralInputs
  | .recordDeferral count => count = upload.deferralStates.length
  | .restage inputs => inputs = upload.deferralInputs
  | _ => True

def AppOp.Carries (proofUuid : String) (upload : StagedInputs) : AppOp → Prop
  | .step v op => v = proofUuid → op.Carries upload
  | .stage v _ => v ≠ proofUuid
  | _ => True

/-- An entry of the staged inputs: the upload, or the inputs that `start_proof` staged again. -/
def StagedInputs.KeptOf (staged upload : StagedInputs) : Prop :=
  staged.deferralInputs = upload.deferralInputs ∧
    (staged.deferralStates = upload.deferralStates ∨ staged.stagedAt = none ∧ staged.deferralStates = [])

/-- Both entries of the uuid agree with the upload. -/
structure Manager.Follows (m : Manager) (upload : StagedInputs) : Prop where
  entry : ∀ staged, m.staged = some staged → staged.KeptOf upload
  circuits : ∀ ps, m.proof = some ps →
    ps.deferralCircuitCount = 0 ∨ ps.deferralCircuitCount = upload.deferralStates.length

/-- What the manager holds for the uuid, and what is in flight, agrees with the upload. -/
structure Carried (proofUuid : String) (upload : StagedInputs) (A : App) : Prop where
  follows : (A.state.slices proofUuid).Follows upload
  ops : ∀ op ∈ A.ops, op.Carries proofUuid upload

section
variable {config : ManagerConfig} {proofUuid : String} {upload staged : StagedInputs} {c : Choice}
  {m : Manager} {op : Op}
  {ps ps' : ProofState} {d : AppState} {A A' : App} {l : AppLabel}

theorem StagedInputs.KeptOf.from (h : staged.KeptOf upload) : staged.From upload := by
  rcases h.2 with hstates | ⟨-, hnil⟩
  · exact .inr ⟨hstates, h.1⟩
  · exact .inl hnil

private theorem carries_of_prepares (h : op.prepares = false) : op.Carries upload := by
  cases op with
  | upload | fanout | recordDeferral | restage => cases h
  | _ => exact trivial

private theorem carries_abortProof (message : String) : ∀ op ∈ abortProof message, op.Carries upload := by
  intro op hop
  rw [abortProof, List.mem_cons, List.mem_cons, List.mem_singleton] at hop
  rcases hop with rfl | rfl | rfl <;> exact trivial

private theorem carries_afterUpload (h : staged.From upload) (req : StartRequest) :
    ∀ op ∈ afterUpload req staged, op.Carries upload := by
  intro op hop
  rw [afterUpload] at hop
  split at hop
  · next hsome =>
    obtain rfl := List.mem_singleton.mp hop
    refine h.resolve_left fun hnil => ?_
    rw [hnil] at hsome
    exact Nat.lt_irrefl _ hsome
  · obtain rfl := List.mem_singleton.mp hop
    exact trivial

private theorem carries_checkStaged (h : staged.From upload) (proofUuid : String) (req : StartRequest) :
    ∀ op ∈ checkStaged proofUuid req staged, op.Carries upload := by
  intro op hop
  rw [checkStaged_eq, afterDeferralCheck] at hop
  split at hop
  · split at hop
    · exact carries_abortProof _ op hop
    · split at hop
      · exact carries_afterUpload h req op hop
      · split at hop
        · obtain rfl := List.mem_singleton.mp hop
          exact h
        · exact carries_abortProof _ op hop
  · exact carries_abortProof _ op hop

private theorem carries_exec (h : op.Carries upload)
    (hentry : ∀ staged, m.staged = some staged → staged.KeptOf upload) :
    ∀ op' ∈ (op.exec proofUuid c m).next ++ (op.exec proofUuid c m).spawned.flatten, op'.Carries upload := by
  intro op' hop'
  cases hprepares : op.prepares with
  | false => exact carries_of_prepares (next_prepares hprepares m op' hop')
  | true =>
    cases op with
    | takeStaged req =>
      have hfrom : (m.staged.getD .empty).From upload := by
        cases hstaged : m.staged with
        | none => exact .inl rfl
        | some staged => exact (hentry staged hstaged).from
      rw [Op.exec, goOn, List.flatten_nil, List.append_nil] at hop'
      exact carries_checkStaged hfrom proofUuid req op' hop'
    | upload req staged =>
      rw [Op.exec] at hop'
      split at hop'
      · rw [goOn, List.flatten_nil, List.append_nil] at hop'
        exact carries_afterUpload h req op' hop'
      · rw [goOn, List.flatten_nil, List.append_nil, List.mem_cons, List.mem_singleton] at hop'
        rcases hop' with rfl | rfl <;> exact trivial
    | fanout req staged =>
      rw [Op.exec] at hop'
      split at hop'
      · rw [goOn, List.flatten_nil, List.append_nil, List.mem_cons, List.mem_cons, List.mem_singleton] at hop'
        rcases hop' with rfl | rfl | rfl
        · exact congrArg List.length h.1
        · exact h.2
        · exact trivial
      · rw [goOn, List.flatten_nil, List.append_nil] at hop'
        exact carries_abortProof _ op' hop'
    | recordDeferral | restage | abort => cases hop'
    | _ => cases hprepares

private theorem writeProof_circuits (h : op.writeProof proofUuid c ps = some ps') :
    ps'.deferralCircuitCount = ps.deferralCircuitCount ∨
      ∃ count, op = .recordDeferral count ∧ ps'.deferralCircuitCount = count := by
  cases op with
  | recordDeferral count =>
    obtain rfl := Option.some.inj h
    exact .inr ⟨count, rfl, rfl⟩
  | process workerId envelope =>
    rw [Op.writeProof] at h
    split at h
    · obtain rfl := Option.some.inj h
      exact .inl rfl
    · obtain rfl := Option.some.inj h
      rw [ProofState.handleEnvelope_eq]
      split
      · exact .inl rfl
      · exact .inl (ProofState.frame_handleProofResult _ _).deferralCircuitCount
  | evict =>
    rw [Op.writeProof] at h
    split at h
    · cases h
    · obtain rfl := Option.some.inj h
      exact .inl rfl
  | transition =>
    obtain rfl := Option.some.inj h
    rw [ProofState.transitionFailingToFailed]
    split <;> exact .inl rfl
  | persist =>
    obtain rfl := Option.some.inj h
    simp only [ProofState.finalize, ProofState.compactCompletedState]
    split <;> split <;> exact .inl rfl
  | dispatchFailed reason =>
    obtain rfl := Option.some.inj h
    rw [ProofState.dispatchFailed]
    split <;> exact .inl rfl
  | cancel =>
    obtain rfl := Option.some.inj h
    rw [ProofState.cancel]
    split <;> exact .inl rfl
  | timeoutCheck now =>
    obtain rfl := Option.some.inj h
    rw [ProofState.markTimedOut]
    split
    · split <;> exact .inl rfl
    · exact .inl rfl
  | markFailing message =>
    obtain rfl := Option.some.inj h
    rw [ProofState.markFailing]
    split <;> exact .inl rfl
  | _ =>
    obtain rfl := Option.some.inj h
    exact .inl rfl

theorem follows_app {appOp : AppOp} (hop : appOp.Carries proofUuid upload)
    (hd : (d.slices proofUuid).Follows upload) :
    ((appOp.exec config c d).state.slices proofUuid).Follows upload := by
  constructor
  · intro staged hstaged
    rcases staged_app hstaged with hkeep | ⟨-, hnone⟩ | ⟨inputs, rfl, hrestage⟩ | ⟨other, rfl, -⟩
    · exact hd.entry staged hkeep.symm
    · cases hnone
    · obtain rfl := Option.some.inj hrestage
      exact ⟨hop rfl, .inr ⟨rfl, rfl⟩⟩
    · exact absurd rfl hop
  · intro ps' hps'
    rcases proof_app hps' with ⟨ps, hps, rfl | ⟨op, rfl, hwrite⟩⟩ | ⟨req, -, -, rfl⟩
    · exact hd.circuits _ hps
    · rcases writeProof_circuits hwrite with hsame | ⟨count, rfl, hcount⟩
      · rw [hsame]
        exact hd.circuits ps hps
      · exact .inr (hcount.trans (hop rfl))
    · exact .inl rfl

/-- A step of the application puts nothing in flight that has other artifacts. -/
theorem carries_app {appOp : AppOp} (hop : appOp.Carries proofUuid upload)
    (hd : (d.slices proofUuid).Follows upload) :
    ∀ op' ∈ (appOp.exec config c d).next ++ (appOp.exec config c d).spawned.flatten,
      op'.Carries proofUuid upload := by
  intro op' hop'
  cases appOp with
  | step v op =>
    by_cases hevict : op = .evict
    · subst hevict
      obtain rfl := List.mem_singleton.mp hop'
      exact trivial
    · rw [exec_step hevict] at hop'
      dsimp only at hop'
      rw [← List.map_flatten, ← List.map_append] at hop'
      obtain ⟨next, hnext, rfl⟩ := List.mem_map.mp hop'
      rintro rfl
      exact carries_exec (hop rfl) hd.entry next hnext
  | startProof req | checkBusy req | checkDuplicate req =>
    rw [AppOp.exec] at hop'
    split at hop' <;>
      simp only [proceed, List.flatten_nil, List.append_nil, List.mem_singleton, List.not_mem_nil] at hop'
    all_goals
      obtain rfl := hop'
      exact trivial
  | insertProof req =>
    obtain rfl := List.mem_singleton.mp hop'
    exact trivial
  | initProof req =>
    obtain rfl := List.mem_singleton.mp hop'
    exact fun _ => trivial
  | stage v staged | evictRemove v | sweepRemove v => cases hop'
  | evictPass now remaining found | sweepPass now remaining found =>
    cases remaining with
    | nil =>
      rw [AppOp.exec, proceed, List.flatten_nil, List.append_nil] at hop'
      obtain ⟨v, -, rfl⟩ := List.mem_map.mp hop'
      exact trivial
    | cons v remaining =>
      obtain rfl := List.mem_singleton.mp hop'
      exact trivial
  | watchdog =>
    rw [AppOp.exec, proceed, List.flatten_nil, List.append_nil, List.mem_append, List.mem_singleton] at hop'
    rcases hop' with hvisit | rfl
    · obtain ⟨v, -, hvisit⟩ := List.mem_flatMap.mp hvisit
      obtain ⟨visit, hkind, rfl⟩ := List.mem_map.mp hvisit
      rw [watchdogTask, List.mem_cons, List.mem_singleton] at hkind
      rcases hkind with rfl | rfl <;> exact fun _ => trivial
    · exact trivial
  | sweep now =>
    obtain rfl := List.mem_singleton.mp hop'
    exact trivial

/-- Requests arrive as always, but no other upload for the uuid. -/
def NoOtherUpload (proofUuid : String) (_ : App) : AppLabel → Prop
  | .arrive task => isArrival task = true ∧ ∀ staged, task ≠ [.stage proofUuid staged]
  | .run _ _ => True

private theorem carries_arrival {task : List AppOp} (h : isArrival task = true)
    (hother : ∀ staged, task ≠ [.stage proofUuid staged]) : ∀ op ∈ task, op.Carries proofUuid upload := by
  intro op hop
  rw [isArrival.eq_def] at h
  split at h
  · next v staged =>
    obtain rfl := List.mem_singleton.mp hop
    rintro rfl
    exact hother staged rfl
  · obtain rfl := List.mem_singleton.mp hop
    exact trivial
  · obtain rfl := List.mem_singleton.mp hop
    exact fun _ => trivial
  · obtain rfl := List.mem_singleton.mp hop
    exact fun _ => trivial
  · obtain rfl := List.mem_singleton.mp hop
    exact trivial
  · cases h

private theorem carried_step (h : Carried proofUuid upload A) (hallowed : NoOtherUpload proofUuid A l)
    (hstep : AppStep config A l A') : Carried proofUuid upload A' := by
  constructor
  · cases l with
    | arrive task =>
      cases hstep
      exact h.follows
    | run op c =>
      rw [(TaskPool.ops_run hstep).1]
      exact follows_app (h.ops op (TaskPool.op_mem hstep)) h.follows
  · refine TaskPool.forall_ops_step ?_ ?_ h.ops hstep
    · rintro task rfl
      exact carries_arrival hallowed.1 hallowed.2
    · intro op c _ hop
      exact carries_app hop h.follows

private theorem carried_run (h : Carried proofUuid upload A) (hrun : AppRun config (NoOtherUpload proofUuid) A A') :
    Carried proofUuid upload A' :=
  hrun.invariant (fun _ _ _ hbefore hallowed hstep => carried_step hbefore hallowed hstep) h

/-- The body uploads states and inputs of exactly the circuits below `count`. -/
def Multipart.HasCircuits (body : Multipart) (count : Nat) : Prop :=
  (∀ i, (lastUploaded (.state i) body.parts).isSome ↔ i < count) ∧
    ∀ i, (lastUploaded (.input i) body.parts).isSome ↔ i < count

/-- The step has artifacts of the uuid in its hands. -/
def AppOp.holdsInputs (proofUuid : String) : AppOp → Bool
  | .step v (.upload _ _) | .step v (.fanout _ _) | .step v (.recordDeferral _) | .step v (.restage _)
  | .stage v _ => v == proofUuid
  | _ => false

/-- No `start_proof` goes on with artifacts of the uuid taken earlier, and none has recorded its circuits. -/
structure Unstarted (proofUuid : String) (A : App) : Prop where
  idle : ∀ op ∈ A.ops, op.holdsInputs proofUuid = false
  circuits : ∀ ps, (A.state.slices proofUuid).proof = some ps → ps.deferralCircuitCount = 0

private theorem carries_of_idle {op : AppOp} (h : op.holdsInputs proofUuid = false) : op.Carries proofUuid upload := by
  cases op with
  | step v op =>
    rintro rfl
    cases op with
    | upload | fanout | recordDeferral | restage =>
      rw [AppOp.holdsInputs, beq_self_eq_true] at h
      cases h
    | _ => exact trivial
  | stage v staged =>
    rintro rfl
    rw [AppOp.holdsInputs, beq_self_eq_true] at h
    cases h
  | _ => exact trivial

private theorem carried_of_stage (hstage : AppStep config A (.run (.stage proofUuid upload) c) A')
    (hunstarted : Unstarted proofUuid A') : Carried proofUuid upload A' := by
  refine ⟨⟨fun staged hstaged => ?_, fun ps hps => .inl (hunstarted.circuits ps hps)⟩,
    fun op hop => carries_of_idle (hunstarted.idle op hop)⟩
  rw [(TaskPool.ops_run hstage).1, AppOp.exec, proceed, AppState.put_slices, Function.update_self] at hstaged
  obtain rfl := Option.some.inj hstaged
  exact ⟨rfl, .inl rfl⟩

private theorem contiguous_of_upload {body : Multipart} {count : Nat}
    (hupload : uploadInput proofUuid body = .ok upload) :
    body.HasCircuits count ↔ upload.Contiguous count := by
  obtain ⟨hlast, -⟩ := uploadInput_ok hupload
  rw [Multipart.HasCircuits, StagedInputs.Contiguous]
  simp only [hlast]

/-- An entry that still has the time of its upload has all artifacts of it. -/
theorem StagedInputs.KeptOf.of_stagedAt (h : staged.KeptOf upload) (htime : staged.stagedAt.isSome = true) :
    staged.deferralStates = upload.deferralStates ∧ staged.deferralInputs = upload.deferralInputs := by
  refine ⟨h.2.resolve_right ?_, h.1⟩
  rintro ⟨hnone, -⟩
  rw [hnone] at htime
  cases htime

private theorem next_takeStaged (hstaged : m.staged = some staged) (req : StartRequest) :
    ((Op.takeStaged req).exec proofUuid c m).next = checkStaged proofUuid req staged := by
  rw [Op.exec, goOn, hstaged, Option.getD_some]

private theorem next_takeStaged_iff (hstaged : m.staged = some staged) (req : StartRequest) :
    ((Op.takeStaged req).exec proofUuid c m).next = afterDeferralCheck proofUuid req staged ↔
      staged.deferralComplete = true := by
  rw [next_takeStaged hstaged, checkStaged_eq]
  cases staged.deferralComplete with
  | true => exact iff_of_true rfl rfl
  | false => exact iff_of_false (afterDeferralCheck_ne _ _ _ _).symm Bool.false_ne_true

end

/-- The bundle has for each of the circuits below `count` the bytes uploaded last for it. -/
def Multipart.Bundles (body : Multipart) (artifact : Nat → Artifact) (count : Nat) (bundle : List Bytes) : Prop :=
  bundle.length = count ∧ ∀ i, bundle[i]? = lastUploaded (artifact i) body.parts

/-- The proof that sends this work hands over its bundle with it. -/
def Manager.PushesInputs (m : Manager) (body : Multipart) (count : Nat) : Prop :=
  ∀ work, work.isDeferralTail = true → ∃ bundle, m.pushes work = some bundle ∧ body.Bundles .input count bundle

/-- What a manager that carries an upload does with it, when `start_proof` takes it and from then on. -/
structure Delivers (proofUuid : String) (body : Multipart) (count : Nat) (A : App) : Prop where
  fanout : ∀ req staged, .step proofUuid (.fanout req staged) ∈ A.ops →
    body.Bundles .state count staged.stateBundle
  /-- After a fan-out, the number of circuits is recorded and their inputs are staged again, before any kickoff. -/
  goesOn : ∀ req staged c, .step proofUuid (.fanout req staged) ∈ A.ops → c.sent = true →
    ∃ inputs : List (Nat × Bytes), body.Bundles .input count (inputs.map Prod.snd) ∧
      ((Op.fanout req staged).exec proofUuid c (A.state.slices proofUuid)).next =
        [.recordDeferral count, .restage inputs, startKickoff req]
  record : ∀ n c ps, .step proofUuid (.recordDeferral n) ∈ A.ops → (A.state.slices proofUuid).proof = some ps →
    ((Op.recordDeferral n).exec proofUuid c (A.state.slices proofUuid)).state.proof =
      some { ps with deferralCircuitCount := count }
  restage : ∀ inputs c, .step proofUuid (.restage inputs) ∈ A.ops →
    ((Op.restage inputs).exec proofUuid c (A.state.slices proofUuid)).state.PushesInputs body count
  circuits : ∀ ps, (A.state.slices proofUuid).proof = some ps →
    ps.deferralCircuitCount = 0 ∨ ps.deferralCircuitCount = count
  push : ∀ work bundle, (A.state.slices proofUuid).pushes work = some bundle →
    body.Bundles .input count bundle
  /-- No work that comes with a bundle is sent before the bundle is. -/
  sent : ∀ work bundle c, (A.state.slices proofUuid).pushes work = some bundle →
    (A.state.slices proofUuid).delivers c work = true → c.pushed = true

/-- The number of circuits and the inputs for the last internal prove are with the proof, or still to be written. -/
structure Supplied (proofUuid : String) (body : Multipart) (count : Nat) (A : App) : Prop where
  circuits : (∃ n, .step proofUuid (.recordDeferral n) ∈ A.ops) ∨
    ∀ ps, (A.state.slices proofUuid).proof = some ps → ps.deferralCircuitCount = count
  inputs : (∃ inputs, .step proofUuid (.restage inputs) ∈ A.ops) ∨
    (A.state.slices proofUuid).PushesInputs body count

/-- No other upload for the uuid, and neither are its staged inputs removed nor does another proof of it begin. -/
def Retaining (proofUuid : String) (A : App) (l : AppLabel) : Prop :=
  NoOtherUpload proofUuid A l ∧ ∀ op c, l = .run op c → op.dropsStaged proofUuid = false ∧
    ∀ req, op = .insertProof req → req.context.proofUuid ≠ proofUuid

structure Recorded (proofUuid : String) (upload : StagedInputs) (A : App) : Prop where
  circuits : (∃ n, .step proofUuid (.recordDeferral n) ∈ A.ops) ∨
    ∀ ps, (A.state.slices proofUuid).proof = some ps → ps.deferralCircuitCount = upload.deferralStates.length
  inputs : (∃ inputs, .step proofUuid (.restage inputs) ∈ A.ops) ∨
    ∃ staged, (A.state.slices proofUuid).staged = some staged ∧ staged.deferralInputs = upload.deferralInputs

section
variable {config : ManagerConfig} {proofUuid : String} {body : Multipart} {upload : StagedInputs} {count : Nat}
  {c : Choice} {m : Manager} {d : AppState} {A A' : App} {l : AppLabel} {appOp : AppOp}

/-- A step that begins no other proof of the uuid leaves its number of circuits, or writes the one of the upload. -/
theorem circuits_app (hop : appOp.Carries proofUuid upload)
    (hbegins : ∀ req, appOp = .insertProof req → req.context.proofUuid ≠ proofUuid)
    (h : ∀ ps, (d.slices proofUuid).proof = some ps → ps.deferralCircuitCount = upload.deferralStates.length) :
    ∀ ps, ((appOp.exec config c d).state.slices proofUuid).proof = some ps →
      ps.deferralCircuitCount = upload.deferralStates.length := by
  intro ps' hps'
  rcases proof_app hps' with ⟨ps, hps, rfl | ⟨op, rfl, hwrite⟩⟩ | ⟨req, rfl, huuid, -⟩
  · exact h _ hps
  · rcases writeProof_circuits hwrite with hsame | ⟨n, rfl, hn⟩
    · exact hsame.trans (h ps hps)
    · exact hn.trans (hop rfl)
  · exact absurd huuid (hbegins req rfl)

/-- A step that does not remove the staged inputs of the uuid leaves them, or stages those of the upload again. -/
theorem inputs_app (hop : appOp.Carries proofUuid upload) (hdrops : appOp.dropsStaged proofUuid = false)
    (h : ∃ staged, (d.slices proofUuid).staged = some staged ∧ staged.deferralInputs = upload.deferralInputs) :
    ∃ staged, ((appOp.exec config c d).state.slices proofUuid).staged = some staged ∧
      staged.deferralInputs = upload.deferralInputs := by
  obtain ⟨staged, hstaged, hinputs⟩ := h
  rcases @staged_app config proofUuid c d appOp _ rfl with hkeep | ⟨hgone, -⟩ | ⟨inputs, rfl, hrestage⟩ |
    ⟨other, rfl, -⟩
  · exact ⟨staged, hkeep.trans hstaged, hinputs⟩
  · rw [hdrops] at hgone
    cases hgone
  · exact ⟨_, hrestage, hop rfl⟩
  · exact absurd rfl hop

private theorem recorded_step (hcarried : Carried proofUuid upload A) (hallowed : Retaining proofUuid A l)
    (hstep : AppStep config A l A') (h : Recorded proofUuid upload A) : Recorded proofUuid upload A' := by
  cases l with
  | arrive task =>
    cases hstep
    refine ⟨h.circuits.imp_left ?_, h.inputs.imp_left ?_⟩
    · rintro ⟨n, hop⟩
      exact ⟨n, TaskPool.mem_ops_arrive.mpr (.inr hop)⟩
    · rintro ⟨inputs, hop⟩
      exact ⟨inputs, TaskPool.mem_ops_arrive.mpr (.inr hop)⟩
  | run op c =>
    have hop := hcarried.ops op (TaskPool.op_mem hstep)
    obtain ⟨hdrops, hbegins⟩ := hallowed.2 op c rfl
    have hstate := (TaskPool.ops_run hstep).1
    constructor
    · rcases h.circuits with ⟨n, hpending⟩ | hdone
      · rcases TaskPool.ops_step hpending hstep with hpending | ⟨c', hrun⟩
        · exact .inl ⟨n, hpending⟩
        · obtain ⟨rfl, rfl⟩ := TaskPool.Label.run.inj hrun
          refine .inr fun ps hps => ?_
          rw [hstate, exec_step (by simp), AppState.put_slices, Function.update_self, exec_proof] at hps
          obtain ⟨before, -, hwrite⟩ := Option.bind_eq_some_iff.mp hps
          obtain rfl := Option.some.inj hwrite
          exact hop rfl
      · rw [hstate]
        exact .inr (circuits_app hop hbegins hdone)
    · rcases h.inputs with ⟨inputs, hpending⟩ | hdone
      · rcases TaskPool.ops_step hpending hstep with hpending | ⟨c', hrun⟩
        · exact .inl ⟨inputs, hpending⟩
        · obtain ⟨rfl, rfl⟩ := TaskPool.Label.run.inj hrun
          refine .inr ⟨{ StagedInputs.empty with deferralInputs := inputs }, ?_, hop rfl⟩
          rw [hstate, exec_step (by simp), AppState.put_slices, Function.update_self]
          rfl
      · rw [hstate]
        exact .inr (inputs_app hop hdrops hdone)

private theorem recorded_run (hcarried : Carried proofUuid upload A) (hrun : AppRun config (Retaining proofUuid) A A')
    (h : Recorded proofUuid upload A) : Recorded proofUuid upload A' := by
  refine (TaskPool.Run.invariant (I := fun A : App => Carried proofUuid upload A ∧ Recorded proofUuid upload A)
    ?_ ⟨hcarried, h⟩ hrun).2
  rintro A l A' ⟨hcarried, h⟩ hallowed hstep
  exact ⟨carried_step hcarried hallowed.1 hstep, recorded_step hcarried hallowed hstep h⟩

private theorem recorded_of_fanout {req : StartRequest} {staged : StagedInputs} (hsent : c.sent = true)
    (hstep : AppStep config A (.run (.step proofUuid (.fanout req staged)) c) A') : Recorded proofUuid upload A' := by
  have hnext : ∀ op ∈ [Op.recordDeferral staged.deferralStates.length, .restage staged.deferralInputs],
      .step proofUuid op ∈ A'.ops := by
    intro op hop
    refine TaskPool.next_mem hstep ?_
    rw [exec_step (by simp), Op.exec, if_pos hsent]
    exact List.mem_map_of_mem (List.mem_append_left [startKickoff req] hop)
  exact ⟨.inl ⟨_, hnext _ List.mem_cons_self⟩, .inl ⟨_, hnext _ (List.mem_cons_of_mem _ List.mem_cons_self)⟩⟩

private theorem bundles_of_inputs (hupload : uploadInput proofUuid body = .ok upload) (hcount : body.HasCircuits count)
    {inputs : List (Nat × Bytes)} (hinputs : inputs = upload.deferralInputs) :
    body.Bundles .input count (inputs.map Prod.snd) := by
  obtain ⟨hlast, hordered⟩ := uploadInput_ok hupload
  obtain ⟨hbundle, hentry⟩ := ((contiguous_of_upload hupload).mp hcount).inputBundle hordered
  subst hinputs
  exact ⟨hbundle, fun i => (hentry i).trans (hlast _)⟩

private theorem pushes_of_staged (hupload : uploadInput proofUuid body = .ok upload) (hcount : body.HasCircuits count)
    {staged : StagedInputs} (hstaged : m.staged = some staged)
    (hinputs : staged.deferralInputs = upload.deferralInputs) : m.PushesInputs body count := by
  intro work htail
  refine ⟨staged.inputBundle, ?_, bundles_of_inputs hupload hcount hinputs⟩
  rw [Manager.pushes, if_pos htail, hstaged]
  rfl

private theorem delivers_of_carried (hupload : uploadInput proofUuid body = .ok upload)
    (hcarried : Carried proofUuid upload A)
    (hcount : body.HasCircuits count) : Delivers proofUuid body count A := by
  obtain ⟨hlast, hordered⟩ := uploadInput_ok hupload
  have hcontiguous := (contiguous_of_upload hupload).mp hcount
  have hlength := hcontiguous.length hordered
  constructor
  · intro req staged hop
    obtain ⟨hbundle, hentry⟩ := hcontiguous.stateBundle hordered
    have hsame : staged.stateBundle = upload.stateBundle := by
      rw [StagedInputs.stateBundle, (hcarried.ops _ hop rfl).1, StagedInputs.stateBundle]
    rw [hsame]
    exact ⟨hbundle, fun i => (hentry i).trans (hlast _)⟩
  · intro req staged c hop hsent
    obtain ⟨hstates, hinputs⟩ := hcarried.ops _ hop rfl
    refine ⟨staged.deferralInputs, bundles_of_inputs hupload hcount hinputs, ?_⟩
    rw [Op.exec, if_pos hsent, goOn, hstates, hlength]
  · intro n c ps hop hps
    rw [exec_proof, hps, ← hlength, ← show n = upload.deferralStates.length from hcarried.ops _ hop rfl]
    rfl
  · intro inputs c hop
    exact pushes_of_staged hupload hcount rfl (hcarried.ops _ hop rfl)
  · intro ps hps
    rw [← hlength]
    exact hcarried.follows.circuits ps hps
  · intro work bundle hpush
    rw [Manager.pushes] at hpush
    split at hpush
    · obtain ⟨staged, hstaged, rfl⟩ := Option.map_eq_some_iff.mp hpush
      exact bundles_of_inputs hupload hcount (hcarried.follows.entry staged hstaged).1
    · cases hpush
  · intro work bundle c hpush hsent
    rw [delivers_eq, hpush, Option.isNone_some, Bool.false_or, Bool.and_eq_true] at hsent
    exact hsent.1

private theorem supplied_of_recorded (hupload : uploadInput proofUuid body = .ok upload)
    (hcount : body.HasCircuits count)
    (h : Recorded proofUuid upload A) : Supplied proofUuid body count A := by
  have hlength := ((contiguous_of_upload hupload).mp hcount).length (uploadInput_ok hupload).2
  refine ⟨h.circuits.imp_right fun hdone => ?_, h.inputs.imp_right ?_⟩
  · rwa [hlength] at hdone
  · rintro ⟨staged, hstaged, hinputs⟩
    exact pushes_of_staged hupload hcount hstaged hinputs

end

/-- A body that `upload_input` accepts and `start_proof` still finds goes past the check for the deferral artifacts if
and only if its states and its inputs are those of the circuits below one and the same number. The workers then get
the bytes uploaded last for each of the states. From a fan-out that succeeds on, once its two writes are done, the
number of circuits is theirs and the last internal prove goes out with the bytes uploaded last for each of the
inputs, as long as these are not removed. -/
theorem deferral_upload_round_trip {config : ManagerConfig} {proofUuid : String} {body : Multipart}
    {upload : StagedInputs} {B A₀ A : App} {c : Choice} (hupload : uploadInput proofUuid body = .ok upload)
    (hstage : AppStep config B (.run (.stage proofUuid upload) c) A₀) (hunstarted : Unstarted proofUuid A₀)
    (hrun : AppRun config (NoOtherUpload proofUuid) A₀ A) :
    (∀ req staged c', (A.state.slices proofUuid).staged = some staged → staged.stagedAt.isSome = true →
      (((Op.takeStaged req).exec proofUuid c' (A.state.slices proofUuid)).next =
          afterDeferralCheck proofUuid req staged ↔ ∃ count, body.HasCircuits count) ∧
      ((¬ ∃ count, body.HasCircuits count) →
        ((Op.takeStaged req).exec proofUuid c' (A.state.slices proofUuid)).next =
          abortProof (incompleteDeferralUpload proofUuid staged))) ∧
    ∀ count, body.HasCircuits count → Delivers proofUuid body count A ∧
      ∀ (req : StartRequest) (staged : StagedInputs) (c' : Choice) (A₁ A₂ : App), c'.sent = true →
        AppStep config A (.run (.step proofUuid (.fanout req staged)) c') A₁ →
        AppRun config (Retaining proofUuid) A₁ A₂ → Supplied proofUuid body count A₂ := by
  have hcarried := carried_run (carried_of_stage hstage hunstarted) hrun
  refine ⟨fun req staged c' hstaged htime => ?_, fun count hcount => ⟨delivers_of_carried hupload hcarried hcount, ?_⟩⟩
  · obtain ⟨hstates, hinputs⟩ := (hcarried.follows.entry staged hstaged).of_stagedAt htime
    have hcomplete : staged.deferralComplete = true ↔ ∃ count, body.HasCircuits count := by
      rw [StagedInputs.deferralComplete, hstates, hinputs, ← StagedInputs.deferralComplete,
        deferralComplete_iff (uploadInput_ok hupload).2]
      simp only [contiguous_of_upload hupload]
    constructor
    · rw [next_takeStaged_iff hstaged, hcomplete]
    · intro hnone
      rw [next_takeStaged hstaged, checkStaged_eq, if_neg (mt hcomplete.mp hnone)]
  · intro req staged c' A₁ A₂ hsent hfanout hretaining
    have hafter := carried_step hcarried (l := .run (.step proofUuid (.fanout req staged)) c') trivial hfanout
    exact supplied_of_recorded hupload hcount (recorded_run hafter hretaining (recorded_of_fanout hsent hfanout))

def samplePart (name : String) (bytes : Bytes) : Part := ⟨some name, .ok bytes⟩

/-- The artifacts of two circuits out of order, and one of them twice. -/
def sampleBody : Multipart :=
  ⟨[samplePart "deferral_input_1" [5], samplePart "deferral_state_1" [2], samplePart "deferral_state_0" [9],
    samplePart "input" [1], samplePart "deferral_input_0" [6], samplePart "deferral_state_0" [4]], none⟩

def sampleHalf : Multipart := ⟨[samplePart "deferral_state_0" [2]], none⟩

def App.staged (upload : StagedInputs) (c : Choice) : App :=
  ⟨AppState.empty.put "proof" { Manager.empty with staged := some { upload with stagedAt := some c.now } }, [[]]⟩

private theorem staged_step (upload : StagedInputs) (c : Choice) :
    AppStep sampleConfig ⟨.empty, [[.stage "proof" upload]]⟩ (.run (.stage "proof" upload) c)
    (App.staged upload c) := by
  have hmove : TaskPool.Pool.move (AppOp.exec sampleConfig) ⟨.empty, [[.stage "proof" upload]]⟩ (.run 0 c) =
      some (.run (.stage "proof" upload) c, App.staged upload c) := rfl
  exact TaskPool.step_of_move hmove

private theorem unstarted_staged (upload : StagedInputs) (c : Choice) : Unstarted "proof" (App.staged upload c) := by
  constructor
  · intro op hop
    cases hop
  · intro ps hps
    rw [App.staged, AppState.put_slices, Function.update_self] at hps
    cases hps

def noOtherUpload (A : App) : AppLabel → Bool
  | .arrive [.stage proofUuid _] => proofUuid != "proof"
  | l => appArrivals A l

private theorem noOtherUpload_of_bool (A : App) (l : AppLabel) (h : noOtherUpload A l = true) :
    NoOtherUpload "proof" A l := by
  cases l with
  | run op c => exact trivial
  | arrive task =>
    rw [noOtherUpload.eq_def] at h
    split at h
    · next v staged htask =>
      obtain rfl := TaskPool.Label.arrive.inj htask
      refine ⟨rfl, fun staged' heq => ?_⟩
      obtain ⟨rfl, -⟩ := AppOp.stage.inj (List.cons.inj heq).1
      exact absurd rfl (bne_iff_ne.mp h)
    · next hother =>
      refine ⟨h, fun staged heq => ?_⟩
      exact hother "proof" staged (congrArg _ heq)

def retaining (A : App) : AppLabel → Bool
  | .run (.insertProof req) _ => req.context.proofUuid != "proof"
  | .run op _ => !op.dropsStaged "proof"
  | l => noOtherUpload A l

private theorem retaining_of_bool (A : App) (l : AppLabel) (h : retaining A l = true) : Retaining "proof" A l := by
  cases l with
  | arrive task =>
    refine ⟨noOtherUpload_of_bool A _ h, fun op c heq => ?_⟩
    cases heq
  | run op c =>
    refine ⟨trivial, ?_⟩
    rintro op' c' heq
    obtain ⟨rfl, rfl⟩ := TaskPool.Label.run.inj heq
    cases op with
    | insertProof req =>
      refine ⟨rfl, fun req' hreq => ?_⟩
      obtain rfl := AppOp.insertProof.inj hreq
      exact bne_iff_ne.mp h
    | _ =>
      refine ⟨by simpa [retaining] using h, fun req' hreq => ?_⟩
      cases hreq

def fansOut (bundle : List Bytes) : AppLabel → Bool
  | .run (.step proofUuid (.fanout _ staged)) c => proofUuid == "proof" && staged.stateBundle == bundle && c.sent
  | _ => false

def sendsTail (bundle : List Bytes) (A : App) : Bool :=
  A.ops.any (fun
    | .step proofUuid (.send work _) =>
      proofUuid == "proof" && work.isDeferralTail && (A.state.slices "proof").pushes work == some bundle
    | _ => false) &&
  A.ops.all (fun
    | .step _ (.recordDeferral _) | .step _ (.restage _) => false
    | _ => true)

def deferralStartMoves : List (TaskPool.Move Choice AppOp) :=
  appMoves 0 [.startProof { sampleRequest "proof" valid_sample 3600 with inputAlreadyUploaded := false }] 7

/-- What the workers make of it, up to the dispatch of the last internal proof. -/
def deferralResultMoves : List (TaskPool.Move Choice AppOp) :=
  List.replicate 4 (.run 0 sampleChoice) ++ resultMoves 0 (sampleE2 1) 7 ++ resultMoves 0 (sampleApp 0) 8 ++
    resultMoves 0 (sampleLeaf 0) 8 ++ resultMoves 0 (sampleInternal 0 0 0) 7

/-- The proof of the two circuits fans out its states, and its last internal proof is sent with their inputs. -/
theorem deferral_upload_round_trip_sample : ∃ (A A₂ : App) (work : AssignedWork) (retries : Nat),
    Delivers "proof" sampleBody 2 A ∧ Supplied "proof" sampleBody 2 A₂ ∧
    .step "proof" (.send work retries) ∈ A₂.ops ∧ work.isDeferralTail = true ∧
    (A₂.state.slices "proof").pushes work = some [[6], [5]] ∧
    ∀ ps, (A₂.state.slices "proof").proof = some ps → ps.deferralCircuitCount = 2 := by
  have hupload : uploadInput "proof" sampleBody =
      .ok ⟨some [1], [(0, [4]), (1, [2])], [(0, [6]), (1, [5])], none⟩ := by decide +kernel
  obtain ⟨A, l, A₁, A₂, hrun, hfanout, hl, hafter, hA₂⟩ := TaskPool.exists_step_of_play (AppOp.exec sampleConfig)
    noOtherUpload retaining
    (App.staged ⟨some [1], [(0, [4]), (1, [2])], [(0, [6]), (1, [5])], none⟩ { sampleChoice with now := 0 })
    deferralStartMoves (.run 0 sampleChoice) deferralResultMoves (fansOut [[4], [2]]) (sendsTail [[6], [5]])
    (by decide +kernel)
  obtain ⟨count, hcount⟩ := (deferralComplete_iff (uploadInput_ok hupload).2).mp (by decide)
  have htwo : 2 = count := hcount.length (uploadInput_ok hupload).2
  subst htwo
  obtain ⟨hdelivers, hsupplied⟩ := (deferral_upload_round_trip hupload (staged_step _ _) (unstarted_staged _ _)
    (hrun.mono noOtherUpload_of_bool)).2 2 ((contiguous_of_upload hupload).mpr hcount)
  rw [fansOut.eq_def] at hl
  split at hl
  · next proofUuid req staged c =>
    simp only [Bool.and_eq_true, beq_iff_eq] at hl
    obtain ⟨⟨rfl, -⟩, hsent⟩ := hl
    have hA₂' := hsupplied req staged c A₁ A₂ hsent hfanout (hafter.mono retaining_of_bool)
    obtain ⟨hany, hall⟩ := (Bool.and_eq_true _ _).mp hA₂
    obtain ⟨op, hop, htail⟩ := List.any_eq_true.mp hany
    split at htail
    · next proofUuid work retries =>
      simp only [Bool.and_eq_true, beq_iff_eq] at htail
      obtain ⟨⟨rfl, hwork⟩, hpush⟩ := htail
      refine ⟨A, A₂, work, retries, hdelivers, hA₂', hop, hwork, hpush, hA₂'.circuits.resolve_left ?_⟩
      rintro ⟨n, hpending⟩
      exact Bool.false_ne_true (List.all_eq_true.mp hall _ hpending)
    · cases htail
  · cases hl

def takesNothing (A : App) : Bool :=
  (A.state.slices "proof").staged.isNone && A.ops.any fun
    | .step proofUuid (.takeStaged req) => proofUuid == "proof" && req.inputAlreadyUploaded
    | _ => false

/-- The upload is swept before `start_proof` looks for it, and the check finds a lack of everything complete. -/
theorem deferral_upload_swept : ¬ ∀ (config : ManagerConfig) (proofUuid : String) (body : Multipart)
    (upload : StagedInputs) (B A₀ A : App) (c : Choice), uploadInput proofUuid body = .ok upload →
    AppStep config B (.run (.stage proofUuid upload) c) A₀ → Unstarted proofUuid A₀ →
    AppRun config (NoOtherUpload proofUuid) A₀ A → ∀ req c', .step proofUuid (.takeStaged req) ∈ A.ops →
    (((Op.takeStaged req).exec proofUuid c' (A.state.slices proofUuid)).next =
        afterDeferralCheck proofUuid req ((A.state.slices proofUuid).staged.getD .empty) ↔
      ∃ count, body.HasCircuits count) := by
  intro hall
  have hupload : uploadInput "proof" sampleHalf = .ok ⟨none, [(0, [2])], [], none⟩ := by decide +kernel
  obtain ⟨A, hrun, hA⟩ := TaskPool.exists_run_of_play (AppOp.exec sampleConfig) noOtherUpload
    (App.staged ⟨none, [(0, [2])], [], none⟩ { sampleChoice with now := 0 })
    (appMoves (301 * 1000000000) [.watchdog] 5 ++
      appMoves (301 * 1000000000) [.startProof (sampleRequest "proof" valid_sample 3600)] 5)
    takesNothing (by decide +kernel)
  obtain ⟨hnone, htake⟩ := (Bool.and_eq_true _ _).mp hA
  obtain ⟨op, hop, htake⟩ := List.any_eq_true.mp htake
  split at htake
  · next proofUuid req =>
    obtain ⟨huuid, hreq⟩ := (Bool.and_eq_true _ _).mp htake
    obtain rfl := beq_iff_eq.mp huuid
    have hiff := hall sampleConfig "proof" sampleHalf _ _ _ A _ hupload (staged_step _ _) (unstarted_staged _ _)
      (hrun.mono noOtherUpload_of_bool) req sampleChoice hop
    have hpast : ((Op.takeStaged req).exec "proof" sampleChoice (A.state.slices "proof")).next =
        afterDeferralCheck "proof" req ((A.state.slices "proof").staged.getD .empty) := by
      rw [Op.exec, goOn, checkStaged_eq, Option.isNone_iff_eq_none.mp hnone]
      rfl
    obtain ⟨count, hstates, hinputs⟩ := hiff.mp hpast
    have hlt : 0 < count := (hstates 0).mp (by decide)
    have hinput : (lastUploaded (.input 0) sampleHalf.parts).isSome = true := (hinputs 0).mpr hlt
    revert hinput
    decide
  · cases htake

end EdgeProver
