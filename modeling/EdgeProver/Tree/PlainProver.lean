import EdgeProver.Lib.LevelFold
import EdgeProver.Tree.DeferralTail
import EdgeProver.Worker.Provers

/-! The fleet against one machine that folds the whole tree by itself, level by level. -/
namespace EdgeProver
open FoldMachine FoldMachine.State Gather ProofState Outcome LevelFold

/-- What the proof of a segment comes to, on whatever worker. -/
structure ProvedSegment (P U : Type) where
  proof : ProofWithPublicValue P U
  finalMerklePathBytes : Option Bytes
  deferralMerkleProofsBytes : Option Bytes

section
variable {P U M R E : Type}

namespace RecursionSdk
variable (sdk : RecursionSdk P U M R E)

/-- What folds a group of level `v`: app proofs into a leaf, the proofs of any other level into a layer. -/
def combine : Nat → List (ProofWithPublicValue P U) → Except Raised (ProofWithPublicValue P U)
  | 0, proofs => sdk.aggregateLeaf proofs
  | layerIdx + 1, proofs => sdk.aggregateInternal layerIdx proofs

/-- The final internal proof on one machine, with the merkle proofs of its merge. -/
def plainFinal (p : TreeParams) (n : Nat) (apps : Nat → ProofWithPublicValue P U) (tail : Option DeferralTailDispatch) :
    Except Raised (ProofWithPublicValue P U × Option M) := do
  let top ← level (treeFan p.leafArity p.internalArity) sdk.combine (p.finalLayer n + 2) ((List.range n).map apps)
  match top with
  | [root] => sdk.finishInternal p.context (p.finalLayer n) tail root
  | _ => .error (.failed "the tree has no single root")

end RecursionSdk

/-- The payload of the tail merge, from the path that the terminal segment ships. -/
def TreeParams.tailDispatch (p : TreeParams) (n : Nat) (finalMerklePathBytes : Option Bytes) :
    Option DeferralTailDispatch :=
  if p.deferralCircuitCount = 0 then none else some ⟨p.tailMetadata n, finalMerklePathBytes.getD []⟩

/-- One delivery of a run in which the workers' own provers do the work: the result of the executor, of an app prover,
or of the task of an outstanding request. -/
inductive FleetStep (sdk : RecursionSdk P U M R E) (apps : Nat → ProvedSegment P U) (n : Nat) :
    TreeState → TreeState → Prop where
  | executeE2 (s : TreeState) (now : Time) (envelope : MessageEnvelope ProofResult) (r : ExecuteE2Result) :
      envelope.message = .executeE2 r → r.state.numSegments = n → r.state.cost = 0 →
      (∀ q ∈ s.delivered, q.isExecuteE2 = false) → FleetStep sdk apps n s (s.deliver s.outstanding now envelope)
  | app (s : TreeState) (now : Time) (envelope : MessageEnvelope ProofResult) (r : AppProof) (bytes : ProofBytes) :
      envelope.message = .app r → r.state.segmentIdx < n →
      r.state = ⟨some bytes, r.state.segmentIdx, (apps r.state.segmentIdx).finalMerklePathBytes,
        (apps r.state.segmentIdx).deferralMerkleProofsBytes⟩ →
      sdk.decodeProof bytes = .ok (apps r.state.segmentIdx).proof →
      (∀ q ∈ s.delivered, q.appSegment ≠ some r.state.segmentIdx) →
      FleetStep sdk apps n s (s.deliver s.outstanding now envelope)
  | answer (s : TreeState) (now : Time) (envelope : MessageEnvelope ProofResult)
      (before after : List GeneralProveRequest) (req : GeneralProveRequest) (faults : PoolFaults) (net : Network)
      (task : TaskEnd) : s.outstanding = before ++ req :: after → sdk.recursionTask faults net req = .ok task →
      envelope.message ∈ task.produced → FleetStep sdk apps n s (s.deliver (before ++ after) now envelope)

def FleetRun (sdk : RecursionSdk P U M R E) (apps : Nat → ProvedSegment P U) (p : TreeParams) (n : Nat) :
    TreeState → Prop :=
  Relation.ReflTransGen (FleetStep sdk apps n) (.start p)

variable {sdk : RecursionSdk P U M R E} {apps : Nat → ProvedSegment P U} {p : TreeParams} {n : Nat}
  {s s' : TreeState} {m m' : State ProofBytes}

/-- What a worker's task produced answers its request. -/
theorem answers_of_task (hcodec : sdk.RoundTrips) {faults : PoolFaults} {net : Network} {req : GeneralProveRequest}
    {task : TaskEnd} {r : ProofResult} (htask : sdk.recursionTask faults net req = .ok task) (hr : r ∈ task.produced) :
    Answers req r := by
  cases req with
  | leafProve q =>
    obtain ⟨appProofs, leaf, bytes, -, -, -, rfl⟩ := RecursionSdk.leaf_produced htask hr
    exact ⟨rfl, rfl, rfl⟩
  | internalProve q =>
    obtain ⟨childProofs, internalProof, result, -, -, rfl, hstate⟩ := RecursionSdk.internal_produced hcodec htask hr
    split at hstate
    · obtain ⟨final, merkle, bytes, -, -, hproof, -⟩ := hstate.proof
      exact ⟨hstate.layer, hstate.covers.1, hstate.covers.2, by rw [hproof]; rfl⟩
    · obtain ⟨bytes, -, hstate⟩ := hstate
      rw [Answers, hstate]
      exact ⟨rfl, rfl, rfl, rfl⟩
  | evmProve q =>
    obtain ⟨final, merkle, evm, bytes, -, -, -, -, rfl⟩ := RecursionSdk.evm_produced hcodec htask hr
    rfl

theorem FleetStep.honest (hcodec : sdk.RoundTrips) (h : FleetStep sdk apps n s s') : HonestStep n s s' := by
  cases h with
  | executeE2 now envelope r hmsg hr _ hfresh => exact .executeE2 s now envelope r hmsg hr hfresh
  | app now envelope r bytes hmsg hlt hstate _ hfresh =>
    refine .app s now envelope r hmsg hlt ?_ hfresh
    rw [hstate]
    rfl
  | answer now envelope before after req faults net task hout htask hr =>
    exact .answer s now envelope before after req hout (answers_of_task hcodec htask hr)

theorem FleetRun.honest (hcodec : sdk.RoundTrips) (h : FleetRun sdk apps p n s) : HonestRun p n s :=
  Relation.ReflTransGen.mono (fun _ _ hstep => hstep.honest hcodec) _ _ h

def Origin (sdk : RecursionSdk P U M R E) (apps : Nat → ProvedSegment P U) (n : Nat)
    (emitted : List GeneralProveRequest) :
    ProofResult → Prop
  | .executeE2 r => r.state.numSegments = n ∧ r.state.cost = 0
  | .app r => r.state.segmentIdx < n ∧ ∃ bytes, r.state = ⟨some bytes, r.state.segmentIdx,
      (apps r.state.segmentIdx).finalMerklePathBytes, (apps r.state.segmentIdx).deferralMerkleProofsBytes⟩ ∧
      sdk.decodeProof bytes = .ok (apps r.state.segmentIdx).proof
  | r => ∃ req ∈ emitted, ∃ faults net task, sdk.recursionTask faults net req = .ok task ∧ r ∈ task.produced

theorem Origin.mono {emitted emitted' : List GeneralProveRequest} (hsub : emitted ⊆ emitted') {r : ProofResult}
    (h : Origin sdk apps n emitted r) : Origin sdk apps n emitted' r := by
  cases r with
  | executeE2 r => exact h
  | app r => exact h
  | leaf r | internal r | evm r | error r =>
    obtain ⟨req, hreq, htask⟩ := h
    exact ⟨req, hsub hreq, htask⟩

/-- A task only produces answers. -/
theorem origin_of_task (hcodec : sdk.RoundTrips) {faults : PoolFaults} {net : Network} {req : GeneralProveRequest}
    {task : TaskEnd} {r : ProofResult} {emitted : List GeneralProveRequest} (hreq : req ∈ emitted)
    (htask : sdk.recursionTask faults net req = .ok task) (hr : r ∈ task.produced) : Origin sdk apps n emitted r := by
  have hans := answers_of_task hcodec htask hr
  cases r with
  | executeE2 r => cases req <;> exact hans.elim
  | app r => cases req <;> exact hans.elim
  | leaf r | internal r | evm r | error r => exact ⟨req, hreq, faults, net, task, htask, hr⟩

theorem FleetStep.origin (hcodec : sdk.RoundTrips) (hsub : s.outstanding ⊆ s.emitted) (h : FleetStep sdk apps n s s') :
    ∃ rest now envelope, s' = s.deliver rest now envelope ∧ rest ⊆ s.emitted ∧
      Origin sdk apps n s.emitted envelope.message := by
  cases h with
  | executeE2 now envelope r hmsg hr hcost _ =>
    refine ⟨_, now, envelope, rfl, hsub, ?_⟩
    rw [hmsg]
    exact ⟨hr, hcost⟩
  | app now envelope r bytes hmsg hlt hstate hdecode _ =>
    refine ⟨_, now, envelope, rfl, hsub, ?_⟩
    rw [hmsg]
    exact ⟨hlt, bytes, hstate, hdecode⟩
  | answer now envelope before after req faults net task hout htask hr =>
    rw [hout] at hsub
    refine ⟨_, now, envelope, rfl, fun q hq => hsub ?_, origin_of_task hcodec (hsub (by simp)) htask hr⟩
    exact (List.mem_append.mp hq).elim (List.mem_append_left _)
      fun hq => List.mem_append_right _ (List.mem_cons_of_mem _ hq)

theorem FleetRun.origin (hcodec : sdk.RoundTrips) (h : FleetRun sdk apps p n s) :
    s.outstanding ⊆ s.emitted ∧ ∀ r ∈ s.delivered, Origin sdk apps n s.emitted r := by
  induction h with
  | refl => exact ⟨List.Subset.refl _, fun r hr => absurd hr List.not_mem_nil⟩
  | tail _ hstep ih =>
    obtain ⟨hsub, horigin⟩ := ih
    obtain ⟨rest, now, envelope, rfl, hrest, hnew⟩ := hstep.origin hcodec hsub
    refine ⟨List.append_subset.mpr ⟨fun q hq => List.mem_append_left _ (hrest hq), List.subset_append_right _ _⟩, ?_⟩
    intro r hr
    apply Origin.mono (List.subset_append_left _ _)
    rcases List.mem_append.mp hr with hr | hr
    · exact horigin r hr
    · rw [List.mem_singleton.mp hr]
      exact hnew

theorem Origin.leaf {emitted : List GeneralProveRequest} {r : LeafProof} (hcodec : sdk.RoundTrips)
    (h : Origin sdk apps n emitted (.leaf r)) : ∃ q appProofs leaf bytes, .leafProve q ∈ emitted ∧
      q.appProofs.mapM sdk.decodeProof = .ok appProofs ∧ sdk.aggregateLeaf appProofs = .ok leaf ∧
      sdk.encodeProof leaf = .ok bytes ∧ r.state = ⟨some bytes, q.segmentStart, q.segmentEnd⟩ := by
  obtain ⟨req, hreq, faults, net, task, htask, hr⟩ := h
  have hans := answers_of_task hcodec htask hr
  cases req with
  | leafProve q =>
    obtain ⟨appProofs, leaf, bytes, hdecode, hleaf, hbytes, he⟩ := RecursionSdk.leaf_produced htask hr
    obtain rfl := ProofResult.leaf.inj he
    exact ⟨q, appProofs, leaf, bytes, hreq, hdecode, hleaf, hbytes, rfl⟩
  | internalProve q => exact hans.elim
  | evmProve q => exact hans.elim

theorem Origin.internal {emitted : List GeneralProveRequest} {r : InternalProof} (hcodec : sdk.RoundTrips)
    (h : Origin sdk apps n emitted (.internal r)) : ∃ q childProofs internalProof, .internalProve q ∈ emitted ∧
      q.childProofs.mapM sdk.decodeProof = .ok childProofs ∧
      sdk.aggregateInternal q.layerIdx childProofs = .ok internalProof ∧
      if q.isFinalProof then sdk.Finished q internalProof r.state
      else ∃ bytes, sdk.encodeProof internalProof = .ok bytes ∧
        r.state = ⟨some bytes, q.layerIdx, q.segmentStart, q.segmentEnd, none, false⟩ := by
  obtain ⟨req, hreq, faults, net, task, htask, hr⟩ := h
  have hans := answers_of_task hcodec htask hr
  cases req with
  | leafProve q => exact hans.elim
  | internalProve q =>
    obtain ⟨childProofs, internalProof, result, hdecode, hinternal, he, hstate⟩ :=
      RecursionSdk.internal_produced hcodec htask hr
    obtain rfl := ProofResult.internal.inj he
    exact ⟨q, childProofs, internalProof, hreq, hdecode, hinternal, hstate⟩
  | evmProve q => exact hans.elim

theorem Origin.evm {emitted : List GeneralProveRequest} {r : EvmProof} (hcodec : sdk.RoundTrips)
    (h : Origin sdk apps n emitted (.evm r)) : ∃ q final merkle evm bytes, .evmProve q ∈ emitted ∧
      sdk.decodeProof q.internalProofBytes = .ok final ∧
      q.deferralMerkleProofsBytes.mapM sdk.decodeMerkleProofs = .ok merkle ∧
      sdk.evmOf ⟨q.context, final, merkle, q.proofHasDeferral⟩ = .ok evm ∧ sdk.encodeEvmProof evm = .ok bytes ∧
      r.state = ⟨some bytes⟩ := by
  obtain ⟨req, hreq, faults, net, task, htask, hr⟩ := h
  have hans := answers_of_task hcodec htask hr
  cases req with
  | leafProve q => exact hans.elim
  | internalProve q => exact hans.elim
  | evmProve q =>
    obtain ⟨final, merkle, evm, bytes, hfinal, hmerkle, hevm, hbytes, he⟩ := RecursionSdk.evm_produced hcodec htask hr
    obtain rfl := ProofResult.evm.inj he
    exact ⟨q, final, merkle, evm, bytes, hreq, hfinal, hmerkle, hevm, hbytes, rfl⟩

/-- The ExecuteE2 result precedes a leaf or internal result, so the segment count is known by then. -/
theorem Tracks.known_of_recursion (ht : Tracks p n s m) {r : ProofResult} {after : List ProofResult}
    (hfirst : ExecuteE2First (s.delivered ++ r :: after)) (hr : r.isRecursion = true) : m.known = true :=
  ht.executeE2.mp (hfirst _ r after rfl hr)

private theorem Disciplined.final_iff (h : Disciplined p n s m) (hk : m.known = true) {q : InternalProveRequest}
    (hq : .internalProve q ∈ s.emitted) :
    q.context = p.context ∧ (q.isFinalProof = true ↔ q.layerIdx = p.finalLayer n) := by
  have hmem : .internalProve q ∈ s.emitted.filter (! ·.isEvm) := List.mem_filter.mpr ⟨hq, rfl⟩
  rw [h.requests] at hmem
  obtain ⟨o, ho, he⟩ := List.mem_map.mp hmem
  have hm := h.tracks.mirrors
  obtain ⟨level, index, children⟩ := o
  match level, hm.inv.level_pos _ ho with
  | 1, _ => cases he
  | layerIdx + 2, _ =>
    rw [hm.requestOf_internal] at he
    obtain rfl := GeneralProveRequest.internalProve.inj he
    refine ⟨hm.context, ?_⟩
    simp [hk]

section
variable (hcodec : sdk.RoundTrips) (ha : Arities p.leafArity p.internalArity) (hn : 0 < n)
include hcodec ha hn

omit ha hn in
/-- The manager rejects no result of a worker's task, once the segment count is known. -/
theorem Disciplined.accepts (hd : Disciplined p n s m) {r : ProofResult} (horigin : Origin sdk apps n s.emitted r)
    (hknown : r.isRecursion = true → m.known = true) : Accepted p n [r] := by
  refine ⟨fun r' hr' => ?_, fun htype r' hr' hlayer => ?_⟩
  · rw [← List.mem_singleton.mp hr'] at horigin
    rw [horigin.2]
    exact Nat.zero_le _
  · have hmsg := List.mem_singleton.mp hr'
    have hk := hknown (by rw [← hmsg]; rfl)
    rw [← hmsg] at horigin
    obtain ⟨q, childProofs, internalProof, hq, -, -, hstate⟩ := horigin.internal hcodec
    obtain ⟨hcontext, hfinal⟩ := hd.final_iff hk hq
    split at hstate
    · rw [hstate.ready, hcontext, htype]
      rfl
    · next hnot =>
      obtain ⟨bytes, -, hstate⟩ := hstate
      rw [hstate] at hlayer
      exact absurd (hfinal.mpr hlayer) hnot

/-- The manager rejects no result of a fleet run. -/
theorem FleetRun.accepted (h : FleetRun sdk apps p n s) (hfirst : ExecuteE2First s.delivered) :
    Accepted p n s.delivered := by
  induction h with
  | refl => exact ⟨fun r hr => absurd hr List.not_mem_nil, fun _ r hr => absurd hr List.not_mem_nil⟩
  | @tail s s' hrun hstep ih =>
    have hrun : FleetRun sdk apps p n s := hrun
    obtain ⟨hsub, -⟩ := hrun.origin hcodec
    obtain ⟨rest, now, envelope, rfl, -, hnew⟩ := hstep.origin hcodec hsub
    have hacc := ih hfirst.of_append
    obtain ⟨m, hd⟩ := disciplined_of_run ha hn (hrun.honest hcodec) hacc hfirst.of_append
    exact hacc.append (hd.accepts hcodec hnew (hd.tracks.known_of_recursion hfirst))

omit hcodec ha hn in
private theorem carried {rs : List ProofResult} {v i : Nat} {b : ProofBytes} (h : nodeProofOf p rs v i = some b) :
    ∃ r ∈ rs, Carries p r v i b := by
  match v with
  | 0 =>
    obtain ⟨r, hr, hproof⟩ := List.exists_of_findSome?_eq_some h
    cases r <;> simp at hproof
    exact ⟨_, hr, hproof⟩
  | 1 =>
    obtain ⟨r, hr, hproof⟩ := List.exists_of_findSome?_eq_some h
    cases r <;> simp at hproof
    exact ⟨_, hr, hproof⟩
  | layerIdx + 2 =>
    obtain ⟨r, hr, hproof⟩ := List.exists_of_findSome?_eq_some h
    cases r <;> simp at hproof
    exact ⟨_, hr, hproof.1.1, hproof.2, hproof.1.2⟩

end

/-- Node `(v, i)` of the tree over the app proofs folds to this. -/
abbrev NodeFolds (sdk : RecursionSdk P U M R E) (apps : Nat → ProvedSegment P U) (p : TreeParams) (n : Nat) :
    Nat → Nat → ProofWithPublicValue P U → Prop :=
  Folds (p.plan n).fan n sdk.combine fun i => (apps i).proof

/-- The decoded children of a request, where each delivered child decodes to what its node folds to. -/
theorem folds_group {rs : List ProofResult} {v i : Nat} {children : List ProofBytes}
    {decoded : List (ProofWithPublicValue P U)}
    (hnode : ∀ j b, nodeProofOf p rs v j = some b → ∃ y, sdk.decodeProof b = .ok y ∧ NodeFolds sdk apps p n v j y)
    (hchildren : children.map some =
      (List.range' (i * (p.plan n).fan v) ((p.plan n).groupLen v i)).map (nodeProofOf p rs v))
    (hdecode : children.mapM sdk.decodeProof = .ok decoded) :
    List.Forall₂ (NodeFolds sdk apps p n v) (List.range' (i * (p.plan n).fan v) ((p.plan n).groupLen v i)) decoded := by
  refine forall₂_trans (fun j b y hj hb => ?_) (forall₂_of_map_eq hchildren.symm) (mapM_ok_iff.mp hdecode)
  obtain ⟨y', hy', hfolds⟩ := hnode j b hj
  rwa [Except.ok.inj (hb.symm.trans hy')]

section
variable (hcodec : sdk.RoundTrips) (ha : Arities p.leafArity p.internalArity) (hd : Disciplined p n s m)
  (horigin : ∀ r ∈ s.delivered, Origin sdk apps n s.emitted r) {v : Nat}
  (hnode : ∀ j b, nodeProofOf p s.delivered v j = some b → ∃ y, sdk.decodeProof b = .ok y ∧
      NodeFolds sdk apps p n v j y)
include hcodec ha hd horigin hnode

/-- An internal result, over a level whose delivered proofs are what their nodes fold to. -/
theorem folds_internal {layerIdx i : Nat} (hv : v = layerIdx + 1) {r : InternalProof} (hr : .internal r ∈ s.delivered)
    {b : ProofBytes} (hcarries : Carries p (.internal r) (layerIdx + 2) i b) :
    ∃ q internalProof, .internalProve q ∈ s.emitted ∧
      q.layerIdx = layerIdx ∧ NodeFolds sdk apps p n (layerIdx + 2) i internalProof ∧
      if q.isFinalProof then sdk.Finished q internalProof r.state else sdk.encodeProof internalProof = .ok b := by
  obtain ⟨q, childProofs, internalProof, hq, hdecode, hinternal, hstate⟩ := (horigin _ hr).internal hcodec
  obtain ⟨hlayer, hproof, hstart⟩ := hcarries
  have hkey : q.layerIdx = layerIdx ∧ q.segmentStart =
      segmentStartOfInternalProofForLeafCount p.leafArity p.internalArity layerIdx i := by
    split at hstate
    · exact ⟨hstate.layer.symm.trans hlayer, hstate.covers.1.symm.trans hstart⟩
    · obtain ⟨bytes, -, hstate⟩ := hstate
      rw [hstate] at hlayer hstart
      exact ⟨hlayer, hstart⟩
  obtain ⟨rfl, hstart⟩ := hkey
  have ho : orderOf p (.internalProve q) = some ⟨q.layerIdx + 2, i, q.childProofs⟩ := by
    rw [orderOf, hstart, segmentStartOfInternalProof_eq, segmentStartToInternalIdx_first ha]
  obtain ⟨-, hchildren⟩ := hd.tracks.history.children_delivered hq ho (v := v) (by rw [hv])
  subst hv
  refine ⟨q, internalProof, hq, rfl, ⟨childProofs, folds_group hnode hchildren hdecode, hinternal⟩, ?_⟩
  split
  · next hfinal => rwa [if_pos hfinal] at hstate
  · next hfinal =>
    rw [if_neg hfinal] at hstate
    obtain ⟨bytes, hbytes, hstate⟩ := hstate
    rw [hstate] at hproof
    rwa [← Option.some.inj hproof]

end

section
variable (hcodec : sdk.RoundTrips) (ha : Arities p.leafArity p.internalArity) (hd : Disciplined p n s m)
  (horigin : ∀ r ∈ s.delivered, Origin sdk apps n s.emitted r) (hk : m.known = true)
include hcodec ha hd horigin hk

/-- Below the root every delivered proof decodes to what its node folds to. -/
theorem folds_of_delivered {v : Nat} (hv : v < (p.plan n).top) {i : Nat} {b : ProofBytes}
    (h : nodeProofOf p s.delivered v i = some b) : ∃ y, sdk.decodeProof b = .ok y ∧ NodeFolds sdk apps p n v i y := by
  induction v generalizing i b with
  | zero =>
    obtain ⟨r, hr, hcarries⟩ := carried h
    cases r with
    | app r =>
      obtain ⟨rfl, hproof⟩ := hcarries
      obtain ⟨-, bytes, hstate, hdecode⟩ := horigin _ hr
      rw [hstate] at hproof
      rw [← Option.some.inj hproof]
      exact ⟨_, hdecode, rfl⟩
    | _ => exact hcarries.elim
  | succ v ih =>
    have hnode := fun j b (hj : nodeProofOf p s.delivered v j = some b) => ih (Nat.lt_of_succ_lt hv) hj
    obtain ⟨r, hr, hcarries⟩ := carried h
    match v, r, hcarries with
    | 0, .leaf r, ⟨hstart, hproof⟩ =>
      obtain ⟨q, appProofs, leaf, bytes, hq, hdecode, hleaf, hbytes, hstate⟩ := (horigin _ hr).leaf hcodec
      rw [hstate] at hstart hproof
      have ho : orderOf p (.leafProve q) = some ⟨1, i, q.appProofs⟩ := by
        rw [orderOf, show q.segmentStart = i * p.leafArity from hstart, Nat.mul_div_cancel i ha.leaf_pos]
      obtain ⟨-, hchildren⟩ := hd.tracks.history.children_delivered hq ho (v := 0) rfl
      obtain rfl := Option.some.inj hproof
      exact ⟨leaf, hcodec.proof _ _ hbytes, appProofs, folds_group hnode hchildren hdecode, hleaf⟩
    | layerIdx + 1, .internal r, hcarries =>
      obtain ⟨q, internalProof, hq, rfl, hfolds, hstate⟩ := folds_internal hcodec ha hd horigin hnode rfl hr hcarries
      have hbelow : q.layerIdx ≠ p.finalLayer n := by
        intro he
        rw [he] at hv
        exact Nat.lt_irrefl _ hv
      rw [if_neg fun hfinal => hbelow ((hd.final_iff hk hq).2.mp hfinal)] at hstate
      exact ⟨internalProof, hcodec.proof _ _ hstate, hfolds⟩

private theorem finished_of_delivered {r : InternalProof} (hr : .internal r ∈ s.delivered) {b : ProofBytes}
    (hcarries : Carries p (.internal r) (p.plan n).top 0 b) : ∃ q internalProof, .internalProve q ∈ s.emitted ∧
      q.isFinalProof = true ∧ q.layerIdx = p.finalLayer n ∧ q.context = p.context ∧
      NodeFolds sdk apps p n (p.plan n).top 0 internalProof ∧ sdk.Finished q internalProof r.state := by
  have hnode := fun j b (hj : nodeProofOf p s.delivered (p.finalLayer n + 1) j = some b) =>
    folds_of_delivered hcodec ha hd horigin hk (Nat.lt_succ_self _) hj
  obtain ⟨q, internalProof, hq, hlayer, hfolds, hstate⟩ := folds_internal hcodec ha hd horigin hnode rfl hr hcarries
  obtain ⟨hcontext, hfinal⟩ := hd.final_iff hk hq
  rw [if_pos (hfinal.mpr hlayer)] at hstate
  exact ⟨q, internalProof, hq, hfinal.mpr hlayer, hlayer, hcontext, hfolds, hstate⟩

end

/-- Only the terminal segment has public values and deferral payloads. -/
def OnlyTerminal (apps : Nat → ProvedSegment P U) (n : Nat) : Prop :=
  ∀ i, i + 1 < n → (apps i).proof.userPublicValues = none ∧ (apps i).finalMerklePathBytes = none ∧
    (apps i).deferralMerkleProofsBytes = none

def sampleSegments (i : Nat) : ProvedSegment Bytes UInt8 :=
  if i = 1 then ⟨⟨[9], some 5⟩, some [7], none⟩ else ⟨⟨[8], none⟩, none, none⟩

def sampleSegmentResult (i : Nat) (bytes : ProofBytes) : ProofResult :=
  .app ⟨sampleContext .evm, ⟨some bytes, i, (sampleSegments i).finalMerklePathBytes, none⟩⟩

def sampleExecuteE2 : ProofResult := .executeE2 ⟨sampleContext .evm, ⟨2, [], 0⟩⟩

def sampleAnswers : List ProofResult :=
  [.leaf ⟨sampleContext .evm, ⟨some [0, 1, 8], 0, 0⟩⟩,
    .leaf ⟨sampleContext .evm, ⟨some [1, 5, 1, 9], 1, 1⟩⟩,
    .internal ⟨sampleContext .evm, ⟨some [1, 5, 2, 1, 8, 1, 9], 0, 0, 1, none, false⟩⟩,
    .internal ⟨sampleContext .evm, ⟨some [1, 5, 3, 2, 1, 8, 1, 9, 7], 1, 0, 1, some [], true⟩⟩,
    .evm ⟨sampleContext .evm, ⟨some [6, 5, 3, 2, 1, 8, 1, 9, 7]⟩⟩]

def plainFleet : TreeState :=
  sampleAnswers.foldl TreeState.answer ((((TreeState.start (sampleParams .evm)).feed
    (sampleSegmentResult 0 [0, 8])).feed sampleExecuteE2).feed (sampleSegmentResult 1 [1, 5, 9]))

/-- What the workers' tasks answer takes the system from the three results to the EVM proof. -/
theorem plainFleet_of_answers {P : TreeState → Prop}
    (hanswer : ∀ (s : TreeState) (rest : List GeneralProveRequest) (req : GeneralProveRequest) (task : TaskEnd)
      (r : ProofResult), s.outstanding = req :: rest →
      RecursionSdk.sample.recursionTask .none (fun _ => .ok ()) req = .ok task → r ∈ task.produced → P s →
      P (s.answer r))
    (hfed : P ((((TreeState.start (sampleParams .evm)).feed (sampleSegmentResult 0 [0, 8])).feed sampleExecuteE2).feed
      (sampleSegmentResult 1 [1, 5, 9]))) : P plainFleet := by
  have hgo : ∀ (r : ProofResult) {s : TreeState}, P s → (∃ req task, s.outstanding.head? = some req ∧
      RecursionSdk.sample.recursionTask .none (fun _ => .ok ()) req = .ok task ∧ task.produced = [r]) →
      P (s.answer r) := by
    rintro r s h ⟨req, task, hout, htask, hr⟩
    obtain ⟨rest, hrest⟩ := List.head?_eq_some_iff.mp hout
    exact hanswer s rest req task r hrest htask (hr ▸ List.mem_singleton_self r) h
  have h1 := hgo (.leaf ⟨sampleContext .evm, ⟨some [0, 1, 8], 0, 0⟩⟩) hfed ⟨_, _, rfl, rfl, rfl⟩
  have h2 := hgo (.leaf ⟨sampleContext .evm, ⟨some [1, 5, 1, 9], 1, 1⟩⟩) h1 ⟨_, _, rfl, rfl, rfl⟩
  have h3 := hgo (.internal ⟨sampleContext .evm, ⟨some [1, 5, 2, 1, 8, 1, 9], 0, 0, 1, none, false⟩⟩) h2
    ⟨_, _, rfl, rfl, rfl⟩
  have h4 := hgo (.internal ⟨sampleContext .evm, ⟨some [1, 5, 3, 2, 1, 8, 1, 9, 7], 1, 0, 1, some [], true⟩⟩) h3
    ⟨_, _, rfl, rfl, rfl⟩
  exact hgo (.evm ⟨sampleContext .evm, ⟨some [6, 5, 3, 2, 1, 8, 1, 9, 7]⟩⟩) h4 ⟨_, _, rfl, rfl, rfl⟩

theorem fleetRun_sample : FleetRun .sample sampleSegments (sampleParams .evm) 2 plainFleet := by
  have h0 : FleetRun .sample sampleSegments (sampleParams .evm) 2 _ := .refl
  have h1 := h0.tail (.app _ 0 ⟨0, "", sampleSegmentResult 0 [0, 8]⟩ _ [0, 8] rfl (by decide) rfl rfl (by decide))
  have h2 := h1.tail (.executeE2 _ 0 ⟨0, "", sampleExecuteE2⟩ _ rfl rfl rfl (by decide))
  have h3 := h2.tail (.app _ 0 ⟨0, "", sampleSegmentResult 1 [1, 5, 9]⟩ _ [1, 5, 9] rfl (by decide) rfl rfl (by decide))
  refine plainFleet_of_answers (fun s rest req task r hout htask hr h => ?_) h3
  rw [TreeState.answer, hout, List.tail_cons]
  exact h.tail (.answer s 0 ⟨0, "", r⟩ [] rest req _ _ task hout htask hr)

private theorem onlyTerminal_sample : OnlyTerminal sampleSegments 2 := by
  intro i hi
  obtain rfl : i = 0 := by omega
  exact ⟨rfl, rfl, rfl⟩

theorem executeE2First_sample : ExecuteE2First plainFleet.delivered :=
  @executeE2First_of_early [sampleSegmentResult 0 [0, 8], sampleExecuteE2, sampleSegmentResult 1 [1, 5, 9]]
    sampleAnswers
    (by decide) (by decide)

/-- A proof with its final artifact is complete up to the EVM step. -/
theorem Tracks.complete_of_ready (ht : Tracks p n s m) (ha : Arities p.leafArity p.internalArity) (hn : 0 < n)
    (hready : s.ps.isReadyForFinalization = true) : Complete n s := by
  obtain ⟨hk, htop, -⟩ := ht.known_of_ready hready
  obtain ⟨happs, hout⟩ := ht.outstanding_of_top ha hn htop
  exact ⟨ht.executeE2.mpr hk, happs, hout⟩

private theorem shipped_terminal (hn : 0 < n) (horigin : ∀ r ∈ s.delivered, Origin sdk apps n s.emitted r)
    (hc : Complete n s) (field : AppProofState → Option Bytes) (part : ProvedSegment P U → Option Bytes)
    (hfield : ∀ bytes i path depth0, path = (apps i).finalMerklePathBytes →
      depth0 = (apps i).deferralMerkleProofsBytes →
      field ⟨bytes, i, path, depth0⟩ = part (apps i))
    (hpart : ∀ i, i + 1 < n → part (apps i) = none) : shippedBytes field s.delivered = part (apps (n - 1)) := by
  have hstate : ∀ r, .app r ∈ s.delivered → r.state.segmentIdx < n ∧
    field r.state = part (apps r.state.segmentIdx) := by
    intro r hr
    obtain ⟨hlt, bytes, hstate, -⟩ := horigin _ hr
    refine ⟨hlt, ?_⟩
    rw [hstate]
    exact hfield _ _ _ _ rfl rfl
  cases h : shippedBytes field s.delivered with
  | none =>
    obtain ⟨q, hq, hsegment⟩ := hc.apps (n - 1) (Nat.sub_lt hn Nat.one_pos)
    have hnone := List.findSome?_eq_none_iff.mp h q hq
    cases q with
    | app r =>
      obtain hidx : r.state.segmentIdx = n - 1 := Option.some.inj hsegment
      rw [← hidx, ← (hstate r hq).2]
      exact hnone.symm
    | _ => cases hsegment
  | some bytes =>
    obtain ⟨q, hq, hsome⟩ := List.exists_of_findSome?_eq_some h
    cases q with
    | app r =>
      obtain ⟨hlt, hr⟩ := hstate r hq
      have hidx : r.state.segmentIdx = n - 1 := by
        by_contra hne
        have hsome : field r.state = some bytes := hsome
        rw [hr, hpart _ (by omega)] at hsome
        cases hsome
      rw [← hidx, ← hr]
      exact hsome.symm
    | _ => cases hsome

/-- A group of which only the last member can have public values passes them on. -/
theorem userPublicValues_combine {v : Nat} {init : List (ProofWithPublicValue P U)} {last y : ProofWithPublicValue P U}
    (hinit : ∀ x ∈ init, x.userPublicValues = none) (h : sdk.combine v (init ++ [last]) = .ok y) :
    y.userPublicValues = last.userPublicValues := by
  cases v with
  | zero =>
    obtain ⟨proof, -, h⟩ := bind_ok_iff.mp h
    rw [← Except.ok.inj h, List.getLast?_concat]
    rfl
  | succ layerIdx =>
    obtain ⟨proof, -, h⟩ := bind_ok_iff.mp h
    rw [← Except.ok.inj h, List.reverse_append, List.reverse_singleton, List.singleton_append, List.findSome?_cons]
    cases last.userPublicValues with
    | some values => rfl
    | none => exact List.findSome?_eq_none_iff.mpr fun x hx => hinit x (List.mem_reverse.mp hx)

/-- The public values of the terminal segment travel up the last nodes of the levels. -/
theorem userPublicValues_of_folds (ha : Arities p.leafArity p.internalArity) (hterminal : OnlyTerminal apps n)
    {v i : Nat} {y : ProofWithPublicValue P U} (hi : i < FoldTree.width (p.plan n).fan n v)
    (h : NodeFolds sdk apps p n v i y) : y.userPublicValues =
      if i + 1 = FoldTree.width (p.plan n).fan n v then (apps (n - 1)).proof.userPublicValues else none := by
  induction v generalizing i y with
  | zero =>
    obtain rfl : y = (apps i).proof := h
    have hi : i < n := hi
    show _ = if i + 1 = n then _ else _
    split
    · next hlast => rw [show i = n - 1 by omega]
    · next hlast => exact (hterminal i (by omega)).1
  | succ v ih =>
    obtain ⟨xs, hxs, hcombine⟩ := h
    obtain ⟨hlen, hall⟩ := forall₂_range'.mp hxs
    have hpos := FoldTree.groupLen_pos (plan_fan_pos ha n) hi
    rcases List.eq_nil_or_concat xs with rfl | ⟨init, last, rfl⟩
    · rw [← hlen] at hpos
      exact absurd hpos (Nat.lt_irrefl 0)
    rw [List.concat_eq_append] at hlen hall hcombine
    rw [List.length_append, List.length_singleton] at hlen
    have hfit : i * (p.plan n).fan v + FoldTree.groupLen (p.plan n).fan n v i ≤
        FoldTree.width (p.plan n).fan n v := by
      have hin := (FoldTree.lt_width_succ (plan_fan_pos ha n v)).mp hi
      rw [FoldTree.groupLen]
      omega
    have hmember : ∀ k x, (init ++ [last])[k]? = some x → k ≤ init.length → x.userPublicValues =
        if i * (p.plan n).fan v + k + 1 = FoldTree.width (p.plan n).fan n v then
          (apps (n - 1)).proof.userPublicValues else none :=
      fun k x hk hle => ih (by omega) (hall k x hk)
    have hinit : ∀ x ∈ init, x.userPublicValues = none := by
      intro x hx
      obtain ⟨k, hk⟩ := List.mem_iff_getElem?.mp hx
      have hlt := (List.getElem?_eq_some_iff.mp hk).1
      rw [hmember k x (by rw [List.getElem?_append_left hlt, hk]) hlt.le, if_neg (by omega)]
    rw [userPublicValues_combine hinit hcombine, hmember init.length last (by simp) (le_refl _)]
    have hends := group_ends_iff (plan_fan_pos ha n) hi
    rw [Nat.add_assoc, hlen]
    exact if_congr hends rfl rfl

/-- What the manager stores as the final internal proof, against one machine. -/
structure StoresPlain (sdk : RecursionSdk P U M R E) (apps : Nat → ProvedSegment P U) (p : TreeParams) (n : Nat)
    (st : InternalProofState) (final : ProofWithPublicValue P U) (merkle : Option M) : Prop where
  plain : sdk.plainFinal p n (fun i => (apps i).proof) (p.tailDispatch n (apps (n - 1)).finalMerklePathBytes) =
    .ok (final, merkle)
  proof : ∃ bytes, st.proof = some bytes ∧ sdk.decodeProof bytes = .ok final
  merkleProofs : ∀ proofs, merkle = some proofs →
    ∃ bytes, st.deferralMerkleProofsBytes = some bytes ∧ sdk.decodeMerkleProofs bytes = .ok proofs
  /-- An EVM proof without a merge carries the depth-0 proofs of the terminal segment on. -/
  depth0 : merkle = none → p.context.proofType = .evm →
    st.deferralMerkleProofsBytes = (apps (n - 1)).deferralMerkleProofsBytes
  publicValues : p.deferralCircuitCount = 0 → final.userPublicValues = (apps (n - 1)).proof.userPublicValues

section
variable (hcodec : sdk.RoundTrips) (ha : Arities p.leafArity p.internalArity) (hn : 0 < n)
include hcodec ha hn

omit hcodec ha hn in
private theorem unmerged {context : ProofContext} {layerIdx : Nat} {tail : Option DeferralTailDispatch}
    {internalProof final : ProofWithPublicValue P U}
    (h : sdk.finishInternal context layerIdx tail internalProof = .ok (final, none)) : tail = none := by
  cases tail with
  | none => rfl
  | some t =>
    obtain ⟨merged, -, he⟩ := map_ok_iff.mp h
    cases he

/-- In an honest run all results of which a fleet made, the final internal proof is that of one machine. -/
theorem storesPlain_of_ready (hrun : HonestRun p n s) (hacc : Accepted p n s.delivered)
    (horigin : ∀ r ∈ s.delivered, Origin sdk apps n s.emitted r) (hterminal : OnlyTerminal apps n)
    (hfirst : ExecuteE2First s.delivered) (hready : s.ps.isReadyForFinalization = true) :
    ∃ q st final merkle, FinalProofDiscipline p n s q st ∧ StoresPlain sdk apps p n st final merkle := by
  obtain ⟨m, hd⟩ := disciplined_of_run ha hn hrun hacc hfirst
  have hc := hd.tracks.complete_of_ready ha hn hready
  obtain ⟨q, st, hfpd⟩ := finalProof_of_honestRun ha hn hrun hfirst hacc hc
  obtain ⟨r, hr, rfl, hans⟩ := hfpd.answer
  obtain ⟨b, hb⟩ := Option.isSome_iff_exists.mp hans.2.2.2
  have hcarries : Carries p (.internal r) (p.plan n).top 0 b := by
    refine ⟨hans.1.trans hfpd.layer, hb, ?_⟩
    rw [hans.2.1, hfpd.covers.1, segmentStartOfInternalProofForLeafCount, Nat.zero_mul, Nat.zero_mul]
  obtain ⟨q', root, hq', hfinal, hlayer, hcontext, hfolds, hfinished⟩ :=
    finished_of_delivered hcodec ha hd horigin (hd.tracks.executeE2.mp hc.executeE2) hr hcarries
  obtain rfl : q' = q := by
    have hmem : .internalProve q' ∈ s.emitted.filter (·.isFinal) := List.mem_filter.mpr ⟨hq', hfinal⟩
    rw [hfpd.final_once] at hmem
    exact GeneralProveRequest.internalProve.inj (List.mem_singleton.mp hmem)
  have hpath := shipped_terminal hn horigin hc (·.finalMerklePathBytes) (·.finalMerklePathBytes)
    (fun _ _ _ _ h _ => h) fun i hi => (hterminal i hi).2.1
  have hdepth0 := shipped_terminal hn horigin hc (·.deferralMerkleProofsBytes) (·.deferralMerkleProofsBytes)
    (fun _ _ _ _ _ h => h) fun i hi => (hterminal i hi).2.2
  have htail : q'.deferralTail = p.tailDispatch n (apps (n - 1)).finalMerklePathBytes := by
    rw [TreeParams.tailDispatch]
    split
    · next hnone =>
      rw [← Option.not_isSome_iff_eq_none, hfpd.tail_iff, hnone]
      exact Nat.lt_irrefl 0
    · next hsome =>
      obtain ⟨t, ht⟩ := Option.isSome_iff_exists.mp (hfpd.tail_iff.mpr (Nat.pos_of_ne_zero hsome))
      have hmeta := (tailed_of_run ha hn hrun q' t hq' ht).2
      have hbytes := hfpd.tail_path t ht
      rw [hpath] at hbytes
      obtain ⟨metadata, bytes⟩ := t
      simp only at hmeta hbytes
      rw [ht, hmeta, hbytes]
  obtain ⟨final, merkle, bytes, hfinish, hbytes, hproof, hmerkle⟩ := hfinished.proof
  rw [hcontext, hlayer, htail] at hfinish
  refine ⟨q', r.state, final, merkle, hfpd, ?_, ⟨bytes, hproof, hcodec.proof _ _ hbytes⟩, ?_, ?_, ?_⟩
  · have hroot := level_root (plan_fan_pos ha n) (width_top ha hn) hfolds
    rw [RecursionSdk.plainFinal]
    refine bind_ok_iff.mpr ⟨[root], hroot, hfinish⟩
  · intro proofs hproofs
    obtain ⟨merkleBytes, hencode, hstored⟩ := hmerkle proofs hproofs
    exact ⟨merkleBytes, hstored, hcodec.merkle _ _ hencode⟩
  · intro hnone hevm
    have hunmerged : q'.deferralTail = none := by
      rw [htail]
      exact unmerged (hnone ▸ hfinish)
    rw [hfinished.depth0 hunmerged, hcontext, if_pos hevm, hfpd.depth0, hdepth0]
  · intro hnone
    rw [TreeParams.tailDispatch, if_pos hnone] at hfinish
    obtain ⟨wrapped, hwrapped, he⟩ := map_ok_iff.mp hfinish
    have hw : FoldTree.width (p.plan n).fan n (p.plan n).top = 1 := width_top ha hn
    have hvalues := userPublicValues_of_folds ha hterminal (hw ▸ Nat.one_pos) hfolds
    rw [if_pos (Nat.zero_add 1 ▸ hw.symm)] at hvalues
    rw [← (Prod.mk.inj he).1, RecursionSdk.wrapFinal_ok hwrapped, hvalues]

/-- Within the word a fleet run is one of the machine, and the final internal proof that it leaves with the manager is
that of one machine over the same app proofs, whatever the order of the deliveries after the segment count and
whichever worker proved what. -/
theorem finalProof_plain (hw : p.WithinWord n) (hrun : FleetRun sdk apps p n s) (hterminal : OnlyTerminal apps n)
    (hfirst : ExecuteE2First s.delivered) (hready : s.ps.isReadyForFinalization = true) :
    (∀ overflowChecks, WordRun overflowChecks p n s) ∧
      ∃ st final merkle, s.ps.finalInternalState = some st ∧ StoresPlain sdk apps p n st final merkle := by
  refine ⟨fun overflowChecks => (wordRun_iff ha hn hw).mpr (hrun.honest hcodec), ?_⟩
  obtain ⟨q, st, final, merkle, hfpd, hplain⟩ := storesPlain_of_ready hcodec ha hn (hrun.honest hcodec)
    (hrun.accepted hcodec ha hn hfirst) (hrun.origin hcodec).2 hterminal hfirst hready
  exact ⟨st, final, merkle, hfpd.slot, hplain⟩

end

/-- The fleet merges the tail into the root of both segments. -/
theorem finalProof_plain_sample : ∃ st final merkle, plainFleet.ps.finalInternalState = some st ∧
    StoresPlain .sample sampleSegments (sampleParams .evm) 2 st final merkle :=
  (finalProof_plain RecursionSdk.roundTrips_sample ⟨by decide, by decide⟩ Nat.two_pos ⟨by decide, by decide⟩
    fleetRun_sample onlyTerminal_sample executeE2First_sample (by decide)).2

/-- Only an Evm result sets the EVM proof. -/
theorem evmProof_handleProofResult (ps : ProofState) (result : ProofResult) :
    (ps.handleProofResult result).1.evmProof = ps.evmProof ∨
      ∃ r, result = .evm r ∧ (ps.handleProofResult result).1.evmProof = some r.state := by
  unfold handleProofResult
  split
  · exact .inl rfl
  · cases result with
    | error r => exact .inl rfl
    | executeE2 r =>
      left
      simp only [handleExecuteE2Result]
      repeat' split
      all_goals rfl
    | app r =>
      left
      simp only [handleAppResult]
      repeat' split
      all_goals rfl
    | leaf r =>
      left
      simp only [handleLeafResult]
      repeat' split
      all_goals rfl
    | internal r =>
      left
      simp only [handleInternalResult]
      repeat' split
      all_goals rfl
    | evm r =>
      simp only [handleHalo2Result]
      repeat' split
      · exact .inl rfl
      · exact .inl rfl
      · exact .inl rfl
      · exact .inr ⟨r, rfl, rfl⟩

private theorem HonestRun.evm_delivered (h : HonestRun p n s) {e : EvmProofState} (he : s.ps.evmProof = some e) :
    ∃ r, .evm r ∈ s.delivered ∧ r.state = e := by
  induction h with
  | refl => cases he
  | @tail s s' _ hstep ih =>
    obtain ⟨rest, now, envelope, rfl⟩ := hstep.deliver
    have hps : (s.deliver rest now envelope).ps = (s.ps.handleProofResultWithEnvelopeOutcome now envelope).1 := rfl
    rw [hps, handleEnvelope_eq] at he
    split at he
    · obtain ⟨r, hr, hstate⟩ := ih he
      exact ⟨r, List.mem_append_left _ hr, hstate⟩
    · rcases evmProof_handleProofResult { s.ps with lastUpdated := now } envelope.message with hkept | ⟨r, hr, hset⟩
      · obtain ⟨r, hr, hstate⟩ := ih (hkept.symm.trans he)
        exact ⟨r, List.mem_append_left _ hr, hstate⟩
      · refine ⟨r, ?_, Option.some.inj (hset.symm.trans he)⟩
        rw [← hr]
        exact List.mem_append_right _ (List.mem_singleton_self _)

/-- The merkle proofs beside a final internal proof: those of its merge, or else the depth-0 ones. -/
def RecursionSdk.merkleFor (sdk : RecursionSdk P U M R E) (depth0 : Option Bytes) : Option M → Except Raised (Option M)
  | some proofs => .ok (some proofs)
  | none => (depth0.mapM sdk.decodeMerkleProofs).mapError .failed

def RecursionSdk.plainEvm (sdk : RecursionSdk P U M R E) (p : TreeParams) (n : Nat) (apps : Nat → ProvedSegment P U) :
    Except Raised E := do
  let terminal := apps (n - 1)
  let finished ← sdk.plainFinal p n (fun i => (apps i).proof) (p.tailDispatch n terminal.finalMerklePathBytes)
  let merkleProofs ← sdk.merkleFor terminal.deferralMerkleProofsBytes finished.2
  sdk.evmOf ⟨p.context, finished.1, merkleProofs, p.deferralCircuitCount > 0⟩

/-- Over the final internal proof that the manager stores, the EVM proof is the one of one machine. -/
theorem evm_of_stored (hcodec : sdk.RoundTrips) (ha : Arities p.leafArity p.internalArity) (hn : 0 < n)
    (hrun : HonestRun p n s) (hacc : Accepted p n s.delivered)
    (horigin : ∀ r ∈ s.delivered, Origin sdk apps n s.emitted r) (hevm : p.context.proofType = .evm)
    (hready : s.ps.isReadyForFinalization = true) {q : InternalProveRequest} {st : InternalProofState}
    {final : ProofWithPublicValue P U} {merkle : Option M} (hfpd : FinalProofDiscipline p n s q st)
    (hplain : StoresPlain sdk apps p n st final merkle) :
    ∃ e bytes evm, s.ps.evmProof = some e ∧ e.proof = some bytes ∧ sdk.encodeEvmProof evm = .ok bytes ∧
      sdk.plainEvm p n apps = .ok evm := by
  obtain ⟨m, ht⟩ := tracks_of_accepted ha hn hrun hacc
  have hcontext := ht.mirrors.context
  rw [isReadyForFinalization, hcontext, hevm] at hready
  obtain ⟨b, hb⟩ := Option.isSome_iff_exists.mp hready
  obtain ⟨e, he, hproof⟩ := Option.bind_eq_some_iff.mp hb
  obtain ⟨r, hr, rfl⟩ := hrun.evm_delivered he
  obtain ⟨q', final', merkle', evm, bytes, hq', hdecode, hmerkle, hevmOf, hbytes, hstate⟩ :=
    (horigin _ hr).evm hcodec
  have hrequest : .evmProve q' = evmRequest p st := by
    have hmem : .evmProve q' ∈ s.emitted.filter (·.isEvm) := List.mem_filter.mpr ⟨hq', rfl⟩
    rw [hfpd.evm, if_pos hevm] at hmem
    exact List.mem_singleton.mp hmem
  obtain rfl := GeneralProveRequest.evmProve.inj hrequest
  obtain ⟨stored, hstored, hstoredDecode⟩ := hplain.proof
  obtain rfl : final' = final := by
    rw [hstored] at hdecode
    exact Except.ok.inj (hdecode.symm.trans hstoredDecode)
  refine ⟨r.state, bytes, evm, he, by rw [hstate], hbytes, ?_⟩
  refine bind_ok_iff.mpr ⟨(final', merkle), hplain.plain, bind_ok_iff.mpr ⟨merkle', ?_, hevmOf⟩⟩
  cases merkle with
  | some proofs =>
    obtain ⟨merkleBytes, hmerkleStored, hmerkleDecode⟩ := hplain.merkleProofs proofs rfl
    rw [hmerkleStored] at hmerkle
    obtain ⟨decoded, hdecoded, hmerkle⟩ := map_ok_iff.mp hmerkle
    rw [← hmerkle, Except.ok.inj (hdecoded.symm.trans hmerkleDecode)]
    rfl
  | none =>
    rw [hplain.depth0 rfl hevm] at hmerkle
    exact mapError_ok_iff.mpr hmerkle

/-- Within the word a fleet run is one of the machine, and the EVM proof that it leaves with the manager is that of one
machine over the same app proofs. -/
theorem evmProof_plain (hcodec : sdk.RoundTrips) (ha : Arities p.leafArity p.internalArity) (hn : 0 < n)
    (hw : p.WithinWord n) (hrun : FleetRun sdk apps p n s) (hterminal : OnlyTerminal apps n)
    (hfirst : ExecuteE2First s.delivered) (hevm : p.context.proofType = .evm)
    (hready : s.ps.isReadyForFinalization = true) :
    (∀ overflowChecks, WordRun overflowChecks p n s) ∧
      ∃ e bytes evm, s.ps.evmProof = some e ∧ e.proof = some bytes ∧ sdk.encodeEvmProof evm = .ok bytes ∧
        sdk.plainEvm p n apps = .ok evm := by
  have hhonest := hrun.honest hcodec
  refine ⟨fun overflowChecks => (wordRun_iff ha hn hw).mpr hhonest, ?_⟩
  have hacc := hrun.accepted hcodec ha hn hfirst
  have horigin := (hrun.origin hcodec).2
  obtain ⟨q, st, final, merkle, hfpd, hplain⟩ :=
    storesPlain_of_ready hcodec ha hn hhonest hacc horigin hterminal hfirst hready
  exact evm_of_stored hcodec ha hn hhonest hacc horigin hevm hready hfpd hplain

theorem evmProof_plain_sample : ∃ e bytes evm, plainFleet.ps.evmProof = some e ∧ e.proof = some bytes ∧
    RecursionSdk.sample.encodeEvmProof evm = .ok bytes ∧
    RecursionSdk.sample.plainEvm (sampleParams .evm) 2 sampleSegments = .ok evm :=
  (evmProof_plain RecursionSdk.roundTrips_sample ⟨by decide, by decide⟩ Nat.two_pos ⟨by decide, by decide⟩
    fleetRun_sample onlyTerminal_sample executeE2First_sample rfl (by decide)).2

end
end EdgeProver
