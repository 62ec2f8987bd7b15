import EdgeProver.Tree.Children
import EdgeProver.Worker.Provers

/-! The requests of a run against the input checks of the provers they reach. -/
namespace EdgeProver
open FoldMachine FoldMachine.State Gather ProofState Outcome

section
variable {p : TreeParams} {n : Nat} {s : TreeState} (ha : Arities p.leafArity p.internalArity) (hn : 0 < n)
include ha hn

/-- What holds of every request that a proof state makes for a node holds of every request of a run. -/
theorem emitted_of_run {Q : GeneralProveRequest → Prop} (hevm : ∀ q, Q (.evmProve q))
    (hnode : ∀ ps m o, Mirrors p n ps m → 0 < o.level → Q (ps.requestOf n o)) (h : HonestRun p n s) :
    ∀ q ∈ s.emitted, Q q := by
  induction h with
  | refl => exact fun q hq => absurd hq List.not_mem_nil
  | @tail s s' hrun hs ih =>
    cases hseal : s.ps.isSealedForResults with
    | true =>
      obtain ⟨rest, now, envelope, rfl⟩ := hs.deliver
      rw [deliver_sealed hseal]
      exact ih
    | false =>
      obtain ⟨m, -, hlive⟩ := history_of_run ha hn hrun
      rcases (hlive hseal).step ha hn hseal hs with ⟨m', r, hf⟩ | ⟨hsame, -⟩
      · obtain ⟨new, hnew, hrequests⟩ := hf.requests
        intro q hq
        cases hkind : q.isEvm with
        | true =>
          cases q with
          | evmProve q => exact hevm q
          | _ => cases hkind
        | false =>
          have hmem : q ∈ s'.emitted.filter (! ·.isEvm) := List.mem_filter.mpr ⟨hq, by rw [hkind]; rfl⟩
          rw [hrequests, List.mem_append] at hmem
          rcases hmem with hold | hsent
          · exact ih q (List.mem_of_mem_filter hold)
          · obtain ⟨o, ho, rfl⟩ := List.mem_map.mp hsent
            exact hnode _ _ o hf.tracks.mirrors (hf.tracks.mirrors.inv.level_pos o (hnew ▸ List.mem_append_right _ ho))
      · rw [hsame]
        exact ih

/-- A final request is above layer 0, so the assertion of the wrap holds. -/
theorem final_layer_pos (h : HonestRun p n s) {q : InternalProveRequest} (hq : .internalProve q ∈ s.emitted)
    (hfinal : q.isFinalProof = true) : 1 ≤ q.layerIdx := by
  have hall : ∀ req ∈ s.emitted, ∀ q, req = .internalProve q → q.isFinalProof = true → q.layerIdx = p.finalLayer n := by
    refine emitted_of_run ha hn (fun q _ hq => nomatch hq) (fun ps m o hm hpos q hq hfinal => ?_) h
    obtain ⟨level, index, children⟩ := o
    match level, hpos with
    | 1, _ => cases hq
    | layerIdx + 2, _ =>
      rw [hm.requestOf_internal] at hq
      obtain rfl := GeneralProveRequest.internalProve.inj hq
      simp only [Bool.and_eq_true, beq_iff_eq] at hfinal
      exact hfinal.2
  rw [hall _ hq q rfl hfinal, TreeParams.finalLayer]
  omega

end

section
variable {P U : Type}

private theorem bail_eq_ok {failed : Bool} {message : String} : bail failed message = .ok () ↔ failed = false := by
  cases failed with
  | true => exact ⟨nofun, nofun⟩
  | false => exact iff_of_true rfl rfl

private theorem bail_bind_ok_iff {α : Type} {failed : Bool} {message : String} {next : Unit → Except String α} {a : α} :
    (bail failed message >>= next) = .ok a ↔ failed = false ∧ next () = .ok a :=
  ⟨bail_bind_ok, fun ⟨hfailed, hnext⟩ => by rw [hfailed]; exact hnext⟩

private theorem LeafProverJob.validate_iff {job : LeafProverJob P U} {maxNumChildren : Nat} :
    job.validate maxNumChildren = .ok () ↔ job.appProofs ≠ [] ∧ job.segmentStart ≤ job.segmentEnd ∧
      job.appProofs.length = job.segmentEnd - job.segmentStart + 1 ∧ job.appProofs.length ≤ maxNumChildren := by
  simp only [validate, bail_bind_ok_iff, bail_eq_ok, List.isEmpty_eq_false_iff, decide_eq_false_iff_not,
    Nat.not_lt, bne_eq_false_iff_eq]

private theorem InternalProverJob.validate_iff {job : InternalProverJob P U} {maxNumChildren : Nat} :
    job.validate maxNumChildren = .ok () ↔ job.childProofs ≠ [] ∧ job.segmentStart ≤ job.segmentEnd ∧
      job.childProofs.length ≤ maxNumChildren := by
  simp only [validate, bail_bind_ok_iff, bail_eq_ok, List.isEmpty_eq_false_iff, decide_eq_false_iff_not,
    Nat.not_lt]

end

/-- A worker's input checks refuse no request of a run for anything but too many children, and there are never more
children than the arity; the final request never trips the assertion of the wrap. -/
structure Admissible {P U M R E : Type} (sdk : RecursionSdk P U M R E) (p : TreeParams)
    (emitted : List GeneralProveRequest) :
    Prop where
  leaf : ∀ q, .leafProve q ∈ emitted → q.appProofs.length ≤ p.leafArity ∧
    ∀ appProofs, q.appProofs.mapM sdk.decodeProof = .ok appProofs →
      ((⟨q.context, appProofs, q.segmentStart, q.segmentEnd⟩ : LeafProverJob P U).validate sdk.maxNumChildrenLeaf =
        .ok () ↔
        q.appProofs.length ≤ sdk.maxNumChildrenLeaf)
  internal : ∀ q, .internalProve q ∈ emitted → q.childProofs.length ≤ p.internalArity ∧
    ∀ childProofs, q.childProofs.mapM sdk.decodeProof = .ok childProofs →
      ((⟨q.context, childProofs, q.layerIdx, q.segmentStart, q.segmentEnd, q.isFinalProof, q.deferralTail.isSome⟩ :
          InternalProverJob P U).validate sdk.maxNumChildrenInternal = .ok () ↔
        q.childProofs.length ≤ sdk.maxNumChildrenInternal)
  wrap : ∀ q, .internalProve q ∈ emitted → q.isFinalProof = true → 1 ≤ q.layerIdx

theorem admissible_of_honestRun {P U M R E : Type} (sdk : RecursionSdk P U M R E) {p : TreeParams} {n : Nat}
    (ha : Arities p.leafArity p.internalArity) (hn : 0 < n) {s : TreeState} (h : HonestRun p n s) :
    Admissible sdk p s.emitted where
  leaf q hq := by
    obtain ⟨b, hb, hstart, hend, hchildren⟩ := (exactChildren_of_honestRun ha hn h).leaf_children q hq
    have hlen : q.appProofs.length = min ((b + 1) * p.leafArity) n - b * p.leafArity := by
      have := congrArg List.length hchildren
      rwa [List.length_map, List.length_map, List.length_range'] at this
    rw [Nat.succ_mul] at hend hlen
    have hpos := ha.leaf_pos
    refine ⟨by omega, fun appProofs hdecode => ?_⟩
    have hsame : appProofs.length = q.appProofs.length := (mapM_ok_iff.mp hdecode).length_eq.symm
    rw [LeafProverJob.validate_iff]
    simp only [hsame]
    refine ⟨fun hvalid => hvalid.2.2.2, fun hfits => ⟨?_, by omega, by omega, hfits⟩⟩
    rw [← List.length_pos_iff, hsame]
    omega
  internal q hq := by
    obtain ⟨i, -, hi, hstart, hend, hchildren⟩ := (exactChildren_of_honestRun ha hn h).internal_children q hq
    have hlen : q.childProofs.length =
        min ((i + 1) * p.internalArity) (childCount p n q.layerIdx) - i * p.internalArity := by
      have := congrArg List.length hchildren
      rwa [List.length_map, List.length_map, List.length_range'] at this
    have hfirst : q.segmentStart < n := by
      have hlt : i < FoldTree.width (treeFan p.leafArity p.internalArity) n (q.layerIdx + 2) :=
        (FoldTree.lt_width_succ (treeFan_pos ha (q.layerIdx + 1))).mpr hi
      rw [FoldTree.lt_width (treeFan_pos ha), FoldTree.first, size_layer] at hlt
      rwa [hstart]
    have hsize : 0 < p.leafArity * p.internalArity ^ (q.layerIdx + 1) :=
      Nat.mul_pos ha.leaf_pos (Nat.pow_pos (Nat.lt_of_lt_of_le Nat.two_pos ha.two_le_internal))
    rw [Nat.succ_mul] at hend hlen
    have hpos := ha.two_le_internal
    refine ⟨by omega, fun childProofs hdecode => ?_⟩
    have hsame : childProofs.length = q.childProofs.length := (mapM_ok_iff.mp hdecode).length_eq.symm
    rw [InternalProverJob.validate_iff]
    simp only [hsame]
    refine ⟨fun hvalid => hvalid.2.2, fun hfits => ⟨?_, by omega, hfits⟩⟩
    rw [← List.length_pos_iff, hsame]
    omega
  wrap q hq hfinal := final_layer_pos ha hn h hq hfinal

/-- The checks of the small SDK let all requests of the uneven run pass, also those for groups that are not full. -/
theorem admissible_unevenRun : Admissible RecursionSdk.sample unevenParams unevenRun.emitted ∧
    unevenRun.emitted.length = 7 :=
  ⟨admissible_of_honestRun _ ⟨by decide, by decide⟩ (by decide) honestRun_uneven, by decide⟩

end EdgeProver
