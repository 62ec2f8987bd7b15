import EdgeProver.Manager.EveryRequest

/-! Failure-free runs of the composed manager end, after a number of steps that is linear in the results of the
proof. -/
namespace EdgeProver

def JournalStep (proofUuid : String) (allowed : Tracked → DutyLabel → Prop) (J K : Journal) : Prop :=
  ∃ l T, allowed J.tracked l ∧ DutyStep proofUuid J.tracked l T ∧ K = J.record proofUuid T l

/-- How many steps an operation may bring, itself included. The requests that it emits and the work that it hands out
are weighed by themselves. -/
def Op.weight : Op → Nat
  | .process .. => 13
  | .checkFailing => 6
  | .checkDrained _ => 5
  | .finalizeUnlessFailing => 4
  | .enqueue _ => 20
  | .send _ retries => 16 + (maxRetries - retries)
  | _ => 1

def weigh (ops : List Op) : Nat := (ops.map Op.weight).sum

/-- How many steps may still come: 20 for a request that is not emitted yet, 19 for one that waits in the queue, and 14
for a report that is owed. -/
def Journal.rank (p : TreeParams) (n : Nat) (J : Journal) : Nat :=
  20 * (p.requestCount n - J.emitted.length) +
    19 * (J.emitted.length - (enqueueing J.tracked.world.ops).length - J.assigned.length) +
    weigh J.tracked.world.ops + 14 * J.tracked.duties.items.length + 14 * (n - J.tracked.duties.segments.length) +
    14 * (!J.tracked.duties.executed).toNat

/-- Nothing is emitted, placed or reported that the tree does not ask for. -/
structure Journal.Within (p : TreeParams) (n : Nat) (J : Journal) : Prop where
  emitted : J.emitted.length ≤ p.requestCount n
  placed : (enqueueing J.tracked.world.ops).length + J.assigned.length ≤ J.emitted.length
  segments : J.tracked.duties.segments.length ≤ n

section
variable {p : TreeParams} {numWorkers n : Nat} {T : Tracked} {op : Op} {c : Choice} {m : Manager} {proofUuid : String}

end

section
variable {p : TreeParams} {numWorkers n : Nat} {J K : Journal} {proofUuid : String}

end

section
variable {p : TreeParams} {fleet : List (Nat × RegisteredWorker)} {leafPackThreshold maxLeafProvers n : Nat}
  {J K : Journal} {s : TreeState} {L : Ledger} {handled accounted : List Answer} {proofUuid : String}

/-- Every segment is reported once, by its owner. -/
theorem SegmentsFollowed.length_le {numWorkers : Nat} {D : Duties} {ops : List Op}
    (h : SegmentsFollowed numWorkers n D ops s L) : D.segments.length ≤ n := by
  have hsub : D.segments ⊆ (List.range n).map fun i => (i % numWorkers, i) := by
    rintro ⟨w, i⟩ hmem
    obtain ⟨hlt, hmod⟩ := mem_shard.mp (h.owned _ hmem).2
    exact List.mem_map.mpr ⟨i, List.mem_range.mpr hlt, Prod.ext hmod rfl⟩
  have hlength := (List.subperm_of_subset h.nodup hsub).length_le
  rwa [List.length_map, List.length_range] at hlength

theorem Underway.within (hids : (fleet.map Prod.fst).Nodup) (hne : appEligibleWorkers fleet ≠ [])
    (ha : Arities p.leafArity p.internalArity) (hn : 0 < n)
    (h : Underway p fleet leafPackThreshold maxLeafProvers n J s L handled accounted) : J.Within p n := by
  obtain ⟨m, ht, -⟩ := h.tracks ha hn
  have hplaces := (h.places hids hne).length_eq
  rw [List.length_append, List.length_append, List.length_map, List.length_map] at hplaces
  refine ⟨?_, by omega, h.followed.segments.length_le⟩
  rw [h.emitted]
  exact ht.emitted_le ha

/-- Whatever brings the final artifact, no more was emitted than was handed out before. -/
theorem within_of_finished {numWorkers : Nat} {op : Op} {c : Choice} {W : World} (hbefore : J.Within p n)
    (h : Finished numWorkers n
      (J.record proofUuid ⟨W, J.tracked.duties.run c J.tracked.world.state op⟩ (.run op c))) :
    (J.record proofUuid ⟨W, J.tracked.duties.run c J.tracked.world.state op⟩ (.run op c)).Within p n := by
  obtain ⟨hsegments, -, -⟩ := J.tracked.duties.run_reports c J.tracked.world.state op
  have hnone : enqueueing W.ops = [] := by
    refine List.filterMap_eq_nil_iff.mpr fun op' hop' => ?_
    have hkind := h.finishing op' hop'
    cases op' <;> first | rfl | simp [finishingKinds, Op.kind] at hkind
  have hassigned := h.assigned.length_eq
  have hemitted := hbefore.emitted
  have hplaced := hbefore.placed
  rw [List.length_map] at hassigned
  refine ⟨?_, ?_, ?_⟩
  · by_cases hprocess : op.kind = .process
    · have hworks : (op.exec proofUuid c J.tracked.world.state).result.works = [] :=
        congrArg Handed.works (handed_of_not_handsOut (by cases op <;> simp_all [Op.kind, Op.handsOut]))
      simp only [Journal.record, hworks, List.map_nil, List.append_nil] at hassigned ⊢
      omega
    · have hemits : op.emits proofUuid c J.tracked.world.state = [] := by
        cases op <;> first | rfl | exact absurd rfl hprocess
      simp only [Journal.record, hemits, List.append_nil]
      exact hemitted
  · simp only [Journal.record, hnone, List.length_nil, Nat.zero_add]
    exact hassigned.ge
  · simp only [Journal.record, hsegments]
    exact hbefore.segments

/-- The run is under way within the tree, or only has to be finished. -/
def Going (p : TreeParams) (fleet : List (Nat × RegisteredWorker)) (leafPackThreshold maxLeafProvers n : Nat)
    (J : Journal) : Prop :=
  (∃ s L handled accounted, Underway p fleet leafPackThreshold maxLeafProvers n J s L handled accounted) ∨
    Finished (appEligibleWorkers fleet).length n J ∧ J.Within p n

variable (hids : (fleet.map Prod.fst).Nodup) (hne : appEligibleWorkers fleet ≠ [])
  (ha : Arities p.leafArity p.internalArity) (hn : 0 < n)
include hids hne ha hn

theorem Going.within (h : Going p fleet leafPackThreshold maxLeafProvers n J) : J.Within p n := by
  obtain ⟨s, L, handled, accounted, h⟩ | h := h
  · exact h.within hids hne ha hn
  · exact h.2

theorem Going.step (h : Going p fleet leafPackThreshold maxLeafProvers n J)
    (hstep : JournalStep p.context.proofUuid (FailureFree p (appEligibleWorkers fleet).length n) J K) :
    Going p fleet leafPackThreshold maxLeafProvers n K := by
  have hwithin := h.within hids hne ha hn
  obtain ⟨l, T, hallowed, hstep, rfl⟩ := hstep
  cases hstep with
  | request task => exact hallowed.elim
  | report workerId envelope report =>
    obtain ⟨s, L, handled, accounted, h⟩ | h := h
    · obtain ⟨handled', hnow⟩ := h.report hallowed
      exact .inl ⟨s, L, handled', accounted, hnow⟩
    · exact absurd hallowed h.1.no_report
  | run hstep =>
    obtain ⟨s, L, handled, accounted, h⟩ | h := h
    · exact (h.run hids hne ha hn hallowed hstep).imp_right fun hnow => ⟨hnow, within_of_finished hwithin hnow⟩
    · have hnow := h.1.run hstep
      exact .inr ⟨hnow, within_of_finished hwithin hnow⟩

end

end EdgeProver
