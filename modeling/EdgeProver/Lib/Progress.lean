import Mathlib.Data.List.Chain
import Mathlib.Logic.Relation

/-! Runs that come to an end, by a rank that every step lowers. -/
namespace Progress

variable {S : Type*} {step : S → S → Prop}

/-- Every run from here is finite. -/
def Ends (step : S → S → Prop) (s : S) : Prop := Acc (fun next s => step s next) s

/-- Where an invariant of the steps makes each of them lower the rank, every run is finite. -/
theorem ends_of_rank {Inv : S → Prop} (rank : S → Nat) (hinv : ∀ s next, Inv s → step s next → Inv next)
    (hrank : ∀ s next, Inv s → step s next → rank next < rank s) {s : S} (h : Inv s) : Ends step s := by
  induction hs : rank s using Nat.strongRecOn generalizing s with
  | ind r ih =>
    subst hs
    exact .intro s fun next hstep => ih (rank next) (hrank s next h hstep) (hinv s next h hstep) rfl

/-- The same where the rank is known up to a relation. -/
theorem ends_of_weight {Weighs : S → Nat → Prop}
    (hstep : ∀ s next w, Weighs s w → step s next → ∃ w' < w, Weighs next w') {s : S} {w : Nat} (h : Weighs s w) :
    Ends step s := by
  induction w using Nat.strongRecOn generalizing s with
  | ind w ih =>
    refine .intro s fun next hnext => ?_
    obtain ⟨w', hlt, hw'⟩ := hstep s next w h hnext
    exact ih w' hlt hw'

/-- A run that can end does end, in a state without a step. -/
theorem Ends.exists_last {s : S} (h : Ends step s) :
    ∃ last, Relation.ReflTransGen step s last ∧ ∀ next, ¬ step last next := by
  induction h with
  | intro s _ ih =>
    by_cases hstep : ∃ next, step s next
    · obtain ⟨next, hstep⟩ := hstep
      obtain ⟨last, hrun, hlast⟩ := ih next hstep
      exact ⟨last, .head hstep hrun, hlast⟩
    · exact ⟨s, .refl, not_exists.mp hstep⟩

end Progress
