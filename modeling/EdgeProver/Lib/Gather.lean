import Mathlib.Data.List.Range
import Mathlib.Data.List.Basic

/-! Reading a run of consecutive slots, all or nothing. -/
namespace Gather
variable {β γ : Type}

/-- Read `len` slots from `start` on; `none` as soon as one of them is empty. -/
def gather (get : Nat → Option β) (start : Nat) : Nat → Option (List β)
  | 0 => some []
  | len + 1 =>
    match get start with
    | none => none
    | some b => (gather get (start + 1) len).map (b :: ·)

theorem gather_eq_some_iff {get : Nat → Option β} {start len : Nat} {bs : List β} :
    gather get start len = some bs ↔ (List.range' start len).map get = bs.map some := by
  induction len generalizing start bs with
  | zero => cases bs <;> simp [gather]
  | succ len ih =>
    cases h : get start with
    | none => cases bs <;> simp [gather, h, List.range'_succ]
    | some b =>
      cases bs with
      | nil => simp [gather, h, List.range'_succ]
      | cons c cs =>
        simp only [gather, h, Option.map_eq_some_iff, List.range'_succ, List.map_cons, ih,
          List.cons.injEq, Option.some.injEq]
        constructor
        · rintro ⟨_, ht, rfl, rfl⟩
          exact ⟨rfl, ht⟩
        · rintro ⟨rfl, ht⟩
          exact ⟨cs, ht, rfl, rfl⟩

private theorem gather_eq_none_iff {get : Nat → Option β} {start len : Nat} :
    gather get start len = none ↔ ∃ k < len, get (start + k) = none := by
  induction len generalizing start with
  | zero => simp [gather]
  | succ len ih =>
    rw [Nat.exists_lt_succ_left]
    cases h : get start with
    | none => simp [gather, h]
    | some b =>
      simp only [gather, h, Option.map_eq_none_iff, ih, reduceCtorEq, false_or]
      refine exists_congr fun k => and_congr_right fun _ => ?_
      rw [Nat.add_right_comm, Nat.add_assoc]

theorem gather_isSome_iff {get : Nat → Option β} {start len : Nat} :
    (gather get start len).isSome ↔ ∀ k < len, get (start + k) ≠ none := by
  rw [← not_iff_not, Bool.not_eq_true, Option.isSome_eq_false_iff, Option.isNone_iff_eq_none,
    gather_eq_none_iff]
  simp

theorem length_of_gather {get : Nat → Option β} {start len : Nat} {bs : List β}
    (h : gather get start len = some bs) : bs.length = len := by
  have hl := congrArg List.length (gather_eq_some_iff.mp h)
  simpa using hl.symm

theorem getElem?_of_gather {get : Nat → Option β} {start len k : Nat} {bs : List β}
    (h : gather get start len = some bs) (hk : k < len) : bs[k]? = get (start + k) := by
  have he := congrArg (·[k]?) (gather_eq_some_iff.mp h)
  rw [List.getElem?_map, List.getElem?_map, List.getElem?_range' hk, Option.map_some] at he
  cases hb : bs[k]? with
  | none => simp [hb] at he
  | some b => simpa [hb] using he.symm

theorem gather_congr {f g : Nat → Option β} {start len : Nat}
    (h : ∀ k < len, f (start + k) = g (start + k)) : gather f start len = gather g start len := by
  induction len generalizing start with
  | zero => rfl
  | succ len ih =>
    have h0 : f start = g start := h 0 (Nat.succ_pos len)
    have ht : gather f (start + 1) len = gather g (start + 1) len := by
      apply ih
      intro k hk
      rw [Nat.add_assoc, Nat.add_comm 1 k]
      exact h (k + 1) (Nat.succ_lt_succ hk)
    simp only [gather, h0, ht]

/-- Reading from `base + start` on is reading the moved slots from `start` on. -/
theorem gather_add (get : Nat → Option β) (base start len : Nat) :
    gather get (base + start) len = gather (fun i => get (base + i)) start len := by
  induction len generalizing start with
  | zero => rfl
  | succ len ih =>
    unfold gather
    rw [Nat.add_assoc, ih (start + 1)]

theorem gather_map (f : β → γ) (get : Nat → Option β) (start len : Nat) :
    gather (fun i => (get i).map f) start len = (gather get start len).map (List.map f) := by
  induction len generalizing start with
  | zero => rfl
  | succ len ih => cases h : get start <;> simp [gather, h, ih, Option.map_map, Function.comp_def]

end Gather
