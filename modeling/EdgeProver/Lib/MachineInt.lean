import Mathlib.Algebra.Group.Nat.Defs
import Mathlib.Data.Nat.Basic
import EdgeProver.Lib.Gather

/-! Unsigned machine arithmetic with what ends a program early: every operation gives its value, or a fault. -/
namespace MachineInt

/-- What ends a run before it gives a value. `outOfFuel` stands for a loop that is still running. -/
inductive Fault where
  | overflow
  | divisionByZero
  | missingValue
  | capacityOverflow
  | outOfFuel
  deriving DecidableEq, Repr

abbrev Run (α : Type) := Except Fault α

/-- The word size, and whether the build checks for overflow or lets it wrap. -/
structure Target where
  bits : Nat
  overflowChecks : Bool

def unwrap {α : Type} : Option α → Run α
  | some a => .ok a
  | none => .error .missingValue

namespace Target
variable (t : Target)

/-- What an operation with this exact value gives. -/
def wrap (value : Nat) : Run Nat :=
  if value < 2 ^ t.bits then .ok value
  else if t.overflowChecks then .error .overflow
  else .ok (value % 2 ^ t.bits)

def add (a b : Nat) : Run Nat := t.wrap (a + b)

def mul (a b : Nat) : Run Nat := t.wrap (a * b)

def sub (a b : Nat) : Run Nat :=
  if b ≤ a then .ok (a - b)
  else if t.overflowChecks then .error .overflow
  else .ok ((2 ^ t.bits + a - b) % 2 ^ t.bits)

/-- Room for `capacity` values of `size` bytes: one allocation takes no more than the signed word holds. -/
def Allocates (bits size capacity : Nat) : Prop := capacity * size < 2 ^ (bits - 1)

instance (bits size capacity : Nat) : Decidable (Allocates bits size capacity) := inferInstanceAs (Decidable (_ < _))

def withCapacity (size capacity : Nat) : Run Unit :=
  if Allocates t.bits size capacity then .ok () else .error .capacityOverflow

end Target

def div (a b : Nat) : Run Nat := if b = 0 then .error .divisionByZero else .ok (a / b)

def rem (a b : Nat) : Run Nat := if b = 0 then .error .divisionByZero else .ok (a % b)

section
variable {α β : Type} {t : Target} {a b : Nat}

@[simp] theorem ok_bind (x : α) (f : α → Run β) : ((.ok x : Run α) >>= f) = f x := rfl

@[simp] theorem error_bind (fault : Fault) (f : α → Run β) : ((.error fault : Run α) >>= f) = .error fault := rfl

theorem div_of_pos (h : 0 < b) : div a b = .ok (a / b) := if_neg h.ne'

theorem rem_of_pos (h : 0 < b) : rem a b = .ok (a % b) := if_neg h.ne'

namespace Target

theorem add_of_lt (h : a + b < 2 ^ t.bits) : t.add a b = .ok (a + b) := if_pos h

theorem mul_of_lt (h : a * b < 2 ^ t.bits) : t.mul a b = .ok (a * b) := if_pos h

theorem sub_of_le (h : b ≤ a) : t.sub a b = .ok (a - b) := if_pos h

theorem withCapacity_of_allocates {size capacity : Nat} (h : Allocates t.bits size capacity) :
    t.withCapacity size capacity = .ok () := if_pos h

theorem withCapacity_overflow {size capacity : Nat} (h : ¬ Allocates t.bits size capacity) :
    t.withCapacity size capacity = .error .capacityOverflow := if_neg h

theorem Allocates.mono {bits size capacity less : Nat} (h : Allocates bits size capacity) (hle : less ≤ capacity) :
    Allocates bits size less := (Nat.mul_le_mul_right size hle).trans_lt h

theorem add_overflow (hchecks : t.overflowChecks = true) (h : 2 ^ t.bits ≤ a + b) :
    t.add a b = .error .overflow := by
  unfold add wrap
  rw [if_neg (Nat.not_lt.mpr h), if_pos hchecks]

theorem mul_overflow (hchecks : t.overflowChecks = true) (h : 2 ^ t.bits ≤ a * b) :
    t.mul a b = .error .overflow := by
  unfold mul wrap
  rw [if_neg (Nat.not_lt.mpr h), if_pos hchecks]

end Target

namespace Target

theorem add_wraps (hwraps : t.overflowChecks = false) (a b : Nat) : t.add a b = .ok ((a + b) % 2 ^ t.bits) := by
  unfold add wrap
  split
  · rename_i hlt
    rw [Nat.mod_eq_of_lt hlt]
  · rw [hwraps, if_neg Bool.false_ne_true]

theorem mul_wraps (hwraps : t.overflowChecks = false) (a b : Nat) : t.mul a b = .ok (a * b % 2 ^ t.bits) := by
  unfold mul wrap
  split
  · rename_i hlt
    rw [Nat.mod_eq_of_lt hlt]
  · rw [hwraps, if_neg Bool.false_ne_true]

theorem sub_wraps (hwraps : t.overflowChecks = false) (a b : Nat) : ∃ value, t.sub a b = .ok value := by
  unfold sub
  split
  · exact ⟨_, rfl⟩
  · rw [hwraps, if_neg Bool.false_ne_true]
    exact ⟨_, rfl⟩

end Target

/-- The run is not in an endless loop: it gives a value, or a fault stops it. -/
def Ends (run : Run α) : Prop := run ≠ .error .outOfFuel

theorem ends_ok (x : α) : Ends (.ok x : Run α) := by
  intro h
  cases h

theorem Ends.bind {run : Run α} {f : α → Run β} (h : Ends run) (hf : ∀ x, run = .ok x → Ends (f x)) :
    Ends (run >>= f) := by
  cases run with
  | ok x => exact hf x rfl
  | error fault =>
    intro hbad
    exact h (congrArg _ (Except.error.inj hbad))

/-- What comes before an endless loop does not end it. -/
theorem not_ends_bind {run : Run α} {f : α → Run β} (h : ¬ Ends run) : ¬ Ends (run >>= f) := by
  have hrun : run = .error .outOfFuel := not_not.mp h
  rw [hrun]
  exact fun hends => hends rfl

theorem ends_unwrap (x : Option α) : Ends (unwrap x) := by
  cases x with
  | none => intro h; cases h
  | some a => exact ends_ok a

theorem ends_div (a b : Nat) : Ends (div a b) := by
  unfold div
  intro h
  split at h <;> cases h

theorem ends_rem (a b : Nat) : Ends (rem a b) := by
  unfold rem
  intro h
  split at h <;> cases h

namespace Target

private theorem ends_wrap (value : Nat) : Ends (t.wrap value) := by
  unfold wrap
  intro h
  split at h
  · cases h
  · split at h <;> cases h

theorem ends_add (a b : Nat) : Ends (t.add a b) := ends_wrap _

theorem ends_mul (a b : Nat) : Ends (t.mul a b) := ends_wrap _

theorem ends_withCapacity (size capacity : Nat) : Ends (t.withCapacity size capacity) := by
  unfold withCapacity
  intro h
  split at h <;> cases h

theorem ends_sub (a b : Nat) : Ends (t.sub a b) := by
  unfold sub
  intro h
  split at h
  · cases h
  · split at h <;> cases h

end Target
end

section
variable {β γ : Type}
open Gather

/-- Read `len` slots from `start` on, each read a run of its own; `none` as soon as one of them is empty. -/
def gatherRun (get : Nat → Run (Option β)) (start : Nat) : Nat → Run (Option (List β))
  | 0 => .ok (some [])
  | len + 1 => do
    match ← get start with
    | none => .ok none
    | some b => do
      let rest ← gatherRun get (start + 1) len
      .ok (rest.map (b :: ·))

/-- Run `f` on `len` numbers from `start` on, and keep what it gives. -/
def collectRun (f : Nat → Run (Option γ)) (start : Nat) : Nat → Run (List γ)
  | 0 => .ok []
  | len + 1 => do
    let first ← f start
    let rest ← collectRun f (start + 1) len
    .ok (first.toList ++ rest)

variable {get : Nat → Run (Option β)} {slot : Nat → Option β} {start len : Nat}

/-- Where every slot that is reached can be read, the loop reads like `gather`. -/
theorem gatherRun_eq (h : ∀ k < len, (∀ j < k, slot (start + j) ≠ none) → get (start + k) = .ok (slot (start + k))) :
    gatherRun get start len = .ok (gather slot start len) := by
  induction len generalizing start with
  | zero => rfl
  | succ len ih =>
    have hfirst : get start = .ok (slot start) := h 0 (Nat.succ_pos len) (fun j hj => absurd hj (Nat.not_lt_zero j))
    unfold gatherRun
    rw [hfirst, ok_bind]
    unfold gather
    cases hslot : slot start with
    | none => rfl
    | some b =>
      dsimp only
      rw [ih, ok_bind]
      intro k hk hfilled
      have hnext := h (k + 1) (Nat.succ_lt_succ hk) fun j hj => by
        cases j with
        | zero => rw [Nat.add_zero, hslot]; exact Option.some_ne_none b
        | succ j =>
          have hone := hfilled j (Nat.lt_of_succ_lt_succ hj)
          rwa [Nat.add_assoc, Nat.add_comm 1 j] at hone
      rwa [Nat.add_assoc, Nat.add_comm 1 k]

/-- A slot that is reached and cannot be read ends the loop. -/
theorem gatherRun_error {k : Nat} {fault : Fault} (hk : k < len)
    (hread : ∀ j < k, ∃ b, get (start + j) = .ok (some b)) (hfault : get (start + k) = .error fault) :
    gatherRun get start len = .error fault := by
  induction len generalizing start k with
  | zero => exact absurd hk (Nat.not_lt_zero k)
  | succ len ih =>
    unfold gatherRun
    cases k with
    | zero =>
      rw [Nat.add_zero] at hfault
      rw [hfault, error_bind]
    | succ k =>
      obtain ⟨b, hb⟩ := hread 0 (Nat.succ_pos k)
      rw [Nat.add_zero] at hb
      rw [hb, ok_bind]
      dsimp only
      have hrest : gatherRun get (start + 1) len = .error fault := by
        apply ih (Nat.lt_of_succ_lt_succ hk)
        · intro j hj
          obtain ⟨c, hc⟩ := hread (j + 1) (Nat.succ_lt_succ hj)
          exact ⟨c, by rwa [Nat.add_assoc, Nat.add_comm 1 j]⟩
        · rwa [Nat.add_assoc, Nat.add_comm 1 k]
      rw [hrest, error_bind]

/-- A number that cannot be run on ends the loop, there or before. -/
theorem collectRun_error {f : Nat → Run (Option γ)} {k : Nat} {fault : Fault} (hk : k < len)
    (hfault : f (start + k) = .error fault) : ∃ fault, collectRun f start len = .error fault := by
  induction len generalizing start k with
  | zero => exact absurd hk (Nat.not_lt_zero k)
  | succ len ih =>
    unfold collectRun
    cases hfirst : f start with
    | error fault => exact ⟨fault, rfl⟩
    | ok first =>
      rw [ok_bind]
      cases k with
      | zero =>
        rw [Nat.add_zero, hfirst] at hfault
        cases hfault
      | succ k =>
        have hnext : f (start + 1 + k) = .error fault := by rwa [Nat.add_assoc, Nat.add_comm 1 k]
        obtain ⟨fault, hrest⟩ := ih (Nat.lt_of_succ_lt_succ hk) hnext
        exact ⟨fault, by rw [hrest, error_bind]⟩

theorem collectRun_eq {f : Nat → Run (Option γ)} {g : Nat → Option γ}
    (h : ∀ k < len, f (start + k) = .ok (g (start + k))) :
    collectRun f start len = .ok ((List.range' start len).filterMap g) := by
  induction len generalizing start with
  | zero => rfl
  | succ len ih =>
    have hfirst : f start = .ok (g start) := h 0 (Nat.succ_pos len)
    have hrest : collectRun f (start + 1) len = .ok ((List.range' (start + 1) len).filterMap g) := by
      apply ih
      intro k hk
      have hnext := h (k + 1) (Nat.succ_lt_succ hk)
      rwa [Nat.add_assoc, Nat.add_comm 1 k]
    unfold collectRun
    rw [hfirst, ok_bind, hrest, ok_bind, List.range'_succ]
    cases hg : g start with
    | none => rw [List.filterMap_cons_none hg]; rfl
    | some c => rw [List.filterMap_cons_some hg]; rfl

theorem ends_gatherRun (h : ∀ i, Ends (get i)) (start len : Nat) : Ends (gatherRun get start len) := by
  induction len generalizing start with
  | zero => exact ends_ok _
  | succ len ih =>
    refine (h start).bind fun x _ => ?_
    cases x with
    | none => exact ends_ok _
    | some b => exact (ih (start + 1)).bind fun _ _ => ends_ok _

theorem ends_collectRun {f : Nat → Run (Option γ)} (h : ∀ i, Ends (f i)) (start len : Nat) :
    Ends (collectRun f start len) := by
  induction len generalizing start with
  | zero => exact ends_ok _
  | succ len ih =>
    refine (h start).bind fun x _ => ?_
    exact (ih (start + 1)).bind fun _ _ => ends_ok _

end
end MachineInt
