import Mathlib.Data.List.Basic

/-! A slot for one resource. It is built for a key, stays while that key is asked for, and is dropped before one for
another key is built. -/
namespace Slot

variable {K V E : Type*}

/-- A resource that was built for this key and has only been used for it since. -/
inductive Serves (build : K → Except E V) (uses : K → V → V → Prop) (key : K) : V → Prop
  | built {v : V} (h : build key = .ok v) : Serves build uses key v
  | used {v v' : V} (h : Serves build uses key v) (huse : uses key v v') : Serves build uses key v'

/-- What the slot holds serves its key. -/
def Sound (build : K → Except E V) (uses : K → V → V → Prop) (slot : Option (K × V)) : Prop :=
  ∀ key v, slot = some (key, v) → Serves build uses key v

theorem sound_none {build : K → Except E V} {uses : K → V → V → Prop} : Sound build uses none := nofun

theorem sound_some {build : K → Except E V} {uses : K → V → V → Prop} {key : K} {v : V}
    (h : Serves build uses key v) : Sound build uses (some (key, v)) := by
  rintro _ _ ⟨⟩
  exact h

/-- How often the key changes along a history, the latest key first. -/
def changes [DecidableEq K] : List K → Nat
  | [] => 0
  | [_] => 0
  | key :: before :: rest => (if key = before then 0 else 1) + changes (before :: rest)

section
variable [DecidableEq K] (build : K → Except E V) (slot : Option (K × V)) (key : K)

/-- Another key's resource is in the slot. -/
def evicts : Bool :=
  match slot with
  | some (held, _) => held != key
  | none => false

/-- The resource for the key: the one in the slot, or else a new one. -/
def acquire : Except E V :=
  match slot with
  | some (held, v) => if held = key then .ok v else build key
  | none => build key

variable {build slot key} {uses : K → V → V → Prop} {v : V}

/-- The slot asks for nothing but the key it is to serve. -/
theorem acquire_congr {build' : K → Except E V} (h : build key = build' key) :
    acquire build slot key = acquire build' slot key := by
  unfold acquire
  rw [h]

theorem serves_acquire (hslot : Sound build uses slot) (h : acquire build slot key = .ok v) :
    Serves build uses key v := by
  unfold acquire at h
  split at h
  · next held w =>
    split at h
    · next hheld =>
      obtain rfl := Except.ok.inj h
      exact hheld ▸ hslot held w rfl
    · exact .built h
  · exact .built h

private theorem changes_cons_le (history : List K) : changes history ≤ changes (key :: history) := by
  cases history with
  | nil => exact Nat.le_refl 0
  | cons before rest => exact Nat.le_add_left _ _

/-- The slot is empty, or has the resource of the latest key. -/
def Follows (slot : Option (K × V)) (history : List K) : Prop := ∀ held v, slot = some (held, v) →
    history.head? = some held

/-- An eviction comes with a change of the key. -/
theorem evicts_le_changes {history : List K} (hslot : Follows slot history) :
    changes history + (if evicts slot key then 1 else 0) ≤ changes (key :: history) := by
  unfold evicts
  split
  · next held w =>
    obtain ⟨rest, rfl⟩ := List.head?_eq_some_iff.mp (hslot held w rfl)
    by_cases hkey : key = held
    · simp [changes, hkey]
    · have hheld : (held != key) = true := bne_iff_ne.mpr (Ne.symm hkey)
      refine Nat.le_of_eq ?_
      rw [if_pos hheld, changes, if_neg hkey, Nat.add_comm]
  · exact changes_cons_le history

end
end Slot
