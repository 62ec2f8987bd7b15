import Mathlib.Tactic.Ring

/-! Byte strings as big-endian numbers. On strings of one length the lexicographic order is the order of the
numbers. -/
namespace BigEndian

/-- The number that the bytes spell, most significant first. -/
def value (bytes : List UInt8) : Nat := bytes.foldl (fun acc byte => acc * 256 + byte.toNat) 0

private theorem foldl_from (bytes : List UInt8) (acc : Nat) :
    bytes.foldl (fun acc byte => acc * 256 + byte.toNat) acc = acc * 256 ^ bytes.length + value bytes := by
  induction bytes generalizing acc with
  | nil => simp [value]
  | cons byte rest ih =>
    rw [value, List.foldl_cons, List.foldl_cons, ih, ih (0 * 256 + byte.toNat), List.length_cons, Nat.pow_succ]
    ring

@[simp] theorem value_nil : value [] = 0 := rfl

private theorem value_cons (byte : UInt8) (rest : List UInt8) :
    value (byte :: rest) = byte.toNat * 256 ^ rest.length + value rest := by
  rw [value, List.foldl_cons, foldl_from, Nat.zero_mul, Nat.zero_add]

private theorem value_lt (bytes : List UInt8) : value bytes < 256 ^ bytes.length := by
  induction bytes with
  | nil => exact Nat.one_pos
  | cons byte rest ih =>
    rw [value_cons, List.length_cons, Nat.pow_succ]
    have hbyte : byte.toNat + 1 ≤ 256 := byte.toNat_lt
    calc byte.toNat * 256 ^ rest.length + value rest < (byte.toNat + 1) * 256 ^ rest.length := by
          rw [Nat.succ_mul]
          omega
      _ ≤ 256 * 256 ^ rest.length := Nat.mul_le_mul_right _ hbyte
      _ = 256 ^ rest.length * 256 := Nat.mul_comm _ _

private theorem value_lt_of_head {a b : UInt8} {as bs : List UInt8} (hlength : as.length = bs.length) (h : a < b) :
    value (a :: as) < value (b :: bs) := by
  rw [value_cons, value_cons, hlength]
  have hrest := value_lt as
  rw [hlength] at hrest
  have hhead : (a.toNat + 1) * 256 ^ bs.length ≤ b.toNat * 256 ^ bs.length :=
    Nat.mul_le_mul_right _ (UInt8.lt_iff_toNat_lt.mp h)
  rw [Nat.succ_mul] at hhead
  omega

/-- The lexicographic order of strings of one length is the order of their numbers. -/
theorem lt_iff_value_lt {a b : List UInt8} (hlength : a.length = b.length) : a < b ↔ value a < value b := by
  induction a generalizing b with
  | nil =>
    obtain rfl := List.length_eq_zero_iff.mp hlength.symm
    simp
  | cons x as ih =>
    cases b with
    | nil => cases hlength
    | cons y bs =>
      have hrest : as.length = bs.length := Nat.succ.inj hlength
      rw [List.cons_lt_cons_iff]
      rcases Nat.lt_trichotomy x.toNat y.toNat with hlt | heq | hgt
      · exact iff_of_true (.inl (UInt8.lt_iff_toNat_lt.mpr hlt))
          (value_lt_of_head hrest (UInt8.lt_iff_toNat_lt.mpr hlt))
      · obtain rfl := UInt8.toNat_inj.mp heq
        rw [value_cons, value_cons, hrest, Nat.add_lt_add_iff_left, ih hrest]
        simp [UInt8.lt_irrefl]
      · refine iff_of_false ?_ (Nat.lt_asymm (value_lt_of_head hrest.symm (UInt8.lt_iff_toNat_lt.mpr hgt)))
        rintro (hlt | ⟨rfl, -⟩)
        · exact Nat.lt_asymm (UInt8.lt_iff_toNat_lt.mp hlt) hgt
        · exact Nat.lt_irrefl _ hgt

end BigEndian
