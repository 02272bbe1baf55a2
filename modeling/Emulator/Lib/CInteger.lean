import Mathlib.Tactic
import Mathlib.Data.Int.ModEq

/-!
# Integers of C

A value of a C type is an integer of the type's range. A conversion wraps, also where the source
has a signed overflow; a shift by an amount that is not below the width is an error.

* `eq_of_modEq`: values of one type that agree modulo its size are equal.
* `shiftBack_iff`: a left shift that can be shifted back has lost nothing.
* `scaled_natCast`, `scaled_neg`, `rounded_neg`: multiplication by a power of two, rounded down or to the
  nearest integer, by the shifts that compute it.
-/

namespace Emulator.Lib

/-- An integer type: two's complement if it is signed. -/
structure IntType where
  width : ℕ
  signed : Bool
  width_pos : 0 < width

namespace IntType

def int8 : IntType := { width := 8, signed := true, width_pos := by decide }
def uint8 : IntType := { width := 8, signed := false, width_pos := by decide }
def int16 : IntType := { width := 16, signed := true, width_pos := by decide }
def uint16 : IntType := { width := 16, signed := false, width_pos := by decide }
def int32 : IntType := { width := 32, signed := true, width_pos := by decide }
def uint32 : IntType := { width := 32, signed := false, width_pos := by decide }
def int64 : IntType := { width := 64, signed := true, width_pos := by decide }
def uint64 : IntType := { width := 64, signed := false, width_pos := by decide }

variable (t : IntType)

/-- `sizeof`. -/
def size : ℤ := t.width / 8

def minValue : ℤ := if t.signed then -2 ^ (t.width - 1) else 0

def maxValue : ℤ := if t.signed then 2 ^ (t.width - 1) - 1 else 2 ^ t.width - 1

/-- The integer is a value of the type. -/
def Holds (x : ℤ) : Prop := t.minValue ≤ x ∧ x ≤ t.maxValue

instance (x : ℤ) : Decidable (t.Holds x) := inferInstanceAs (Decidable (_ ∧ _))

/-- A conversion to the type. -/
def wrap (x : ℤ) : ℤ := if t.signed then x.bmod (2 ^ t.width) else x % 2 ^ t.width

/-- The value of the type that is nearest. -/
def clamp (x : ℤ) : ℤ := max t.minValue (min x t.maxValue)

/-- The integer promotion: `int`, for a type that is narrower. -/
def promote : IntType := if t.width < 32 then int32 else t

def shl (x n : ℤ) : Option ℤ := if 0 ≤ n ∧ n < t.width then some (t.wrap (x * 2 ^ n.toNat)) else none

/-- The sign is shifted in, if there is one. -/
def shr (x n : ℤ) : Option ℤ := if 0 ≤ n ∧ n < t.width then some (x / 2 ^ n.toNat) else none

variable {t} {x y : ℤ}

theorem maxValue_eq (t : IntType) : t.maxValue = t.minValue + 2 ^ t.width - 1 := by
  obtain ⟨k, hk⟩ := Nat.exists_eq_add_of_lt t.width_pos
  rw [maxValue, minValue, hk]
  split_ifs
  · rw [Nat.zero_add, Nat.add_sub_cancel, pow_succ]
    ring
  · ring

theorem minValue_nonpos (t : IntType) : t.minValue ≤ 0 := by
  rw [minValue]
  split_ifs
  · exact neg_nonpos.2 (by positivity)
  · exact le_rfl

theorem maxValue_nonneg (t : IntType) : 0 ≤ t.maxValue := by
  rw [maxValue]
  split_ifs
  · have : (0 : ℤ) < 2 ^ (t.width - 1) := by positivity
    omega
  · have : (0 : ℤ) < 2 ^ t.width := by positivity
    omega

theorem holds_zero (t : IntType) : t.Holds 0 := ⟨t.minValue_nonpos, t.maxValue_nonneg⟩

theorem wrap_modEq (t : IntType) (x : ℤ) : t.wrap x ≡ x [ZMOD 2 ^ t.width] := by
  rw [wrap]
  split_ifs
  · have h := Int.bmod_emod (x := x) (m := 2 ^ t.width)
    push_cast at h
    exact h
  · exact Int.mod_modEq _ _

theorem holds_wrap (t : IntType) (x : ℤ) : t.Holds (t.wrap x) := by
  obtain ⟨k, hk⟩ := Nat.exists_eq_add_of_lt t.width_pos
  have hpow : (2 : ℤ) ^ t.width = 2 * 2 ^ (t.width - 1) := by
    rw [hk, Nat.zero_add, Nat.add_sub_cancel, pow_succ, mul_comm]
  have hpos : (0 : ℤ) < 2 ^ (t.width - 1) := by positivity
  rw [Holds, minValue, maxValue, wrap]
  split_ifs
  · have hle := Int.le_bmod (x := x) (m := 2 ^ t.width) (by positivity)
    have hlt := Int.bmod_lt (x := x) (m := 2 ^ t.width) (by positivity)
    push_cast at hle hlt
    omega
  · have := Int.emod_nonneg x (show (2 : ℤ) ^ t.width ≠ 0 by positivity)
    have := Int.emod_lt_of_pos x (show (0 : ℤ) < 2 ^ t.width by positivity)
    omega

/-- Two values of a type are not congruent. -/
theorem eq_of_modEq (hx : t.Holds x) (hy : t.Holds y) (h : x ≡ y [ZMOD 2 ^ t.width]) : x = y := by
  have hmax := t.maxValue_eq
  unfold Holds at hx hy
  have hzero : x - y = 0 := by
    apply Int.eq_zero_of_abs_lt_dvd h.symm.dvd
    rw [abs_lt]
    omega
  omega

theorem wrap_of_holds (hx : t.Holds x) : t.wrap x = x := eq_of_modEq (t.holds_wrap x) hx (t.wrap_modEq x)

theorem wrap_congr (h : x ≡ y [ZMOD 2 ^ t.width]) : t.wrap x = t.wrap y :=
  eq_of_modEq (t.holds_wrap x) (t.holds_wrap y) (((t.wrap_modEq x).trans h).trans (t.wrap_modEq y).symm)

theorem wrap_eq_iff (hx : t.Holds x) : t.wrap y = x ↔ y ≡ x [ZMOD 2 ^ t.width] :=
  ⟨fun h => h ▸ (t.wrap_modEq y).symm, fun h => (wrap_congr h).trans (wrap_of_holds hx)⟩

theorem wrap_eq_self_iff : t.wrap x = x ↔ t.Holds x := ⟨fun h => h ▸ t.holds_wrap x, wrap_of_holds⟩

/-- A conversion through a wider type changes nothing. -/
theorem wrap_wrap {u : IntType} (h : t.width ≤ u.width) (x : ℤ) : t.wrap (u.wrap x) = t.wrap x :=
  wrap_congr ((u.wrap_modEq x).of_dvd (pow_dvd_pow 2 h))

theorem abs_sub_lt (hx : t.Holds x) (hy : t.Holds y) : |x - y| < 2 ^ t.width := by
  have hmax := t.maxValue_eq
  unfold Holds at hx hy
  rw [abs_lt]
  omega

theorem holds_of_lt {n : ℤ} (hlow : 0 ≤ x) (hx : x < n) (hn : n ≤ t.maxValue + 1) : t.Holds x := by
  have := t.minValue_nonpos
  constructor <;> omega

theorem clamp_of_holds (hx : t.Holds x) : t.clamp x = x := by
  unfold Holds at hx
  unfold clamp
  omega

theorem clamp_of_gt (hx : t.maxValue < x) : t.clamp x = t.maxValue := by
  have := t.minValue_nonpos
  have := t.maxValue_nonneg
  unfold clamp
  omega

theorem clamp_of_lt (hx : x < t.minValue) : t.clamp x = t.minValue := by
  have := t.minValue_nonpos
  have := t.maxValue_nonneg
  unfold clamp
  omega

theorem minValue_unsigned (hsigned : t.signed = false) : t.minValue = 0 := by
  rw [minValue, hsigned]
  rfl

theorem wrap_neg_one (hsigned : t.signed = false) : t.wrap (-1) = t.maxValue := by
  have hmax := t.maxValue_eq
  rw [minValue_unsigned hsigned] at hmax
  rw [wrap_eq_iff ⟨by have := t.minValue_nonpos; have := t.maxValue_nonneg; omega, le_rfl⟩, hmax]
  exact Int.modEq_iff_dvd.2 ⟨1, by ring⟩

theorem shl_natCast {n : ℕ} (h : n < t.width) (x : ℤ) : t.shl x n = some (t.wrap (x * 2 ^ n)) := by
  rw [shl, if_pos (by omega), Int.toNat_natCast]

theorem shr_natCast {n : ℕ} (h : n < t.width) (x : ℤ) : t.shr x n = some (x / 2 ^ n) := by
  rw [shr, if_pos (by omega), Int.toNat_natCast]

theorem shl_of_ge {n : ℤ} (h : t.width ≤ n) (x : ℤ) : t.shl x n = none := by
  rw [shl, if_neg (by omega)]

theorem shr_of_ge {n : ℤ} (h : t.width ≤ n) (x : ℤ) : t.shr x n = none := by
  rw [shr, if_neg (by omega)]

/-- **Shifting back.** What comes back is the value that was shifted exactly if no bit of it was lost. -/
theorem shiftBack_iff (t : IntType) (x : ℤ) (n : ℕ) : t.wrap (x * 2 ^ n) / 2 ^ n = x ↔ t.Holds (x * 2 ^ n) := by
  have hpos : (0 : ℤ) < 2 ^ n := by positivity
  constructor
  · intro hback
    have hdvd := (t.wrap_modEq (x * 2 ^ n)).symm.dvd
    rw [← wrap_eq_self_iff]
    have hdiv := Int.mul_ediv_add_emod (t.wrap (x * 2 ^ n)) (2 ^ n)
    have hlow := Int.emod_nonneg (t.wrap (x * 2 ^ n)) hpos.ne'
    have hhigh := Int.emod_lt_of_pos (t.wrap (x * 2 ^ n)) hpos
    rw [hback, mul_comm] at hdiv
    have hzero : t.wrap (x * 2 ^ n) % 2 ^ n = 0 := by
      rcases le_total n t.width with hle | hle
      · exact Int.emod_eq_zero_of_dvd
          ((Int.dvd_iff_dvd_of_dvd_sub ((pow_dvd_pow 2 hle).trans hdvd)).2 (dvd_mul_left _ _))
      · -- every bit was shifted out
        have hout : t.wrap (x * 2 ^ n) = 0 :=
          (wrap_eq_iff t.holds_zero).2 (Int.modEq_zero_iff_dvd.2 ((pow_dvd_pow 2 hle).trans (dvd_mul_left _ _)))
        rw [hout]
        simp
    omega
  · intro hholds
    rw [wrap_of_holds hholds, Int.mul_ediv_cancel _ hpos.ne']

/-- **Rounding by adding a half.** The shift of the sum is right exactly if the sum is one of the type. -/
theorem wrap_add_half_iff (hx : t.Holds x) {k : ℕ} (hk : k < t.width) :
    t.wrap (x + 2 ^ k) / 2 ^ (k + 1) ≡ (x + 2 ^ k) / 2 ^ (k + 1) [ZMOD 2 ^ t.width] ↔ x + 2 ^ k ≤ t.maxValue := by
  have hmax := t.maxValue_eq
  have hhalf : (0 : ℤ) < 2 ^ k := by positivity
  obtain ⟨j, hj⟩ := Nat.exists_eq_add_of_lt hk
  have hsize : (2 : ℤ) ^ t.width = 2 ^ j * 2 ^ (k + 1) := by
    rw [← pow_add]
    congr 1
    omega
  obtain ⟨hlow, hhigh⟩ := hx
  constructor
  · intro h
    by_contra hover
    have hpow : (2 : ℤ) ^ k * 2 ≤ 2 ^ t.width := by
      rw [← pow_succ]
      exact pow_le_pow_right₀ (by norm_num) (by omega)
    have hwrap : t.wrap (x + 2 ^ k) = x + 2 ^ k - 2 ^ t.width := by
      rw [wrap_eq_iff (by constructor <;> omega)]
      exact Int.modEq_iff_dvd.2 ⟨-1, by ring⟩
    rw [hwrap, hsize, sub_eq_add_neg, ← neg_mul, Int.add_mul_ediv_right _ _ (by positivity), ← hsize] at h
    -- the two results differ by a smaller power of two
    have hdvd := h.dvd
    rw [sub_add_cancel_left, neg_neg, Int.natAbs_dvd_natAbs.symm] at hdvd
    have hle := Nat.le_of_dvd (by positivity) hdvd
    rw [Int.natAbs_pow, Int.natAbs_pow] at hle
    have := Nat.pow_lt_pow_right (a := 2) (by decide) (show j < t.width by omega)
    exact absurd hle (not_le.2 this)
  · intro hle
    rw [wrap_of_holds ⟨by omega, hle⟩]

end IntType

/-- `x * 2 ^ s`, rounded down. -/
def scaled (x s : ℤ) : ℤ := ⌊(x : ℚ) * 2 ^ s⌋

/-- `x * 2 ^ s`, rounded to the nearest integer, and up from the middle. -/
def rounded (x s : ℤ) : ℤ := ⌊(x : ℚ) * 2 ^ s + 1 / 2⌋

theorem scaled_natCast (x : ℤ) (n : ℕ) : scaled x n = x * 2 ^ n := by
  rw [scaled, zpow_natCast]
  exact_mod_cast Int.floor_intCast (x * 2 ^ n)

theorem rounded_natCast (x : ℤ) (n : ℕ) : rounded x n = x * 2 ^ n := by
  rw [rounded, zpow_natCast, Int.floor_eq_iff]
  push_cast
  constructor <;> linarith

theorem scaled_neg (x : ℤ) (k : ℕ) : scaled x (-k) = x / 2 ^ k := by
  rw [scaled, zpow_neg, zpow_natCast, ← div_eq_mul_inv]
  exact_mod_cast Rat.floor_intCast_div_natCast x (2 ^ k)

theorem rounded_neg (x : ℤ) (k : ℕ) : rounded x (-(k + 1 : ℕ)) = (x + 2 ^ k) / 2 ^ (k + 1) := by
  have hsum : (x : ℚ) * 2 ^ (-((k + 1 : ℕ) : ℤ)) + 1 / 2 = ((x + 2 ^ k : ℤ) : ℚ) * 2 ^ (-((k + 1 : ℕ) : ℤ)) := by
    rw [zpow_neg, zpow_natCast]
    push_cast
    rw [pow_succ]
    field_simp
  rw [rounded, hsum]
  exact scaled_neg (x + 2 ^ k) (k + 1)

end Emulator.Lib
