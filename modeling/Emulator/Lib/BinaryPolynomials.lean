import Mathlib.Algebra.Polynomial.Div
import Mathlib.Data.ZMod.Basic
import Mathlib.Tactic

/-!
# Words as polynomials over GF(2)

The bits of a word are the coefficients, from the constant one on.

* `gf2_xor`, `gf2_ushiftRight`, `gf2_shiftLeft`: the sum, and the product with `X` modulo `X ^ w`.
* `dvd_mulStep`: one step of long multiplication.
* `gf2_eq_mod`: a word is the remainder of what it is congruent to.
-/

namespace Emulator.Lib

open Polynomial

variable {w : ℕ}

noncomputable def gf2 (v : BitVec w) : (ZMod 2)[X] := ∑ j ∈ Finset.range w, if v.getLsbD j then X ^ j else 0

theorem coeff_gf2 (v : BitVec w) (j : ℕ) : (gf2 v).coeff j = if v.getLsbD j then 1 else 0 := by
  have hterm : ∀ k, (if v.getLsbD k then (X : (ZMod 2)[X]) ^ k else 0).coeff j =
      if j = k then if v.getLsbD j then 1 else 0 else 0 := by
    intro k
    split_ifs <;> simp_all [coeff_X_pow]
  rw [gf2, finsetSum_coeff, Finset.sum_congr rfl fun k _ => hterm k, Finset.sum_ite_eq, ite_eq_left_iff]
  intro hj
  rw [BitVec.getLsbD_of_ge v j (by simpa using hj)]
  rfl

theorem degree_gf2_lt (v : BitVec w) : (gf2 v).degree < w := by
  rw [degree_lt_iff_coeff_zero]
  intro j hj
  rw [coeff_gf2, BitVec.getLsbD_of_ge v j hj]
  rfl

@[simp] theorem gf2_zero : gf2 (0#w) = 0 := by
  ext j
  simp [coeff_gf2]

theorem gf2_xor (u v : BitVec w) : gf2 (u ^^^ v) = gf2 u + gf2 v := by
  ext j
  rw [coeff_add, coeff_gf2, coeff_gf2, coeff_gf2, BitVec.getLsbD_xor]
  cases u.getLsbD j <;> cases v.getLsbD j <;> decide

/-- The lowest coefficient, and the others shifted down. -/
theorem gf2_ushiftRight (v : BitVec w) : gf2 v = X * gf2 (v >>> 1) + if v.getLsbD 0 then 1 else 0 := by
  ext j
  cases j with
  | zero =>
    rw [coeff_add, coeff_X_mul_zero, zero_add, coeff_gf2]
    split_ifs <;> simp
  | succ j =>
    have hlow : (if v.getLsbD 0 then 1 else 0 : (ZMod 2)[X]).coeff (j + 1) = 0 := by
      split_ifs <;> simp [coeff_one]
    rw [coeff_add, coeff_X_mul, hlow, add_zero, coeff_gf2, coeff_gf2, BitVec.getLsbD_ushiftRight, Nat.add_comm 1 j]

/-- The highest coefficient falls out. -/
theorem gf2_shiftLeft (v : BitVec w) : X ^ w ∣ X * gf2 v - gf2 (v <<< 1) := by
  rw [X_pow_dvd_iff]
  intro j hj
  rw [coeff_sub, coeff_gf2, BitVec.getLsbD_shiftLeft]
  cases j with
  | zero => simp
  | succ j => simp [coeff_X_mul, coeff_gf2, hj]

/-- **A step of long multiplication**: the factor `a` is halved, `b` is doubled, and `b` is added where `a` was odd. -/
theorem dvd_mulStep (a b r : BitVec w) :
    X ^ w ∣ gf2 r + gf2 a * gf2 b - (gf2 (r ^^^ if a.getLsbD 0 then b else 0#w) + gf2 (a >>> 1) * gf2 (b <<< 1)) := by
  have hadd : gf2 (r ^^^ if a.getLsbD 0 then b else 0#w) =
      gf2 r + (if a.getLsbD 0 then 1 else 0) * gf2 b := by
    rw [gf2_xor]
    split_ifs <;> simp
  have hdiff : gf2 r + gf2 a * gf2 b - (gf2 (r ^^^ if a.getLsbD 0 then b else 0#w) + gf2 (a >>> 1) * gf2 (b <<< 1)) =
      gf2 (a >>> 1) * (X * gf2 b - gf2 (b <<< 1)) := by
    rw [hadd]
    conv_lhs => rw [gf2_ushiftRight a]
    ring
  rw [hdiff]
  exact (gf2_shiftLeft b).mul_left _

theorem gf2_eq_mod {v : BitVec w} {p : (ZMod 2)[X]} (h : X ^ w ∣ p - gf2 v) : gf2 v = p %ₘ X ^ w := by
  rw [modByMonic_eq_of_dvd_sub (monic_X_pow w) h, (modByMonic_eq_self_iff (monic_X_pow w)).2]
  rw [degree_X_pow]
  exact degree_gf2_lt v

end Emulator.Lib
