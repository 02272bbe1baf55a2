import Mathlib.Data.Nat.ModEq

/-!
# One's complement sums

Sums with the end-around carry, for a word whose largest value is `M`. Both `0` and `M`
stand for zero; a sum gives `0` only if all its terms are `0`.

* `foldl_endAround`: the sum is `wrap` of the plain sum of the terms;
* `wrap_congr`: `wrap` depends on the value modulo `M`, and on whether it is `0`.
-/

namespace Emulator.Lib

variable {M a b : ℕ}

/-- Addition with the carry added at the low end. -/
def endAround (M a b : ℕ) : ℕ := if M < a + b then a + b - M else a + b

/-- The value in `0..M` that is congruent to `n`, and `0` only for `0`. -/
def wrap (M n : ℕ) : ℕ := if n = 0 then 0 else (n - 1) % M + 1

@[simp] theorem wrap_zero (M : ℕ) : wrap M 0 = 0 := rfl

theorem wrap_le (hM : 0 < M) (n : ℕ) : wrap M n ≤ M := by
  unfold wrap
  split_ifs
  · omega
  · exact Nat.mod_lt _ hM

theorem wrap_eq_zero : wrap M a = 0 ↔ a = 0 := by
  unfold wrap
  split_ifs with h
  · exact iff_of_true rfl h
  · simp [h]

theorem wrap_modEq (M n : ℕ) : wrap M n ≡ n [MOD M] := by
  unfold wrap
  split_ifs with h
  · rw [h]
  · have hmod : (n - 1) % M + 1 ≡ n - 1 + 1 [MOD M] := (Nat.mod_modEq (n - 1) M).add_right 1
    rwa [Nat.sub_add_cancel (Nat.one_le_iff_ne_zero.2 h)] at hmod

/-- **What `wrap` depends on.** -/
theorem wrap_congr (h : a ≡ b [MOD M]) (h0 : a = 0 ↔ b = 0) : wrap M a = wrap M b := by
  unfold wrap
  by_cases ha : a = 0
  · rw [if_pos ha, if_pos (h0.1 ha)]
  · have hb := h0.not.1 ha
    rw [if_neg ha, if_neg hb, Nat.add_right_cancel_iff]
    refine Nat.ModEq.add_right_cancel' 1 ?_
    rwa [Nat.sub_add_cancel (Nat.one_le_iff_ne_zero.2 ha), Nat.sub_add_cancel (Nat.one_le_iff_ne_zero.2 hb)]

theorem wrap_of_le (h : a ≤ M) : wrap M a = a := by
  unfold wrap
  split_ifs with h0
  · exact h0.symm
  · rw [Nat.mod_eq_of_lt (by omega)]
    omega

theorem endAround_eq (ha : a ≤ M) (hb : b ≤ M) : endAround M a b = wrap M (a + b) := by
  unfold endAround
  split_ifs with h
  · rw [← wrap_of_le (show a + b - M ≤ M by omega)]
    refine wrap_congr ?_ (by omega)
    exact (Nat.modEq_iff_dvd' (Nat.sub_le _ _)).2 ⟨1, by omega⟩
  · exact (wrap_of_le (by omega)).symm

/-- **A one's complement sum** is the plain sum, wrapped once. -/
theorem foldl_endAround {l : List ℕ} (hl : ∀ b ∈ l, b ≤ M) (ha : a ≤ M) :
    l.foldl (endAround M) a = wrap M (a + l.sum) := by
  induction l generalizing a with
  | nil => exact (wrap_of_le ha).symm
  | cons b l ih =>
    obtain ⟨hb, hl⟩ := List.forall_mem_cons.1 hl
    have hle : endAround M a b ≤ M := by
      unfold endAround
      split_ifs <;> omega
    rw [List.foldl_cons, ih hl hle, List.sum_cons, ← Nat.add_assoc, endAround_eq ha hb]
    refine wrap_congr ((wrap_modEq M (a + b)).add_right l.sum) ?_
    rw [Nat.add_eq_zero_iff, Nat.add_eq_zero_iff, wrap_eq_zero]

end Emulator.Lib
