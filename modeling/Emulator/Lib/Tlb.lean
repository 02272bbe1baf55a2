import Mathlib.Data.BitVec
import Mathlib.Tactic

/-!
# The TLB of a 32-bit target

What the code has of pages and TLB entries, wherever it uses them. The number of page bits is a parameter here; it is 10
for a target with pages of 1 KiB, and 12 for one without an MMU.

* `samePage_iff`, `samePage_div_iff`: addresses are on one page if they agree above the page bits.
-/

namespace Emulator

open BitVec

abbrev TargetUlong := BitVec 32

def cpuTlbSize : ℕ := 256

def tlbInvalidMask : TargetUlong := 8

def tlbNotdirty : TargetUlong := 16

def tlbMmio : TargetUlong := 32

section Pages

variable (targetPageBits : ℕ)

def targetPageSize : TargetUlong := 1#32 <<< targetPageBits

def targetPageMask : TargetUlong := ~~~ (targetPageSize targetPageBits - 1#32)

/-- The entry of an address: `CPU_TLB_SIZE - 1` is the mask. -/
def tlbIndex (addr : TargetUlong) : ℕ := ((addr >>> targetPageBits) &&& 255).toNat

end Pages

variable {n : ℕ} {a b : TargetUlong}

theorem targetPageMask_bit (n i : ℕ) (hi : i < 32) : (targetPageMask n).getLsbD i = decide (n ≤ i) := by
  have h : targetPageMask n = BitVec.allOnes 32 <<< n := by
    rw [targetPageMask, targetPageSize, not_sub_one_eq_not_add_one, ← neg_eq_not_add,
      ← shiftLeft_neg,
      neg_one_eq_allOnes]
  rw [h, getLsbD_shiftLeft, getLsbD_allOnes]
  grind

/-- Two addresses are on one page. -/
theorem samePage_iff : a &&& targetPageMask n = b &&& targetPageMask n ↔ a >>> n = b >>> n := by
  constructor
  · intro h
    ext i hi
    have hbit := congrArg (BitVec.getLsbD · (n + i)) h
    by_cases hn : n + i < 32
    · simpa [targetPageMask_bit n _ hn] using hbit
    · simp [getLsbD_of_ge _ _ (Nat.le_of_not_lt hn)]
  · intro h
    ext i hi
    rw [getElem_and, getElem_and]
    have hm := targetPageMask_bit n i hi
    rw [getLsbD_eq_getElem hi] at hm
    rw [hm]
    by_cases hn : n ≤ i
    · have hbit := congrArg (BitVec.getLsbD · (i - n)) h
      simp only [getLsbD_ushiftRight, Nat.add_sub_cancel' hn] at hbit
      simp only [getLsbD_eq_getElem hi] at hbit
      rw [hbit]
    · simp [hn]

theorem samePage_div_iff : a &&& targetPageMask n = b &&& targetPageMask n ↔ a.toNat / 2 ^ n = b.toNat / 2 ^ n := by
  rw [samePage_iff, ← toNat_inj, toNat_ushiftRight, toNat_ushiftRight, Nat.shiftRight_eq_div_pow,
    Nat.shiftRight_eq_div_pow]

theorem tlbIndex_eq (n : ℕ) (addr : TargetUlong) : tlbIndex n addr = addr.toNat / 2 ^ n % 256 := by
  rw [tlbIndex, toNat_and, toNat_ushiftRight, Nat.shiftRight_eq_div_pow]
  exact Nat.and_two_pow_sub_one_eq_mod _ 8

theorem tlbIndex_lt (n : ℕ) (addr : TargetUlong) : tlbIndex n addr < cpuTlbSize := by
  rw [tlbIndex_eq]
  exact Nat.mod_lt _ (by decide)

end Emulator
