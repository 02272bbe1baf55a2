import Mathlib.Data.List.TakeWhile
import Mathlib.Tactic

/-!
# Fixed buffers

`overwrite buf k src` is `memcpy(buf + k, src, length src)`: the buffer keeps its
length and only the cells `k .. k + length src` change. A buffer filled from the
front is read back with `take`. `cstr buf` is the string that a buffer holds.
-/

namespace Emulator

open List

variable {α : Type*}

/-- `memcpy (buf + k, src, src.length)`. -/
def overwrite (buf : List α) (k : ℕ) (src : List α) : List α :=
  buf.take k ++ src ++ buf.drop (k + src.length)

theorem length_overwrite {buf src : List α} {k : ℕ} (h : k + src.length ≤ buf.length) :
    (overwrite buf k src).length = buf.length := by
  unfold overwrite
  simp only [length_append, length_take, length_drop]
  omega

/-- Filling a buffer from the front appends to what was already there. -/
theorem take_overwrite {buf src : List α} {k : ℕ} (h : k ≤ buf.length) :
    (overwrite buf k src).take (k + src.length) = buf.take k ++ src := by
  have hl : (buf.take k ++ src).length = k + src.length := by
    rw [length_append, length_take, min_eq_left h]
  unfold overwrite
  rw [← hl, take_left]

/-- A later cell does not matter for an earlier prefix. -/
theorem take_overwrite_of_le {buf src : List α} {j k : ℕ} (hj : j ≤ k) (h : k ≤ buf.length) :
    (overwrite buf k src).take j = buf.take j := by
  unfold overwrite
  rw [append_assoc, take_append_of_le_length (by rw [length_take]; omega),
    take_take, min_eq_left hj]

/-- The characters in front of the first zero. -/
def cstr (buf : List UInt8) : List UInt8 := buf.takeWhile (· ≠ 0)

theorem cstr_eq_self {buf : List UInt8} (h : 0 ∉ buf) : cstr buf = buf :=
  takeWhile_eq_self_iff.mpr fun _ hx => decide_eq_true fun he => h (he ▸ hx)

theorem zero_notMem_cstr (buf : List UInt8) : 0 ∉ cstr buf := by
  intro h
  unfold cstr at h
  simpa using mem_takeWhile_imp h

theorem cstr_take (buf : List UInt8) (n : ℕ) : cstr ((cstr buf).take n) = (cstr buf).take n :=
  cstr_eq_self fun h => zero_notMem_cstr buf (mem_of_mem_take h)

end Emulator
