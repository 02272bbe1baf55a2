import Mathlib.Tactic

/-!
# Windows of seven bits in a row of octets

A row of octets is the number with these digits, least significant first.

* `digit_eq`: the digits are read back by division;
* `window_low`, `window_high`: the seven bits at a bit position, from one octet or from two.
-/

namespace Emulator

open Nat (ofDigits)

/-- The number without its first `i` digits. -/
theorem ofDigits_drop {b : ℕ} (hb : 1 < b) {l : List ℕ} (hl : ∀ d ∈ l, d < b) {i : ℕ} (hi : i ≤ l.length) :
    ofDigits b l / b ^ i = ofDigits b (l.drop i) := by
  have hlow : ofDigits b (l.take i) < b ^ i := by
    have htake : ∀ d ∈ l.take i, d < b := fun d hd => hl d (List.mem_of_mem_take hd)
    have hlt := Nat.ofDigits_lt_base_pow_length hb htake
    rwa [List.length_take, min_eq_left hi] at hlt
  have hsplit : ofDigits b l = ofDigits b (l.take i) + b ^ i * ofDigits b (l.drop i) := by
    conv_lhs => rw [← List.take_append_drop i l]
    rw [Nat.ofDigits_append, List.length_take, min_eq_left hi]
  rw [hsplit, Nat.add_mul_div_left _ _ (by positivity), Nat.div_eq_of_lt hlow, Nat.zero_add]

/-- The digit behind these. -/
theorem digit_eq {b : ℕ} (hb : 1 < b) {l : List ℕ} (hl : ∀ d ∈ l, d < b) {i : ℕ} (hi : i < l.length) :
    ofDigits b l / b ^ i % b = l[i] := by
  rw [ofDigits_drop hb hl hi.le, List.drop_eq_getElem_cons hi, Nat.ofDigits_cons, Nat.add_mul_mod_self_left]
  exact Nat.mod_eq_of_lt (hl _ (List.getElem_mem hi))

/-- A window that does not reach the next octet. -/
theorem window_low (m : ℕ) {shift : ℕ} (h : shift ≤ 1) : (m % 256) >>> shift &&& 0x7f = m / 2 ^ shift % 128 := by
  rw [Nat.shiftRight_eq_div_pow, Nat.and_two_pow_sub_one_eq_mod _ 7]
  interval_cases shift <;> omega

/-- A window that does: `m` is the number from the octet on. -/
theorem window_high (m : ℕ) {shift : ℕ} (h1 : 1 < shift) (h8 : shift < 8) :
    ((m / 256 % 256) <<< (8 - shift) ||| ((m % 256) >>> shift &&& 0x7f)) &&& 0x7f = m / 2 ^ shift % 128 := by
  have hlow : (m % 256) >>> shift &&& 0x7f = m % 256 / 2 ^ shift := by
    rw [Nat.shiftRight_eq_div_pow, Nat.and_two_pow_sub_one_eq_mod _ 7]
    interval_cases shift <;> omega
  have hlt : m % 256 / 2 ^ shift < 2 ^ (8 - shift) := by
    interval_cases shift <;> omega
  rw [hlow, ← Nat.shiftLeft_add_eq_or_of_lt hlt, Nat.shiftLeft_eq, Nat.and_two_pow_sub_one_eq_mod _ 7]
  interval_cases shift <;> omega

end Emulator
