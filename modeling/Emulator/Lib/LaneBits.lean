import Mathlib.Data.BitVec
import Mathlib.Tactic
import Emulator.Lib.Lanes

/-!
# Lanes and the operations on words

What an operation on a whole word does to the bits of one lane.

* `lane_of_extract`: a lane is the value of its bits.
* `extract_field_same`, `extract_field_below`, `extract_field_above`: words put together with shifts and `|`.
* `extract_add`, `extract_add_masked`: sums, and no carry into a lane.
* `toNat_roundHigh`: the high half of a lane, rounded.
* `extract_addNoCarry`, `extract_subNoBorrow`: the sign bits, added by exclusive or.
-/

namespace Emulator.Lib

open BitVec hiding add_mul eq_sub_iff_add_eq mul_zero not_not or_zero shiftLeft_zero
  sub_add_cancel two_mul xor_zero zero_or

variable {W w : ℕ} {t : IntType}

theorem lane_of_extract {word : BitVec W} {i : ℕ} {v : BitVec w} (hw : t.width = w)
    (h : word.extractLsb' (w * i) w = v) :
    lane t word i = t.wrap v.toNat := by
  subst hw h
  rw [lane, BitVec.extractLsb'_toNat, Nat.shiftRight_eq_div_pow]
  push_cast
  exact IntType.wrap_congr (Int.mod_modEq _ _).symm

theorem wrap_toNat_signed (hw : t.width = w) (hsigned : t.signed = true) (v : BitVec w) : t.wrap v.toNat = v.toInt := by
  rw [IntType.wrap, if_pos hsigned, hw, toInt_eq_toNat_bmod]

theorem wrap_toNat_unsigned (hw : t.width = w) (hsigned : t.signed = false) (v : BitVec w) :
    t.wrap v.toNat = v.toNat := by
  rw [IntType.wrap, hsigned, if_neg (by decide), hw]
  exact_mod_cast Nat.mod_eq_of_lt v.isLt

theorem lane_toNat (hw : t.width = w) (hsigned : t.signed = false) (word : BitVec W) (i : ℕ) :
    lane t word i = (word.extractLsb' (w * i) w).toNat := by
  rw [lane_of_extract hw rfl, wrap_toNat_unsigned hw hsigned]

theorem wrap_ofInt (hw : t.width = w) (x : ℤ) : t.wrap (BitVec.ofInt w x).toNat = t.wrap x := by
  subst hw
  apply IntType.wrap_congr
  have hpos : (0 : ℤ) < 2 ^ t.width := by positivity
  rw [toNat_ofInt, Int.toNat_of_nonneg (Int.emod_nonneg _ (by exact_mod_cast hpos.ne'))]
  exact_mod_cast Int.mod_modEq x (2 ^ t.width)

theorem ofInt_sub (x y : ℤ) : BitVec.ofInt w (x - y) = BitVec.ofInt w x - BitVec.ofInt w y := by
  rw [eq_sub_iff_add_eq, ← ofInt_add, sub_add_cancel]

theorem toNat_add_modEq (u v : BitVec w) : ((u + v).toNat : ℤ) ≡ u.toNat + v.toNat [ZMOD 2 ^ w] := by
  rw [toNat_add]
  exact_mod_cast Int.mod_modEq (u.toNat + v.toNat : ℤ) (2 ^ w)

theorem toNat_sub_modEq (u v : BitVec w) : ((u - v).toNat : ℤ) ≡ u.toNat - v.toNat [ZMOD 2 ^ w] := by
  have h := toNat_add_modEq (u - v) v
  rw [BitVec.sub_add_cancel] at h
  simpa using (h.sub_right v.toNat).symm

theorem extract_field_same {d : BitVec w} {s : ℕ} (hW : s + w ≤ W) : (d.setWidth W <<< s).extractLsb' s w = d := by
  ext j hj
  simp [show ¬ s + j < s by omega, show s + j < W by omega, getLsbD_eq_getElem hj]

theorem extract_field_below {x : BitVec W} {s m : ℕ} (h : s + w ≤ m) : (x <<< m).extractLsb' s w = 0#w := by
  ext j hj
  simp [show s + j < m by omega]

theorem extract_field_above {v : ℕ} {d : BitVec v} {s m : ℕ} (h : m + v ≤ s) :
    (d.setWidth W <<< m).extractLsb' s w = 0#w := by
  ext j hj
  simp [getLsbD_of_ge d (s + j - m) (by omega)]

/-- A lane, shifted down. -/
theorem extract_eq (x : BitVec W) (s : ℕ) : x.extractLsb' s w = (x >>> s).setWidth w := by
  apply eq_of_toNat_eq
  rw [BitVec.extractLsb'_toNat, toNat_setWidth, toNat_ushiftRight]

/-- Two halves. -/
theorem extract_halves {d e : BitVec w} (hW : w + w ≤ W) :
    (d.setWidth W ||| e.setWidth W <<< w).extractLsb' 0 w = d ∧
      (d.setWidth W ||| e.setWidth W <<< w).extractLsb' w w = e := by
  have hd : d.setWidth W = d.setWidth W <<< 0 := (BitVec.shiftLeft_zero _).symm
  rw [BitVec.extractLsb'_or, BitVec.extractLsb'_or]
  constructor
  · rw [hd, extract_field_same (by omega), extract_field_below (by omega), BitVec.or_zero]
  · rw [hd, extract_field_above (by omega), extract_field_same hW, BitVec.zero_or]

/-- Four quarters. -/
theorem extract_quarters (d : ℕ → BitVec w) (hW : 4 * w ≤ W) {i : ℕ} (hi : i < 4) :
    ((d 0).setWidth W ||| (d 1).setWidth W <<< w ||| (d 2).setWidth W <<< (2 * w) |||
      (d 3).setWidth W <<< (3 * w)).extractLsb' (w * i) w = d i := by
  have hd : (d 0).setWidth W = (d 0).setWidth W <<< 0 := (BitVec.shiftLeft_zero _).symm
  rw [hd, BitVec.extractLsb'_or, BitVec.extractLsb'_or, BitVec.extractLsb'_or]
  obtain rfl | rfl | rfl | rfl : i = 0 ∨ i = 1 ∨ i = 2 ∨ i = 3 := by omega
  · rw [mul_zero, extract_field_same (by omega), extract_field_below (by omega), extract_field_below (by omega),
      extract_field_below (by omega)]
    simp
  · rw [mul_one, extract_field_above (by omega), extract_field_same (by omega), extract_field_below (by omega),
      extract_field_below (by omega)]
    simp
  · rw [mul_comm w 2, extract_field_above (by omega), extract_field_above (by omega), extract_field_same (by omega),
      extract_field_below (by omega)]
    simp
  · rw [mul_comm w 3, extract_field_above (by omega), extract_field_above (by omega), extract_field_above (by omega),
      extract_field_same (by omega)]
    simp

theorem toNat_extract (x : BitVec W) (s w : ℕ) : (x.extractLsb' s w).toNat = x.toNat / 2 ^ s % 2 ^ w := by
  rw [BitVec.extractLsb'_toNat, Nat.shiftRight_eq_div_pow]

/-- A sum, with the carry from below. -/
theorem extract_add (x y : BitVec W) {s : ℕ} (hW : s + w ≤ W) :
    (x + y).extractLsb' s w = x.extractLsb' s w + y.extractLsb' s w +
      if 2 ^ s ≤ x.toNat % 2 ^ s + y.toNat % 2 ^ s then 1 else 0 := by
  apply eq_of_toNat_eq
  have hdrop : (x.toNat + y.toNat) % 2 ^ W / 2 ^ s % 2 ^ w = (x.toNat + y.toNat) / 2 ^ s % 2 ^ w := by
    obtain ⟨m, rfl⟩ := Nat.exists_eq_add_of_le (show s ≤ W by omega)
    rw [pow_add, Nat.mod_mul_right_div_self, Nat.mod_mod_of_dvd _ (pow_dvd_pow 2 (by omega))]
  have hcarry : (if 2 ^ s ≤ x.toNat % 2 ^ s + y.toNat % 2 ^ s then 1 else 0 : BitVec w).toNat =
      (if 2 ^ s ≤ x.toNat % 2 ^ s + y.toNat % 2 ^ s then 1 else 0) % 2 ^ w := by
    split_ifs <;> simp
  rw [toNat_extract, toNat_add, hdrop, Nat.add_div (by positivity), toNat_add, toNat_add, hcarry,
    toNat_extract, toNat_extract, Nat.mod_add_mod, Nat.add_mod_mod]
  exact ((Nat.ModEq.add (Nat.mod_modEq _ _) (Nat.mod_modEq _ _)).add_right _).symm

theorem extract_add_of_lt (x y : BitVec W) {s : ℕ} (hW : s + w ≤ W) (hlow : x.toNat % 2 ^ s + y.toNat % 2 ^ s < 2 ^ s) :
    (x + y).extractLsb' s w = x.extractLsb' s w + y.extractLsb' s w := by
  rw [extract_add x y hW, if_neg (not_le.2 hlow)]
  simp

theorem extract_sub_of_le (x y : BitVec W) {s : ℕ} (hW : s + w ≤ W) (hlow : y.toNat % 2 ^ s ≤ x.toNat % 2 ^ s) :
    (x - y).extractLsb' s w = x.extractLsb' s w - y.extractLsb' s w := by
  have hpos : 0 < 2 ^ s := by positivity
  have hdiff : (x - y).toNat % 2 ^ s + y.toNat % 2 ^ s = x.toNat % 2 ^ s := by
    have hsum : (x - y).toNat + y.toNat ≡ x.toNat [MOD 2 ^ s] := by
      have h := congrArg BitVec.toNat (BitVec.sub_add_cancel x y)
      rw [toNat_add] at h
      refine Nat.ModEq.trans ?_ (congrArg (· % 2 ^ s) h)
      exact (Nat.mod_mod_of_dvd _ (pow_dvd_pow 2 (by omega))).symm
    have hlt := Nat.mod_lt (x - y).toNat hpos
    have hx := Nat.mod_lt x.toNat hpos
    rw [Nat.ModEq, Nat.add_mod] at hsum
    by_cases hover : (x - y).toNat % 2 ^ s + y.toNat % 2 ^ s < 2 ^ s
    · rwa [Nat.mod_eq_of_lt hover] at hsum
    · rw [Nat.mod_eq_sub_mod (by omega), Nat.mod_eq_of_lt (by omega)] at hsum
      omega
  have hadd := extract_add_of_lt (w := w) (x - y) y hW (by rw [hdiff]; exact Nat.mod_lt _ hpos)
  rw [BitVec.sub_add_cancel] at hadd
  rw [hadd, BitVec.add_sub_cancel]

theorem extract_not (x : BitVec W) {s : ℕ} (hW : s + w ≤ W) : (~~~ x).extractLsb' s w = ~~~ x.extractLsb' s w := by
  ext j hj
  simp [show s + j < W by omega]

theorem extract_ushiftRight (x : BitVec W) (s k : ℕ) : (x >>> k).extractLsb' s w = x.extractLsb' (k + s) w := by
  ext j hj
  simp [Nat.add_assoc]

theorem extract_shiftLeft (x : BitVec W) {s k : ℕ} (hW : k + s + w ≤ W) :
    (x <<< k).extractLsb' (k + s) w = x.extractLsb' s w := by
  ext j hj
  simp [show k + s + j < W by omega, show k + s + j - k = s + j by omega, show ¬ k + s + j < k by omega,
    getLsbD_eq_getElem (show s + j < W by omega)]

/-- A shift to the right, under a mask without the bits that come from the next lane. -/
theorem extract_ushiftRight_and (x : BitVec W) (s k : ℕ) {m : BitVec w} (hm : m &&& (BitVec.allOnes w >>> k) = m) :
    (x >>> k).extractLsb' s w &&& m = (x.extractLsb' s w >>> k) &&& m := by
  rw [← hm]
  ext j hj
  by_cases h : k + j < w
  · simp [h, Nat.add_left_comm k s j]
  · simp [h]

theorem extract_shiftLeft_and (x : BitVec W) {s k : ℕ} (hW : s + w ≤ W) {m : BitVec w}
    (hm : m &&& (BitVec.allOnes w <<< k) = m) : (x <<< k).extractLsb' s w &&& m = (x.extractLsb' s w <<< k) &&& m := by
  rw [← hm]
  ext j hj
  by_cases h : j < k
  · simp [h]
  · simp [h, show s + j < W by omega, show ¬ s + j < k by omega, show s + j - k = s + (j - k) by omega,
      getLsbD_eq_getElem (show s + (j - k) < W by omega)]

theorem and_mod_le (x m : BitVec W) (s : ℕ) : (x &&& m).toNat % 2 ^ s ≤ m.toNat % 2 ^ s := by
  rw [toNat_and, Nat.and_mod_two_pow]
  exact Nat.and_le_right

theorem mod_le_or (x m : BitVec W) (s : ℕ) : m.toNat % 2 ^ s ≤ (x ||| m).toNat % 2 ^ s := by
  rw [toNat_or, Nat.or_mod_two_pow]
  exact Nat.right_le_or

/-- **A sum under a mask** that leaves room for the carry. -/
theorem extract_add_masked (x y m : BitVec W) {s : ℕ} (hW : s + w ≤ W) (hm : 2 * (m.toNat % 2 ^ s) < 2 ^ s) :
    ((x &&& m) + (y &&& m)).extractLsb' s w =
      (x.extractLsb' s w &&& m.extractLsb' s w) + (y.extractLsb' s w &&& m.extractLsb' s w) := by
  have hx := and_mod_le x m s
  have hy := and_mod_le y m s
  rw [extract_add_of_lt _ _ hW (by omega), BitVec.extractLsb'_and, BitVec.extractLsb'_and]

/-- The high half of a lane. -/
theorem toNat_high (x : BitVec W) (s w : ℕ) :
    (x.extractLsb' (s + w) w).toNat = (x.extractLsb' s (w + w)).toNat / 2 ^ w := by
  rw [toNat_extract, toNat_extract, pow_add, pow_add, Nat.mod_mul_right_div_self, Nat.div_div_eq_div_mul]

/-- The bits from `k` on. -/
theorem toNat_and_high (v : BitVec W) (k : ℕ) : (v &&& (BitVec.allOnes W <<< k)).toNat = v.toNat / 2 ^ k * 2 ^ k := by
  have hshift : v &&& (BitVec.allOnes W <<< k) = v >>> k <<< k := by
    ext j hj
    by_cases h : j < k
    · simp [h]
    · simp [h, show k + (j - k) = j by omega, getLsbD_eq_getElem hj]
  rw [hshift, toNat_shiftLeft, toNat_ushiftRight, Nat.shiftLeft_eq, Nat.shiftRight_eq_div_pow]
  exact Nat.mod_eq_of_lt ((Nat.div_mul_le_self _ _).trans_lt v.isLt)

/-- **The high half, rounded**: a carry that comes into the lane does not reach it. -/
theorem toNat_roundHigh (x mask half : BitVec W) {s k : ℕ} (hk : 0 < k) (hW : s + (k + 1 + (k + 1)) ≤ W)
    (hmask : mask.extractLsb' s (k + 1 + (k + 1)) = BitVec.allOnes _ <<< k)
    (hhalf : (half.extractLsb' s (k + 1 + (k + 1))).toNat = 2 ^ k) :
    (((x &&& mask) + half).extractLsb' (s + (k + 1)) (k + 1)).toNat =
      ((x.extractLsb' s (k + 1 + (k + 1))).toNat + 2 ^ k) / 2 ^ (k + 1) % 2 ^ (k + 1) := by
  obtain ⟨c, hc, hadd⟩ : ∃ c : ℕ, c ≤ 1 ∧ ((x &&& mask) + half).extractLsb' s (k + 1 + (k + 1)) =
      (x &&& mask).extractLsb' s (k + 1 + (k + 1)) + half.extractLsb' s (k + 1 + (k + 1)) + BitVec.ofNat _ c := by
    rw [extract_add _ _ hW]
    split_ifs
    · exact ⟨1, le_rfl, rfl⟩
    · exact ⟨0, by omega, rfl⟩
  have hpos : 0 < 2 ^ k := by positivity
  have hcarry : c < 2 ^ k := by
    have := Nat.one_lt_two_pow hk.ne'
    omega
  have hdiv : ∀ m c : ℕ, c < 2 ^ k → (m * 2 ^ k + c) / 2 ^ (k + 1) = m / 2 := by
    intro m c hc
    rw [pow_succ, ← Nat.div_div_eq_div_mul, Nat.add_comm, Nat.add_mul_div_right _ _ hpos, Nat.div_eq_of_lt hc, zero_add]
  generalize hv : x.extractLsb' s (k + 1 + (k + 1)) = v
  have hround : v.toNat + 2 ^ k = (v.toNat / 2 ^ k + 1) * 2 ^ k + v.toNat % 2 ^ k := by
    have := Nat.div_add_mod' v.toNat (2 ^ k)
    rw [add_mul, one_mul]
    omega
  rw [toNat_high, hadd, BitVec.extractLsb'_and, hmask, hv, toNat_add, toNat_add, toNat_and_high, hhalf,
    toNat_ofNat, Nat.mod_add_mod, Nat.add_mod_mod, pow_add, Nat.mod_mul_right_div_self, hround,
    hdiv _ _ (Nat.mod_lt _ hpos), ← Nat.succ_mul, hdiv _ _ hcarry]

section

variable (x y z : BitVec w)

theorem and_sign_cases : x &&& BitVec.intMin w = 0#w ∨ x &&& BitVec.intMin w = BitVec.intMin w := by
  cases hmsb : x.getLsbD (w - 1) with
  | false =>
    left
    apply eq_of_getLsbD_eq
    intro j hj
    rw [getLsbD_and, getLsbD_intMin, getLsbD_zero]
    by_cases h : j + 1 = w
    · rw [show j = w - 1 by omega, hmsb, Bool.false_and]
    · rw [decide_eq_false h, Bool.and_false]
  | true =>
    right
    apply eq_of_getLsbD_eq
    intro j hj
    rw [getLsbD_and, getLsbD_intMin]
    by_cases h : j + 1 = w
    · rw [show j = w - 1 by omega, hmsb, Bool.true_and]
    · rw [decide_eq_false h, Bool.and_false]

theorem low_add_sign : (x &&& ~~~ BitVec.intMin w) + (x &&& BitVec.intMin w) = x := by
  rw [add_eq_or_of_and_eq_zero]
  · ext j hj
    simp only [getElem_or, getElem_and, getElem_not]
    cases x[j] <;> cases (BitVec.intMin w)[j] <;> rfl
  · ext j hj
    simp only [getElem_and, getElem_not, getElem_zero]
    cases x[j] <;> cases (BitVec.intMin w)[j] <;> rfl

theorem sign_add_sign : BitVec.intMin w + BitVec.intMin w = 0#w := by
  apply eq_of_toNat_eq
  rcases w with _ | w
  · rfl
  · simp [toNat_intMin, pow_succ, ← two_mul, mul_comm]

/-- The sign bit is added by an exclusive or. -/
theorem xor_sign : z ^^^ BitVec.intMin w = z + BitVec.intMin w := by
  have hlow : (z ^^^ BitVec.intMin w) &&& ~~~ BitVec.intMin w = z &&& ~~~ BitVec.intMin w := by
    ext j hj
    simp only [getElem_and, getElem_not, getElem_xor]
    cases z[j] <;> cases (BitVec.intMin w)[j] <;> rfl
  have hsign : (z ^^^ BitVec.intMin w) &&& BitVec.intMin w = (z &&& BitVec.intMin w) + BitVec.intMin w := by
    have hxor : (z ^^^ BitVec.intMin w) &&& BitVec.intMin w = (z &&& BitVec.intMin w) ^^^ BitVec.intMin w := by
      ext j hj
      simp only [getElem_and, getElem_xor]
      cases z[j] <;> cases (BitVec.intMin w)[j] <;> rfl
    rw [hxor]
    rcases and_sign_cases z with h | h
    · rw [h]
      simp
    · rw [h, sign_add_sign, BitVec.xor_self]
  rw [← low_add_sign (z ^^^ BitVec.intMin w), hlow, hsign, ← BitVec.add_assoc, low_add_sign]

/-- **Addition without a carry**: the sign bits are taken out and added by an exclusive or. -/
theorem addNoCarry_eq :
    ((x &&& ~~~ BitVec.intMin w) + (y &&& ~~~ BitVec.intMin w)) ^^^ ((x ^^^ y) &&& BitVec.intMin w) = x + y := by
  have hand : (x ^^^ y) &&& BitVec.intMin w = (x &&& BitVec.intMin w) ^^^ (y &&& BitVec.intMin w) := by
    ext j hj
    simp only [getElem_and, getElem_xor]
    cases x[j] <;> cases y[j] <;> cases (BitVec.intMin w)[j] <;> rfl
  have hsum : x + y = ((x &&& ~~~ BitVec.intMin w) + (y &&& ~~~ BitVec.intMin w)) +
      ((x &&& BitVec.intMin w) + (y &&& BitVec.intMin w)) := by
    conv_lhs => rw [← low_add_sign x, ← low_add_sign y]
    ac_rfl
  rw [hand, hsum]
  rcases and_sign_cases x with hx | hx <;> rcases and_sign_cases y with hy | hy <;> rw [hx, hy]
  · simp
  · rw [BitVec.zero_xor, xor_sign, BitVec.zero_add]
  · rw [BitVec.xor_zero, xor_sign, BitVec.add_zero]
  · rw [BitVec.xor_self, BitVec.xor_zero, sign_add_sign, BitVec.add_zero]

/-- **Subtraction without a borrow**: the sign bit is set in the first operand and taken out of the second. -/
theorem subNoBorrow_eq :
    ((x ||| BitVec.intMin w) - (y &&& ~~~ BitVec.intMin w)) ^^^ ((x ^^^ ~~~ y) &&& BitVec.intMin w) = x - y := by
  have hor : x ||| BitVec.intMin w = (x &&& ~~~ BitVec.intMin w) + BitVec.intMin w := by
    rw [add_eq_or_of_and_eq_zero]
    · ext j hj
      simp only [getElem_or, getElem_and, getElem_not]
      cases x[j] <;> cases (BitVec.intMin w)[j] <;> rfl
    · ext j hj
      simp
  have hand : (x ^^^ ~~~ y) &&& BitVec.intMin w =
      (x &&& BitVec.intMin w) ^^^ (y &&& BitVec.intMin w) ^^^ BitVec.intMin w := by
    ext j hj
    simp only [getElem_and, getElem_xor, getElem_not]
    cases x[j] <;> cases y[j] <;> cases (BitVec.intMin w)[j] <;> rfl
  have hx := low_add_sign x
  have hy := low_add_sign y
  have hsign : BitVec.intMin w + BitVec.intMin w = 0 := sign_add_sign
  rw [hor, hand]
  conv_rhs => rw [← hx, ← hy]
  rcases and_sign_cases x with hx | hx <;> rcases and_sign_cases y with hy | hy <;> rw [hx, hy]
  · rw [BitVec.xor_zero, BitVec.zero_xor, xor_sign, BitVec.add_zero, BitVec.add_zero]
    linear_combination hsign
  · rw [BitVec.zero_xor, BitVec.xor_self, BitVec.xor_zero, BitVec.add_zero]
    linear_combination hsign
  · rw [BitVec.xor_zero, BitVec.xor_self, BitVec.xor_zero, BitVec.add_zero]
  · rw [BitVec.xor_self, BitVec.zero_xor, xor_sign]
    linear_combination hsign

end

section

variable (x y : BitVec W) {signs : BitVec W} {s : ℕ} (hW : s + w ≤ W) (hsign : signs.extractLsb' s w = BitVec.intMin w)

include hW hsign

theorem extract_addNoCarry (hlow : 2 * ((~~~ signs).toNat % 2 ^ s) < 2 ^ s) :
    (((x &&& ~~~ signs) + (y &&& ~~~ signs)) ^^^ ((x ^^^ y) &&& signs)).extractLsb' s w =
      x.extractLsb' s w + y.extractLsb' s w := by
  rw [BitVec.extractLsb'_xor, extract_add_masked _ _ _ hW hlow, BitVec.extractLsb'_and, BitVec.extractLsb'_xor,
    extract_not _ hW, hsign, addNoCarry_eq]

theorem extract_subNoBorrow (hlow : (~~~ signs).toNat % 2 ^ s ≤ signs.toNat % 2 ^ s) :
    (((x ||| signs) - (y &&& ~~~ signs)) ^^^ ((x ^^^ ~~~ y) &&& signs)).extractLsb' s w =
      x.extractLsb' s w - y.extractLsb' s w := by
  have hle := ((and_mod_le y (~~~ signs) s).trans hlow).trans (mod_le_or x signs s)
  rw [BitVec.extractLsb'_xor, extract_sub_of_le _ _ hW hle, BitVec.extractLsb'_or, BitVec.extractLsb'_and,
    BitVec.extractLsb'_and, BitVec.extractLsb'_xor, extract_not _ hW, extract_not _ hW, hsign, subNoBorrow_eq]

end

theorem holds_signed_iff (hw : t.width = w) (hsigned : t.signed = true) (v : ℤ) :
    t.Holds v ↔ -2 ^ (w - 1) ≤ v ∧ v < 2 ^ (w - 1) := by
  rw [IntType.Holds, IntType.minValue, IntType.maxValue, if_pos hsigned, if_pos hsigned, hw]
  exact and_congr_right fun _ => Int.le_sub_one_iff

theorem and_sign_ne_zero_iff (hw : 0 < w) (x : BitVec w) : x &&& BitVec.intMin w ≠ 0#w ↔ x.msb = true := by
  rw [msb_eq_getLsbD_last]
  constructor
  · intro h
    by_contra hmsb
    apply h
    apply eq_of_getLsbD_eq
    intro j hj
    rw [getLsbD_and, getLsbD_intMin, getLsbD_zero]
    by_cases hlast : j + 1 = w
    · rw [show j = w - 1 by omega, Bool.eq_false_of_not_eq_true hmsb, Bool.false_and]
    · rw [decide_eq_false hlast, Bool.and_false]
  · intro hmsb h
    have hbit := congrArg (fun v => v.getLsbD (w - 1)) h
    simp only [getLsbD_and, getLsbD_intMin, getLsbD_zero, hmsb, Bool.true_and,
      decide_eq_false_iff_not] at hbit
    omega

/-- The sign in all the bits. -/
theorem sshiftRight_sign (x : BitVec w) {n : ℕ} (hn : w ≤ n + 1) :
    x.sshiftRight n = if x.toInt < 0 then BitVec.allOnes w else 0#w := by
  ext j hj
  have hbit : (x.sshiftRight n)[j] = x.msb := by
    rw [getElem_sshiftRight]
    split_ifs with h
    · rw [msb_eq_getLsbD_last, ← getLsbD_eq_getElem]
      congr 1
      omega
    · rfl
  rw [hbit, msb_eq_toInt]
  split_ifs with hneg <;> simp [hneg]

/-- The saturated value that has the sign of an operand. -/
theorem toInt_saturated (hw : 0 < w) (x : BitVec w) :
    (x.sshiftRight (w - 1) ^^^ ~~~ BitVec.intMin w).toInt = if x.toInt < 0 then -2 ^ (w - 1) else 2 ^ (w - 1) - 1 := by
  rw [sshiftRight_sign x (by omega)]
  split_ifs
  · rw [allOnes_xor, BitVec.not_not, toInt_intMin_of_pos hw]
  · obtain ⟨m, rfl⟩ := Nat.exists_eq_succ_of_ne_zero hw.ne'
    have hnat : (~~~ BitVec.intMin (m + 1)).toNat = 2 ^ m - 1 := by
      rw [toNat_not, toNat_intMin_of_pos (by omega), Nat.add_sub_cancel, pow_succ]
      omega
    have hpos : 0 < 2 ^ m := by positivity
    rw [BitVec.zero_xor, toInt_eq_toNat_of_lt (by rw [hnat, pow_succ]; omega), hnat]
    push_cast [Nat.one_le_two_pow]
    rfl

variable (hw : t.width = w) (hsigned : t.signed = true) (x y : BitVec w)

include hw hsigned

theorem addOverflow_iff :
    ((x + y) ^^^ x) &&& BitVec.intMin w ≠ 0#w ∧ ¬ (x ^^^ y) &&& BitVec.intMin w ≠ 0#w ↔
      ¬ t.Holds (x.toInt + y.toInt) := by
  have hpos : 0 < w := hw ▸ t.width_pos
  rw [and_sign_ne_zero_iff hpos, and_sign_ne_zero_iff hpos, msb_xor, msb_xor,
    holds_signed_iff hw hsigned]
  have h : x.saddOverflow y = true ↔ ¬ (-2 ^ (w - 1) ≤ x.toInt + y.toInt ∧ x.toInt + y.toInt < 2 ^ (w - 1)) := by
    simp only [BitVec.saddOverflow, Bool.or_eq_true, decide_eq_true_eq]
    omega
  rw [← h, saddOverflow_eq]
  cases x.msb <;> cases y.msb <;> cases (x + y).msb <;> decide

theorem subOverflow_iff :
    ((x - y) ^^^ x) &&& BitVec.intMin w ≠ 0#w ∧ (x ^^^ y) &&& BitVec.intMin w ≠ 0#w ↔
      ¬ t.Holds (x.toInt - y.toInt) := by
  have hpos : 0 < w := hw ▸ t.width_pos
  rw [and_sign_ne_zero_iff hpos, and_sign_ne_zero_iff hpos, msb_xor, msb_xor,
    holds_signed_iff hw hsigned]
  have h : x.ssubOverflow y = true ↔ ¬ (-2 ^ (w - 1) ≤ x.toInt - y.toInt ∧ x.toInt - y.toInt < 2 ^ (w - 1)) := by
    simp only [BitVec.ssubOverflow, Bool.or_eq_true, decide_eq_true_eq]
    omega
  rw [← h, ssubOverflow_eq]
  cases x.msb <;> cases y.msb <;> cases (x - y).msb <;> decide

end Emulator.Lib
