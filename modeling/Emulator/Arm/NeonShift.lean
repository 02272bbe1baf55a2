import Mathlib.Tactic
import Emulator.Arm.Neon

/-!
# NEON shifts by a vector (`neon_shl_*`, `neon_rshl_*`)

Each lane is shifted by the signed low byte of a lane: to the left, or by a negative amount to the
right. The macros compare this `int8_t` with `sizeof(src1) * 8`, which is unsigned: a negative amount
is converted to a large one, and every amount that is not negative is below the converted `-sizeof(src1) * 8`.

* `shlU_eq`, `shlS_eq`: so the lanes of 8, 16 and 32 bits are all shifted out, or filled with the sign.
* `neonShl_iff`: for which lanes the result is the architecture's.
-/

namespace Emulator.Arm

open Lib Option IntType

/-- What the host says of `size_t`. -/
structure Host where
  sizeType : IntType
  unsigned : sizeType.signed = false
  wide : 32 ≤ sizeType.width

namespace Host

variable (host : Host) (t : NeonType)

/-- `sizeof(src1) * 8`. -/
def sizeBits : ℤ := host.sizeType.wrap (host.sizeType.wrap t.int.size * 8)

/-- `-sizeof(src1) * 8`. -/
def negSizeBits : ℤ := host.sizeType.wrap (host.sizeType.wrap (-host.sizeType.wrap t.int.size) * 8)

/-- The amount of a lane, as it is compared. -/
def sizeOf (x : ℤ) : ℤ := host.sizeType.wrap x

end Host

section

variable (host : Host) (t : NeonType)

/-- `NEON_FN` of `shl_u8`, `shl_u16` and `shl_u32`. -/
def shlU (src1 src2 : ℤ) : Option ℤ :=
  let tmp := IntType.int8.wrap src2
  if host.sizeOf tmp ≥ host.sizeBits t ∨ host.sizeOf tmp ≤ host.negSizeBits t then some 0
  else if tmp < 0 then t.int.promote.shr src1 (-tmp)
  else t.int.promote.shl src1 tmp

/-- `NEON_FN` of `shl_s8`, `shl_s16` and `shl_s32`. -/
def shlS (src1 src2 : ℤ) : Option ℤ :=
  let tmp := IntType.int8.wrap src2
  if host.sizeOf tmp ≥ host.sizeBits t then some 0
  else if host.sizeOf tmp ≤ host.negSizeBits t then t.int.promote.shr src1 (host.sizeBits t - 1)
  else if tmp < 0 then t.int.promote.shr src1 (-tmp)
  else t.int.promote.shl src1 tmp

/-- `(src1 + (1 << (-1 - tmp))) >> -tmp`. -/
def roundShr (src1 tmp : ℤ) : Option ℤ := do
  let half ← IntType.int32.shl 1 (-1 - tmp)
  t.int.promote.shr (t.int.promote.wrap (src1 + t.int.promote.wrap half)) (-tmp)

/-- `NEON_FN` of `rshl_s8`, `rshl_s16` and `rshl_s32`. -/
def rshlS (src1 src2 : ℤ) : Option ℤ := do
  let tmp := IntType.int8.wrap src2
  if host.sizeOf tmp ≥ host.sizeBits t then some 0
  else if host.sizeOf tmp < host.negSizeBits t then t.int.promote.shr src1 (host.sizeBits t - 1)
  else if host.sizeOf tmp = host.negSizeBits t then
    let dest ← t.int.promote.shr src1 (tmp - 1)
    let dest := t.int.wrap (t.int.wrap dest + 1)
    t.int.promote.shr dest 1
  else if tmp < 0 then roundShr t src1 tmp
  else t.int.promote.shl src1 tmp

/-- `NEON_FN` of `rshl_u8`, `rshl_u16` and `rshl_u32`. -/
def rshlU (src1 src2 : ℤ) : Option ℤ :=
  let tmp := IntType.int8.wrap src2
  if host.sizeOf tmp ≥ host.sizeBits t ∨ host.sizeOf tmp < host.negSizeBits t then some 0
  else if host.sizeOf tmp = host.negSizeBits t then t.int.promote.shr src1 (tmp - 1)
  else if tmp < 0 then roundShr t src1 tmp
  else t.int.promote.shl src1 tmp

end

/-- The lane of `neon_shl_u64`. -/
def shlU64 (val shiftop : ℤ) : Option ℤ :=
  let shift := IntType.int8.wrap shiftop
  if shift ≥ 64 ∨ shift ≤ -64 then some 0
  else if shift < 0 then IntType.uint64.shr val (-shift)
  else IntType.uint64.shl val shift

/-- The lane of `neon_shl_s64`. -/
def shlS64 (val shiftop : ℤ) : Option ℤ :=
  let shift := IntType.int8.wrap shiftop
  if shift ≥ 64 then some 0
  else if shift ≤ -64 then IntType.int64.shr val 63
  else if shift < 0 then IntType.int64.shr val (-shift)
  else IntType.int64.shl val shift

/-- The lane of `neon_rshl_s64`. -/
def rshlS64 (val shiftop : ℤ) : Option ℤ := do
  let shift := IntType.int8.wrap shiftop
  if shift ≥ 64 then some 0
  else if shift < -64 then IntType.int64.shr val 63
  else if shift = -63 then
    let val ← IntType.int64.shr val 63
    IntType.int64.shr (IntType.int64.wrap (val + 1)) 1
  else if shift < 0 then
    let half ← IntType.int64.shl 1 (-1 - shift)
    IntType.int64.shr (IntType.int64.wrap (val + half)) (-shift)
  else IntType.int64.shl val shift

/-- The lane of `neon_rshl_u64`. The second `if` is no `else if`. -/
def rshlU64 (val shiftop : ℤ) : Option ℤ := do
  let shift := IntType.int8.wrap (IntType.uint8.wrap shiftop)
  let val ←
    if shift ≥ 64 ∨ shift < 64 then some 0
    else if shift = -64 then IntType.uint64.shr val 63
    else some val
  if shift < 0 then
    let half ← IntType.uint64.shl 1 (-1 - shift)
    let val ← IntType.uint64.shr (IntType.uint64.wrap (val + half)) (-shift)
    IntType.uint64.shr val (-shift)
  else IntType.uint64.shl val shift

section

variable (host : Host)

def neonShlU8 : Word → Word → Option Word := neonVop .u8 (shlU host .u8)
def neonShlU16 : Word → Word → Option Word := neonVop .u16 (shlU host .u16)
def neonShlU32 : Word → Word → Option Word := neonVop .u32 (shlU host .u32)
def neonShlU64 : BitVec 64 → BitVec 64 → Option (BitVec 64) := neonVop .u64 shlU64
def neonShlS8 : Word → Word → Option Word := neonVop .s8 (shlS host .s8)
def neonShlS16 : Word → Word → Option Word := neonVop .s16 (shlS host .s16)
def neonShlS32 : Word → Word → Option Word := neonVop .s32 (shlS host .s32)
def neonShlS64 : BitVec 64 → BitVec 64 → Option (BitVec 64) := neonVop .s64 shlS64
def neonRshlS8 : Word → Word → Option Word := neonVop .s8 (rshlS host .s8)
def neonRshlS16 : Word → Word → Option Word := neonVop .s16 (rshlS host .s16)
def neonRshlS32 : Word → Word → Option Word := neonVop .s32 (rshlS host .s32)
def neonRshlS64 : BitVec 64 → BitVec 64 → Option (BitVec 64) := neonVop .s64 rshlS64
def neonRshlU8 : Word → Word → Option Word := neonVop .u8 (rshlU host .u8)
def neonRshlU16 : Word → Word → Option Word := neonVop .u16 (rshlU host .u16)
def neonRshlU32 : Word → Word → Option Word := neonVop .u32 (rshlU host .u32)
def neonRshlU64 : BitVec 64 → BitVec 64 → Option (BitVec 64) := neonVop .u64 rshlU64

/-- The helper for a type of lanes, rounding or not. -/
def neonShl : (rounding : Bool) → (t : NeonType) → BitVec t.word → BitVec t.word → Option (BitVec t.word)
  | false, .u8 => neonShlU8 host
  | false, .u16 => neonShlU16 host
  | false, .u32 => neonShlU32 host
  | false, .u64 => neonShlU64
  | false, .s8 => neonShlS8 host
  | false, .s16 => neonShlS16 host
  | false, .s32 => neonShlS32 host
  | false, .s64 => neonShlS64
  | true, .u8 => neonRshlU8 host
  | true, .u16 => neonRshlU16 host
  | true, .u32 => neonRshlU32 host
  | true, .u64 => neonRshlU64
  | true, .s8 => neonRshlS8 host
  | true, .s16 => neonRshlS16 host
  | true, .s32 => neonRshlS32 host
  | true, .s64 => neonRshlS64

/-- The `NEON_FN` of it. -/
def shlLane : (rounding : Bool) → (t : NeonType) → ℤ → ℤ → Option ℤ
  | false, .u64 => shlU64
  | false, .s64 => shlS64
  | true, .u64 => rshlU64
  | true, .s64 => rshlS64
  | false, t => if t.int.signed then shlS host t else shlU host t
  | true, t => if t.int.signed then rshlS host t else rshlU host t

end

theorem neonShl_eq (host : Host) (rounding : Bool) (t : NeonType) :
    neonShl host rounding t = neonVop t (shlLane host rounding t) := by
  cases rounding <;> cases t <;> rfl

namespace Host

variable (host : Host)

theorem size_wrap {x : ℤ} (hlow : -2 ^ 31 ≤ x) (hhigh : x < 2 ^ 31) :
    host.sizeType.wrap x = if 0 ≤ x then x else x + 2 ^ host.sizeType.width := by
  have hwide : (2 : ℤ) ^ 32 ≤ 2 ^ host.sizeType.width := pow_le_pow_right₀ (by decide) host.wide
  have hmin : host.sizeType.minValue = 0 := by simp [IntType.minValue, host.unsigned]
  have hmax := host.sizeType.maxValue_eq
  split_ifs with hx
  · apply wrap_of_holds
    constructor <;> omega
  · rw [wrap_eq_iff (by constructor <;> omega)]
    exact (Int.add_modEq_right).symm

theorem sizeBits_eq (t : NeonType) : host.sizeBits t = t.int.width := by
  have hsize : 0 ≤ t.int.size ∧ t.int.size ≤ 8 ∧ t.int.size * 8 = t.int.width := by cases t <;> decide
  have hsizeof : host.sizeType.wrap t.int.size = t.int.size := by
    rw [size_wrap host (by omega) (by omega), if_pos hsize.1]
  rw [sizeBits, hsizeof, size_wrap host (by omega) (by omega), if_pos (by omega)]
  exact hsize.2.2

theorem negSizeBits_eq (t : NeonType) : host.negSizeBits t = 2 ^ host.sizeType.width - t.int.width := by
  have hwide : (2 : ℤ) ^ 32 ≤ 2 ^ host.sizeType.width := pow_le_pow_right₀ (by decide) host.wide
  have hmin : host.sizeType.minValue = 0 := by simp [IntType.minValue, host.unsigned]
  have hmax := host.sizeType.maxValue_eq
  have hsize : 0 < t.int.size ∧ t.int.size ≤ 8 ∧ t.int.size * 8 = t.int.width := by cases t <;> decide
  have hsizeof : host.sizeType.wrap t.int.size = t.int.size := by
    rw [size_wrap host (by omega) (by omega), if_pos hsize.1.le]
  have hneg : host.sizeType.wrap (-t.int.size) = -t.int.size + 2 ^ host.sizeType.width := by
    rw [size_wrap host (by omega) (by omega), if_neg (by omega)]
  rw [negSizeBits, hsizeof, hneg, wrap_eq_iff (by constructor <;> omega), ← hsize.2.2]
  exact Int.modEq_iff_dvd.2 ⟨-7, by ring⟩

variable {host} {t : NeonType} {tmp : ℤ}

/-- How an amount is compared: a negative one is a large one. -/
theorem sizeOf_spec (t : NeonType) (htmp : IntType.int8.Holds tmp) :
    (0 ≤ tmp ∧ host.sizeOf tmp = tmp ∨ tmp < 0 ∧ host.sizeOf tmp = tmp + 2 ^ host.sizeType.width) ∧
      (2 : ℤ) ^ 32 ≤ 2 ^ host.sizeType.width ∧ t.int.width ≤ 64 ∧ -128 ≤ tmp ∧ tmp ≤ 127 := by
  have hwide : (2 : ℤ) ^ 32 ≤ 2 ^ host.sizeType.width := pow_le_pow_right₀ (by decide) host.wide
  have hwidth : t.int.width ≤ 64 := by cases t <;> decide
  obtain ⟨hlow, hhigh⟩ : -128 ≤ tmp ∧ tmp ≤ 127 := htmp
  refine ⟨?_, hwide, hwidth, hlow, hhigh⟩
  rw [sizeOf, size_wrap host (by omega) (by omega)]
  split_ifs <;> omega

theorem ge_sizeBits_iff (htmp : IntType.int8.Holds tmp) :
    host.sizeOf tmp ≥ host.sizeBits t ↔ tmp < 0 ∨ t.int.width ≤ tmp := by
  obtain ⟨hsize, hwide, hwidth, hlow, hhigh⟩ := @sizeOf_spec host tmp t htmp
  rw [sizeBits_eq]
  omega

theorem le_negSizeBits_iff (htmp : IntType.int8.Holds tmp) :
    host.sizeOf tmp ≤ host.negSizeBits t ↔ 0 ≤ tmp ∨ tmp ≤ -t.int.width := by
  obtain ⟨hsize, hwide, hwidth, hlow, hhigh⟩ := @sizeOf_spec host tmp t htmp
  rw [negSizeBits_eq]
  omega

theorem lt_negSizeBits_iff (htmp : IntType.int8.Holds tmp) :
    host.sizeOf tmp < host.negSizeBits t ↔ 0 ≤ tmp ∨ tmp < -t.int.width := by
  obtain ⟨hsize, hwide, hwidth, hlow, hhigh⟩ := @sizeOf_spec host tmp t htmp
  rw [negSizeBits_eq]
  omega

end Host

/-- The amount of a lane. -/
abbrev amount (shift : ℤ) : ℤ := IntType.int8.wrap shift

section

variable {host : Host} {t : NeonType}

theorem amount_holds (shift : ℤ) : IntType.int8.Holds (amount shift) := holds_wrap _ _

/-- **Unsigned lanes are all shifted out**, whatever the amount is. -/
theorem shlU_eq (x y : ℤ) : shlU host t x y = some 0 := by
  have hwidth : 0 < t.int.width := t.int.width_pos
  unfold shlU
  dsimp only
  rw [if_pos]
  rw [Host.ge_sizeBits_iff (amount_holds y), Host.le_negSizeBits_iff (amount_holds y)]
  omega

theorem rshlU_eq (x y : ℤ) : rshlU host t x y = some 0 := by
  have hwidth : 0 < t.int.width := t.int.width_pos
  unfold rshlU
  dsimp only
  rw [if_pos]
  rw [Host.ge_sizeBits_iff (amount_holds y), Host.lt_negSizeBits_iff (amount_holds y)]
  omega

/-- The sign of a lane, in all its bits. -/
theorem shr_sign (hsmall : t.int.width ≤ 32) (x : ℤ) :
    t.int.promote.shr x (host.sizeBits t - 1) = some (x / 2 ^ (t.int.width - 1)) := by
  have hwidth : 0 < t.int.width := t.int.width_pos
  have hcast : (t.int.width : ℤ) - 1 = (t.int.width - 1 : ℕ) := by omega
  have hlt : t.int.width - 1 < t.int.promote.width := by
    unfold IntType.promote
    split_ifs with hnarrow
    · change _ < 32
      omega
    · omega
  rw [host.sizeBits_eq, hcast, shr_natCast hlt]

/-- **Signed lanes are filled with the sign**, for the amounts of the width, and shifted out for all others. -/
theorem shlS_eq (hsmall : t.int.width ≤ 32) (x y : ℤ) :
    shlS host t x y = some (if amount y < 0 ∨ t.int.width ≤ amount y then 0 else x / 2 ^ (t.int.width - 1)) := by
  unfold shlS
  dsimp only
  simp only [Host.ge_sizeBits_iff (amount_holds y), Host.le_negSizeBits_iff (amount_holds y), shr_sign hsmall]
  split_ifs with hout hle
  · rfl
  · rfl
  all_goals omega

theorem rshlS_eq (hsmall : t.int.width ≤ 32) (x y : ℤ) :
    rshlS host t x y = some (if amount y < 0 ∨ t.int.width ≤ amount y then 0 else x / 2 ^ (t.int.width - 1)) := by
  unfold rshlS
  dsimp only
  simp only [Host.ge_sizeBits_iff (amount_holds y), Host.lt_negSizeBits_iff (amount_holds y), shr_sign hsmall]
  split_ifs with hout hlt
  · rfl
  · rfl
  all_goals omega

end

/-- The exact shift of a lane. -/
def shiftExact (rounding : Bool) (x s : ℤ) : ℤ := if rounding then rounded x s else scaled x s

/-- The shift leaves nothing of the lane: to the left, or to the right. -/
def ShiftedOut (rounding : Bool) (width : ℕ) (x s : ℤ) : Prop :=
  if 0 ≤ s then (2 : ℤ) ^ width ∣ x * 2 ^ s.toNat
  else if rounding then -2 ^ (-1 - s).toNat ≤ x ∧ x < 2 ^ (-1 - s).toNat
  else 0 ≤ x ∧ x < 2 ^ (-s).toNat

/-- The lanes `x` and amounts `s` for which a helper is right. -/
def ShlHolds : (rounding : Bool) → NeonType → (x s : ℤ) → Prop
  | false, .u64, _, _ => True
  | false, .s64, _, _ => True
  | true, .u64, x, s => -63 ≤ s ∧ s ≤ 63 ∧ ShiftedOut true 64 x s
  | true, .s64, x, s =>
    0 ≤ s ∨ (-62 ≤ s ∧ s < 0 ∧ x + 2 ^ (-1 - s).toNat < 2 ^ 63) ∨ (s = -63 ∧ ShiftedOut true 64 x s) ∨
      (s < -64 ∧ 0 ≤ x)
  | rounding, t, x, s =>
    if t.int.signed then
      (ShiftedOut rounding t.int.width x s ∧ ¬ (0 ≤ s ∧ s < t.int.width ∧ x < 0)) ∨ (x = -1 ∧ s = 0)
    else ShiftedOut rounding t.int.width x s

section

variable {t : IntType} {rounding : Bool} {x : ℤ}

theorem shiftExact_natCast (rounding : Bool) (x : ℤ) (n : ℕ) : shiftExact rounding x n = x * 2 ^ n := by
  unfold shiftExact
  split_ifs
  · exact rounded_natCast x n
  · exact scaled_natCast x n

theorem shiftExact_neg (rounding : Bool) (x : ℤ) (k : ℕ) :
    shiftExact rounding x (-(k + 1 : ℕ)) = (if rounding then x + 2 ^ k else x) / 2 ^ (k + 1) := by
  unfold shiftExact
  split_ifs
  · exact rounded_neg x k
  · exact scaled_neg x (k + 1)

/-- A shift to the right stays in the range. -/
theorem holds_shiftExact_neg (hx : t.Holds x) (rounding : Bool) (k : ℕ) :
    t.Holds (shiftExact rounding x (-(k + 1 : ℕ))) := by
  have hmin := t.minValue_nonpos
  have hmax := t.maxValue_nonneg
  have hpow : (1 : ℤ) ≤ 2 ^ k := one_le_pow₀ (by norm_num)
  obtain ⟨hlow, hhigh⟩ := hx
  rw [shiftExact_neg, pow_succ]
  constructor
  · rw [Int.le_ediv_iff_mul_le (by positivity)]
    split_ifs <;> nlinarith
  · rw [← Int.lt_add_one_iff, Int.ediv_lt_iff_lt_mul (by positivity)]
    split_ifs <;> nlinarith

/-- An amount, to the left or to the right. -/
theorem amount_cases (s : ℤ) : (∃ n : ℕ, s = n) ∨ ∃ k : ℕ, s = -(k + 1 : ℕ) := by
  rcases le_or_gt 0 s with h | h
  · exact .inl ⟨s.toNat, by omega⟩
  · exact .inr ⟨(-1 - s).toNat, by omega⟩

/-- **The lane is shifted out exactly if 0 is the right result.** -/
theorem shiftedOut_iff (hx : t.Holds x) (rounding : Bool) (s : ℤ) :
    0 ≡ shiftExact rounding x s [ZMOD 2 ^ t.width] ↔ ShiftedOut rounding t.width x s := by
  obtain ⟨n, rfl⟩ | ⟨k, rfl⟩ := amount_cases s
  · rw [shiftExact_natCast, ShiftedOut, if_pos (by omega), Int.toNat_natCast, Int.modEq_comm, Int.modEq_zero_iff_dvd]
  · have hpos : (0 : ℤ) < 2 ^ (k + 1) := by positivity
    have hhalf : (-1 - -((k + 1 : ℕ) : ℤ)).toNat = k := by omega
    have hfull : (-(-((k + 1 : ℕ) : ℤ))).toNat = k + 1 := by omega
    have hzero : (0 : ℤ) ≡ shiftExact rounding x (-(k + 1 : ℕ)) [ZMOD 2 ^ t.width] ↔
        shiftExact rounding x (-(k + 1 : ℕ)) = 0 :=
      ⟨fun h => eq_of_modEq (holds_shiftExact_neg hx rounding k) t.holds_zero h.symm, fun h => by rw [h]⟩
    have hdiv : ∀ y : ℤ, y / 2 ^ (k + 1) = 0 ↔ 0 ≤ y ∧ y < 2 ^ (k + 1) := by
      intro y
      have hsplit := Int.mul_ediv_add_emod y (2 ^ (k + 1))
      have hlow := Int.emod_nonneg y hpos.ne'
      have hhigh := Int.emod_lt_of_pos y hpos
      constructor
      · intro h
        rw [h] at hsplit
        omega
      · exact fun h => Int.ediv_eq_zero_of_lt h.1 h.2
    have hright : ¬ (0 : ℤ) ≤ -((k + 1 : ℕ) : ℤ) := by omega
    rw [hzero, shiftExact_neg, hdiv, ShiftedOut, if_neg hright, hhalf, hfull, pow_succ]
    cases rounding with
    | false => simp
    | true =>
      simp only [if_true]
      omega

end

section

variable {x y : ℤ}

/-- A shift to the right by the width and more leaves what the sign says. -/
theorem ediv_pow_of_holds {t : IntType} (hx : t.Holds x) {n : ℕ} (hn : t.width ≤ n + 1)
    (hunsigned : t.signed = false → t.width ≤ n) : x / 2 ^ n = if x < 0 then -1 else 0 := by
  have hmax := t.maxValue_eq
  have hpow : (2 : ℤ) ^ (t.width - 1) ≤ 2 ^ n := pow_le_pow_right₀ (by norm_num) (by omega)
  obtain ⟨hlow, hhigh⟩ := hx
  have hbounds : -2 ^ n ≤ x ∧ x < 2 ^ n := by
    cases hsigned : t.signed with
    | true =>
      rw [IntType.minValue, if_pos hsigned] at hlow
      rw [IntType.maxValue, if_pos hsigned] at hhigh
      omega
    | false =>
      have hle : (2 : ℤ) ^ t.width ≤ 2 ^ n := pow_le_pow_right₀ (by norm_num) (hunsigned hsigned)
      have hnot : ¬ t.signed = true := by simp [hsigned]
      rw [IntType.minValue, if_neg hnot] at hlow
      rw [IntType.maxValue, if_neg hnot] at hhigh
      omega
  split_ifs with hneg
  · rw [Int.ediv_eq_neg_one_of_neg_of_le hneg (by omega)]
  · exact Int.ediv_eq_zero_of_lt (not_lt.1 hneg) hbounds.2

/-- A left shift by the width and more leaves nothing. -/
theorem zero_modEq_mul_pow {w n : ℕ} (h : w ≤ n) (x : ℤ) : 0 ≡ x * 2 ^ n [ZMOD 2 ^ w] :=
  (Int.modEq_zero_iff_dvd.2 ((pow_dvd_pow 2 h).trans (dvd_mul_left _ _))).symm

theorem shlU64_exact (hx : IntType.uint64.Holds x) (y : ℤ) :
    ∃ dest, shlU64 x y = some dest ∧ dest ≡ scaled x (amount y) [ZMOD 2 ^ 64] := by
  unfold shlU64 amount
  dsimp only
  obtain ⟨n, hn⟩ | ⟨k, hk⟩ := amount_cases (IntType.int8.wrap y)
  · rw [hn, scaled_natCast]
    split_ifs with hlong hneg
    · exact ⟨0, rfl, zero_modEq_mul_pow (by omega) x⟩
    · omega
    · exact ⟨_, shl_natCast (t := .uint64) (show n < 64 by omega) x, IntType.wrap_modEq .uint64 _⟩
  · rw [hk, scaled_neg]
    split_ifs with hlong hneg
    · have hout := ediv_pow_of_holds hx (show 64 ≤ k + 1 + 1 by omega) (fun _ => show 64 ≤ k + 1 by omega)
      have hnonneg : ¬ x < 0 := not_lt.2 hx.1
      rw [hout, if_neg hnonneg]
      exact ⟨0, rfl, rfl⟩
    · rw [neg_neg]
      exact ⟨_, shr_natCast (t := .uint64) (show k + 1 < 64 by omega) x, rfl⟩
    · omega

theorem shlS64_exact (hx : IntType.int64.Holds x) (y : ℤ) :
    ∃ dest, shlS64 x y = some dest ∧ dest ≡ scaled x (amount y) [ZMOD 2 ^ 64] := by
  unfold shlS64 amount
  dsimp only
  obtain ⟨n, hn⟩ | ⟨k, hk⟩ := amount_cases (IntType.int8.wrap y)
  · rw [hn, scaled_natCast]
    split_ifs with hlong hneg
    · exact ⟨0, rfl, zero_modEq_mul_pow (by omega) x⟩
    · omega
    · omega
    · exact ⟨_, shl_natCast (t := .int64) (show n < 64 by omega) x, IntType.wrap_modEq .int64 _⟩
  · rw [hk, scaled_neg]
    split_ifs with hlong hout hneg
    · omega
    · have hsign := ediv_pow_of_holds hx (show 64 ≤ 63 + 1 by omega) (by decide)
      rw [ediv_pow_of_holds hx (show 64 ≤ k + 1 + 1 by omega) (fun h => absurd h (by decide)), ← hsign]
      exact ⟨_, shr_natCast (t := .int64) (n := 63) (by decide) x, rfl⟩
    · rw [neg_neg]
      exact ⟨_, shr_natCast (t := .int64) (show k + 1 < 64 by omega) x, rfl⟩
    · omega

/-- **`neon_rshl_u64` gives 0**, for the amounts of its type, and shifts too far for all others. -/
theorem rshlU64_eq (x y : ℤ) :
    rshlU64 x y = if -63 ≤ amount y ∧ amount y ≤ 63 then some 0 else none := by
  have hbyte : IntType.int8.wrap (IntType.uint8.wrap y) = amount y := wrap_wrap (by decide) y
  unfold rshlU64
  rw [hbyte]
  dsimp only
  rw [if_pos (lt_or_ge (amount y) 64).symm]
  rw [bind_eq_bind, bind_some]
  obtain ⟨n, hn⟩ | ⟨k, hk⟩ := amount_cases (amount y)
  · rw [hn, if_neg (by omega)]
    by_cases hlong : n < 64
    · rw [shl_natCast (t := .uint64) hlong, if_pos (by omega), zero_mul]
      rfl
    · rw [shl_of_ge (t := .uint64) (show (64 : ℤ) ≤ n by omega), if_neg (by omega)]
  · have hhalf : -1 - -((k + 1 : ℕ) : ℤ) = k := by omega
    rw [hk, if_pos (by omega), hhalf, neg_neg]
    by_cases hlong : k + 1 < 64
    · have hk64 : k < 64 := by omega
      have hholds : IntType.uint64.Holds (2 ^ k) := by
        have hpow : (2 : ℤ) ^ k ≤ 2 ^ 63 := pow_le_pow_right₀ (by norm_num) (by omega)
        exact ⟨by positivity, by change (2 : ℤ) ^ k ≤ 2 ^ 64 - 1; omega⟩
      have hshift : (2 : ℤ) ^ k / 2 ^ (k + 1) = 0 :=
        Int.ediv_eq_zero_of_lt (by positivity) (pow_lt_pow_right₀ (by norm_num) (by omega))
      rw [shl_natCast (t := .uint64) hk64, one_mul, wrap_of_holds hholds, bind_some, zero_add,
        wrap_of_holds hholds, shr_natCast (t := .uint64) hlong, bind_some, hshift,
        shr_natCast (t := .uint64) hlong, Int.zero_ediv, if_pos (by omega)]
    · rw [if_neg (by omega)]
      cases IntType.uint64.shl 1 k with
      | none => rfl
      | some half =>
        rw [bind_some, shr_of_ge (t := .uint64) (show (64 : ℤ) ≤ (k + 1 : ℕ) by omega)]
        rfl

/-- **When `neon_rshl_s64` is right.** -/
theorem rshlS64_iff (hx : IntType.int64.Holds x) (y : ℤ) :
    (∃ dest, rshlS64 x y = some dest ∧ dest ≡ rounded x (amount y) [ZMOD 2 ^ 64]) ↔
      ShlHolds true .s64 x (amount y) := by
  have hsign := @ediv_pow_of_holds _ .int64 hx 63 (by decide) (by decide)
  have hshift : IntType.int64.shr x 63 = some (x / 2 ^ 63) := shr_natCast (t := .int64) (n := 63) (by decide) x
  unfold rshlS64 amount
  dsimp only
  generalize IntType.int8.wrap y = s
  obtain ⟨n, rfl⟩ | ⟨k, rfl⟩ := amount_cases s
  · refine iff_of_true ?_ (.inl (by omega))
    rw [rounded_natCast]
    split_ifs with hlong hout hlast hneg
    · exact ⟨0, rfl, zero_modEq_mul_pow (by omega) x⟩
    · omega
    · exact hlast.elim
    · omega
    · exact ⟨_, shl_natCast (t := .int64) (show n < 64 by omega) x, IntType.wrap_modEq .int64 _⟩
  · have hhalf : -1 - -((k + 1 : ℕ) : ℤ) = k := by omega
    have hzero := @shiftedOut_iff .int64 x hx true (-(k + 1 : ℕ))
    have hholds : ShlHolds true .s64 x (-(k + 1 : ℕ)) ↔
        (k < 62 ∧ x + 2 ^ k < 2 ^ 63) ∨ (k = 62 ∧ ShiftedOut true 64 x (-(k + 1 : ℕ))) ∨ (63 < k ∧ 0 ≤ x) := by
      simp only [ShlHolds, hhalf, Int.toNat_natCast]
      have : ¬ (0 : ℤ) ≤ -((k + 1 : ℕ) : ℤ) := by omega
      constructor
      · rintro (h | ⟨h, -, hsum⟩ | ⟨h, hout⟩ | ⟨h, hpos⟩)
        · omega
        · exact .inl ⟨by omega, hsum⟩
        · exact .inr (.inl ⟨by omega, hout⟩)
        · exact .inr (.inr ⟨by omega, hpos⟩)
      · rintro (⟨h, hsum⟩ | ⟨h, hout⟩ | ⟨h, hpos⟩)
        · exact .inr (.inl ⟨by omega, by omega, hsum⟩)
        · exact .inr (.inr (.inl ⟨by omega, hout⟩))
        · exact .inr (.inr (.inr ⟨by omega, hpos⟩))
    rw [hholds]
    split_ifs with hlong hout hlast hneg
    · omega
    · -- the sign, and the exact result is 0
      have hpow : (2 : ℤ) ^ 63 ≤ 2 ^ k := pow_le_pow_right₀ (by norm_num) (by omega)
      obtain ⟨hlow, hhigh⟩ : -2 ^ 63 ≤ x ∧ x ≤ 2 ^ 63 - 1 := hx
      have hexact : rounded x (-(k + 1 : ℕ)) = 0 := by
        rw [rounded_neg]
        exact Int.ediv_eq_zero_of_lt (by omega) (by rw [pow_succ]; omega)
      rw [hexact, hshift]
      simp only [Option.some.injEq, exists_eq_left', hsign]
      split_ifs with hx0
      · exact iff_of_false (by decide) (by omega)
      · exact iff_of_true rfl (by omega)
    · -- 0 in two steps
      have hvalue : IntType.int64.wrap ((if x < 0 then -1 else 0) + 1) / 2 ^ 1 = 0 := by
        split_ifs <;> decide
      have hstep : ∀ v, IntType.int64.shr v 1 = some (v / 2 ^ 1) :=
        shr_natCast (t := .int64) (n := 1) (by decide)
      rw [hshift, bind_eq_bind, bind_some, hstep, hsign, hvalue]
      simp only [Option.some.injEq, exists_eq_left']
      refine hzero.trans ?_
      constructor
      · exact fun h => .inr (.inl ⟨by omega, h⟩)
      · rintro (⟨h, -⟩ | ⟨-, h⟩ | ⟨h, -⟩)
        · omega
        · exact h
        · omega
    · rw [hhalf, neg_neg]
      rcases Nat.lt_or_ge k 62 with hk | hk
      · have hpow : (2 : ℤ) ^ k ≤ 2 ^ 62 := pow_le_pow_right₀ (by norm_num) (by omega)
        have hone : IntType.int64.wrap (2 ^ k) = 2 ^ k := by
          apply wrap_of_holds
          exact ⟨le_trans (by decide) (show (0 : ℤ) ≤ 2 ^ k by positivity), le_trans hpow (by decide)⟩
        have hround := @IntType.wrap_add_half_iff .int64 x hx k (show k < 64 by omega)
        rw [shl_natCast (t := .int64) (show k < 64 by omega), one_mul, hone, bind_eq_bind,
          bind_some, shr_natCast (t := .int64) (show k + 1 < 64 by omega)]
        simp only [Option.some.injEq, exists_eq_left']
        rw [rounded_neg]
        refine hround.trans ?_
        change x + 2 ^ k ≤ 2 ^ 63 - 1 ↔ _
        omega
      · obtain rfl : k = 63 := by omega
        refine iff_of_false ?_ (by omega)
        rw [shl_natCast (t := .int64) (n := 63) (by decide), bind_eq_bind, bind_some,
          shr_of_ge (t := .int64) (by decide)]
        rintro ⟨dest, h, -⟩
        cases h
    · omega

end

section

variable {host : Host} {t : NeonType} {rounding : Bool} {x y s : ℤ}

theorem shlLane_unsigned (hsmall : t.int.width ≤ 32) (hsigned : t.int.signed = false) :
    shlLane host rounding t x y = some 0 := by
  cases rounding <;> cases t
  all_goals first
    | exact absurd hsmall (by decide)
    | exact absurd hsigned (by decide)
    | exact shlU_eq x y
    | exact rshlU_eq x y

theorem shlLane_signed (hsmall : t.int.width ≤ 32) (hsigned : t.int.signed = true) :
    shlLane host rounding t x y =
      some (if amount y < 0 ∨ t.int.width ≤ amount y then 0 else x / 2 ^ (t.int.width - 1)) := by
  cases rounding <;> cases t
  all_goals first
    | exact absurd hsmall (by decide)
    | exact absurd hsigned (by decide)
    | exact shlS_eq hsmall x y
    | exact rshlS_eq hsmall x y

theorem shlHolds_small (hsmall : t.int.width ≤ 32) :
    ShlHolds rounding t x s ↔
      if t.int.signed then
        (ShiftedOut rounding t.int.width x s ∧ ¬ (0 ≤ s ∧ s < t.int.width ∧ x < 0)) ∨ (x = -1 ∧ s = 0)
      else ShiftedOut rounding t.int.width x s := by
  cases rounding <;> cases t <;> first | exact absurd hsmall (by decide) | exact Iff.rfl

/-- A left shift gives all ones only from all ones, and by 0. -/
theorem neg_one_modEq_iff {t : IntType} (hx : t.Holds x) (hneg : x < 0) (n : ℕ) :
    -1 ≡ x * 2 ^ n [ZMOD 2 ^ t.width] ↔ x = -1 ∧ n = 0 := by
  constructor
  · intro h
    have hn : n = 0 := by
      by_contra hne
      obtain ⟨m, rfl⟩ := Nat.exists_eq_succ_of_ne_zero hne
      have htwo : (2 : ℤ) ∣ 2 ^ t.width := dvd_pow_self 2 t.width_pos.ne'
      have hparity := (h.of_dvd htwo).dvd
      rw [pow_succ, ← mul_assoc] at hparity
      omega
    subst hn
    rw [pow_zero, mul_one] at h
    have hone : t.Holds (-1) := by
      have := t.maxValue_nonneg
      exact ⟨by have := hx.1; omega, by omega⟩
    exact ⟨(eq_of_modEq hone hx h).symm, rfl⟩
  · rintro ⟨rfl, rfl⟩
    simp

theorem shlLane_small_iff (hsmall : t.int.width ≤ 32) (hx : t.int.Holds x) :
    (∃ dest, shlLane host rounding t x y = some dest ∧ dest ≡ shiftExact rounding x (amount y) [ZMOD 2 ^ t.int.width]) ↔
      ShlHolds rounding t x (amount y) := by
  rw [shlHolds_small hsmall]
  cases hsigned : t.int.signed with
  | false =>
    rw [shlLane_unsigned hsmall hsigned]
    simpa using shiftedOut_iff hx rounding (amount y)
  | true =>
    rw [shlLane_signed hsmall hsigned]
    simp only [Option.some.injEq, exists_eq_left', if_true]
    split_ifs with hout
    · rw [shiftedOut_iff hx]
      have hwidth := t.int.width_pos
      constructor
      · exact fun h => .inl ⟨h, by omega⟩
      · rintro (⟨h, -⟩ | ⟨-, hzero⟩)
        · exact h
        · omega
    · rw [ediv_pow_of_holds hx (by omega) (fun h => absurd h (by simp [hsigned]))]
      split_ifs with hneg
      · obtain ⟨n, hn⟩ : ∃ n : ℕ, amount y = n := ⟨(amount y).toNat, by omega⟩
        rw [hn, shiftExact_natCast, neg_one_modEq_iff hx hneg]
        constructor
        · exact fun h => .inr ⟨h.1, by omega⟩
        · rintro (⟨-, h⟩ | ⟨h, hzero⟩)
          · omega
          · exact ⟨h, by omega⟩
      · rw [shiftedOut_iff hx]
        constructor
        · exact fun h => .inl ⟨h, by omega⟩
        · rintro (⟨h, -⟩ | ⟨h, -⟩)
          · exact h
          · omega

/-- **When a lane is right.** -/
theorem shlLane_iff (host : Host) (hx : t.int.Holds x) :
    (∃ dest, shlLane host rounding t x y = some dest ∧ dest ≡ shiftExact rounding x (amount y) [ZMOD 2 ^ t.int.width]) ↔
      ShlHolds rounding t x (amount y) := by
  by_cases hsmall : t.int.width ≤ 32
  · exact shlLane_small_iff hsmall hx
  · cases rounding with
    | false =>
      cases t with
      | u64 => exact iff_of_true (shlU64_exact hx y) trivial
      | s64 => exact iff_of_true (shlS64_exact hx y) trivial
      | _ => exact absurd (by decide) hsmall
    | true =>
      cases t with
      | u64 =>
        change (∃ dest, rshlU64 x y = some dest ∧ _) ↔ -63 ≤ amount y ∧ amount y ≤ 63 ∧ ShiftedOut true 64 x (amount y)
        rw [rshlU64_eq]
        split_ifs with hrange
        · simp only [Option.some.injEq, exists_eq_left']
          refine (shiftedOut_iff hx true (amount y)).trans ?_
          exact ⟨fun h => ⟨hrange.1, hrange.2, h⟩, fun h => h.2.2⟩
        · exact iff_of_false (by simp) (fun h => hrange ⟨h.1, h.2.1⟩)
      | s64 => exact rshlS64_iff hx y
      | _ => exact absurd (by decide) hsmall

/-- **Which shifts are the architecture's**: every lane of the result is the exact shift of the lane, modulo the lane's
size, exactly if the lanes and their amounts are such. -/
theorem neonShl_iff (host : Host) (rounding : Bool) (t : NeonType) (arg1 arg2 : BitVec t.word) :
    (∃ res, neonShl host rounding t arg1 arg2 = some res ∧ ∀ i < t.lanes,
        lane t.int res i ≡ shiftExact rounding (lane t.int arg1 i) (amount (lane t.int arg2 i))
          [ZMOD 2 ^ t.int.width]) ↔
      ∀ i < t.lanes, ShlHolds rounding t (lane t.int arg1 i) (amount (lane t.int arg2 i)) := by
  rw [neonShl_eq]
  refine (neonVop_iff (P := fun i v =>
    v ≡ shiftExact rounding (lane t.int arg1 i) (amount (lane t.int arg2 i)) [ZMOD 2 ^ t.int.width])).trans ?_
  refine forall₂_congr fun i _ => ?_
  rw [← shlLane_iff host (holds_lane t.int arg1 i)]
  refine exists_congr fun dest => and_congr_right fun _ => ?_
  exact ⟨fun h => (t.int.wrap_modEq dest).symm.trans h, fun h => (t.int.wrap_modEq dest).trans h⟩

end

/-- A host with a `size_t` of 64 bits. -/
def host64 : Host := { sizeType := .uint64, unsigned := rfl, wide := by decide }

/-- A lane of 8 bits, shifted to the left by 1, is 0. -/
theorem neonShl_one :
    neonShlU8 host64 1#32 1#32 = some 0#32 ∧ scaled (lane .uint8 1#32 0) (amount (lane .uint8 1#32 0)) = 2 ∧
      ¬ ∃ res, neonShl host64 false .u8 1#32 1#32 = some res ∧ ∀ i < NeonType.u8.lanes,
        lane .uint8 res i ≡ shiftExact false (lane .uint8 1#32 i) (amount (lane .uint8 1#32 i)) [ZMOD 2 ^ 8] := by
  have hlane : lane .uint8 1#32 0 = 1 := by decide
  have hamount : amount 1 = (1 : ℕ) := by decide
  have hres : neonShlU8 host64 1#32 1#32 = some 0#32 := by decide
  have hexact : scaled 1 (amount 1) = 2 := by
    rw [hamount, scaled_natCast]
    rfl
  rw [hlane]
  refine ⟨hres, hexact, ?_⟩
  rintro ⟨res, h, hlanes⟩
  obtain rfl : 0#32 = res := Option.some.inj (hres.symm.trans h)
  have hfirst := hlanes 0 (by decide)
  rw [hlane] at hfirst
  have hzero : lane .uint8 0#32 0 = 0 := by decide
  change lane .uint8 0#32 0 ≡ scaled 1 (amount 1) [ZMOD 2 ^ 8] at hfirst
  rw [hzero, hexact] at hfirst
  exact absurd hfirst (by decide)

end Emulator.Arm
