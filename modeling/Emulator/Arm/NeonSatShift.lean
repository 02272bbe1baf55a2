import Mathlib.Tactic
import Emulator.Arm.NeonShift

/-!
# NEON saturating shifts by a vector (`neon_qshl_*`, `neon_qrshl_*`)

The macros of `qshl` compare the amount as those of `shl` do. Those of `qrshl` do not compare it at all.

* `qshlU_eq`, `qshlS_eq`: the lanes of 8, 16 and 32 bits are saturated or 0, or they are the sign.
* `neonQshl_iff`: for which lanes the values and QC are the architecture's.
-/

namespace Emulator.Arm

open Lib Option IntType

/-! ## The lanes -/

section

variable (host : Host) (t : NeonType)

/-- `NEON_FN` of `qshl_u8`, `qshl_u16` and `qshl_u32`. -/
def qshlU (src1 src2 : ℤ) : Option (ℤ × Bool) := do
  let tmp := IntType.int8.wrap src2
  if host.sizeOf tmp ≥ host.sizeBits t then
    if src1 ≠ 0 then some (t.int.wrap (-1), true) else some (0, false)
  else if host.sizeOf tmp ≤ host.negSizeBits t then some (0, false)
  else if tmp < 0 then
    let dest ← t.int.promote.shr src1 (-tmp)
    some (dest, false)
  else
    let dest ← t.int.promote.shl src1 tmp
    let dest := t.int.wrap dest
    let back ← t.int.promote.shr dest tmp
    if back ≠ src1 then some (t.int.wrap (-1), true) else some (dest, false)

/-- `NEON_FN` of `qshl_s8`, `qshl_s16` and `qshl_s32`. The saturated lane is the sign of `src2`. -/
def qshlS (src1 src2 : ℤ) : Option (ℤ × Bool) := do
  let tmp := IntType.int8.wrap src2
  if host.sizeOf tmp ≥ host.sizeBits t then
    let dest ← t.int.promote.shr src1 31
    some (dest, src1 ≠ 0)
  else if host.sizeOf tmp ≤ host.negSizeBits t then
    let dest ← t.int.promote.shr src1 31
    some (dest, false)
  else if tmp < 0 then
    let dest ← t.int.promote.shr src1 (-tmp)
    some (dest, false)
  else
    let dest ← t.int.promote.shl src1 tmp
    let dest := t.int.wrap dest
    let back ← t.int.promote.shr dest tmp
    if back ≠ src1 then
      let dest ← t.int.promote.shr src2 31
      some (dest, true)
    else some (dest, false)

/-- `NEON_FN` of `qrshl_u8`, `qrshl_u16` and `qrshl_u32`. -/
def qrshlU (src1 src2 : ℤ) : Option (ℤ × Bool) := do
  let tmp := IntType.int8.wrap src2
  if tmp < 0 then
    let dest ← roundShr t src1 tmp
    some (dest, false)
  else
    let dest ← t.int.promote.shl src1 tmp
    let dest := t.int.wrap dest
    let back ← t.int.promote.shr dest tmp
    if back ≠ src1 then some (t.int.wrap (-1), true) else some (dest, false)

/-- `NEON_FN` of `qrshl_s8`, `qrshl_s16` and `qrshl_s32`. -/
def qrshlS (src1 src2 : ℤ) : Option (ℤ × Bool) := do
  let tmp := IntType.int8.wrap src2
  if tmp < 0 then
    let dest ← roundShr t src1 tmp
    some (dest, false)
  else
    let dest ← t.int.promote.shl src1 tmp
    let dest := t.int.wrap dest
    let back ← t.int.promote.shr dest tmp
    if back ≠ src1 then
      let dest ← t.int.promote.shr src1 31
      some (dest, true)
    else some (dest, false)

end

/-- The lane of `neon_qshl_u64`. -/
def qshlU64 (val shiftop : ℤ) : Option (ℤ × Bool) := do
  let shift := IntType.int8.wrap shiftop
  if shift ≥ 64 then
    if val ≠ 0 then some (IntType.uint64.wrap (-1), true) else some (0, false)
  else if shift ≤ -64 then some (0, false)
  else if shift < 0 then
    let val ← IntType.uint64.shr val (-shift)
    some (val, false)
  else
    let tmp := val
    let val ← IntType.uint64.shl val shift
    let back ← IntType.uint64.shr val shift
    if back ≠ tmp then some (IntType.uint64.wrap (-1), true) else some (val, false)

/-- The lane of `neon_qshl_s64`. -/
def qshlS64 (val shiftop : ℤ) : Option (ℤ × Bool) := do
  let shift := IntType.int8.wrap (IntType.uint8.wrap shiftop)
  if shift ≥ 64 then
    if val ≠ 0 then
      let sign ← IntType.int64.shr val 63
      some ((BitVec.ofInt 64 sign &&& ~~~ signBit64).toInt, true)
    else some (val, false)
  else if shift ≤ 64 then
    let val ← IntType.int64.shr val 63
    some (val, false)
  else if shift < 0 then
    let val ← IntType.int64.shr val (-shift)
    some (val, false)
  else
    let tmp := val
    let val ← IntType.int64.shl val shift
    let back ← IntType.int64.shr val shift
    if back ≠ tmp then
      let sign ← IntType.int64.shr tmp 63
      some ((BitVec.ofInt 64 sign ^^^ ~~~ signBit64).toInt, true)
    else some (val, false)

/-- The lane of `neon_qrshl_u64`: the half is an `int`. -/
def qrshlU64 (val shiftop : ℤ) : Option (ℤ × Bool) := do
  let shift := IntType.int8.wrap shiftop
  if shift < 0 then
    let half ← IntType.int32.shl 1 (-1 - shift)
    let val ← IntType.uint64.shr (IntType.uint64.wrap (val + IntType.uint64.wrap half)) (-shift)
    some (val, false)
  else
    let tmp := val
    let val ← IntType.uint64.shl val shift
    let back ← IntType.uint64.shr val shift
    if back ≠ tmp then some (IntType.uint64.wrap (-1), true) else some (val, false)

/-- The lane of `neon_qrshl_s64`. -/
def qrshlS64 (val shiftop : ℤ) : Option (ℤ × Bool) := do
  let shift := IntType.int8.wrap (IntType.uint8.wrap shiftop)
  if shift < 0 then
    let half ← IntType.int32.shl 1 (-1 - shift)
    let val ← IntType.int64.shr (IntType.int64.wrap (val + half)) (-shift)
    some (val, false)
  else
    let tmp := val
    let val ← IntType.int64.shl val shift
    let back ← IntType.int64.shr val shift
    if back ≠ tmp then
      let val ← IntType.int64.shr tmp 31
      some (val, true)
    else some (val, false)

/-! ## The helpers -/

section

variable (host : Host)

def neonQshlU8 : NeonState → Word → Word → Option (NeonState × Word) := neonVopEnv .u8 (qshlU host .u8)
def neonQshlU16 : NeonState → Word → Word → Option (NeonState × Word) := neonVopEnv .u16 (qshlU host .u16)
def neonQshlU32 : NeonState → Word → Word → Option (NeonState × Word) := neonVopEnv .u32 (qshlU host .u32)
def neonQshlU64 : NeonState → BitVec 64 → BitVec 64 → Option (NeonState × BitVec 64) := neonVopEnv .u64 qshlU64
def neonQshlS8 : NeonState → Word → Word → Option (NeonState × Word) := neonVopEnv .s8 (qshlS host .s8)
def neonQshlS16 : NeonState → Word → Word → Option (NeonState × Word) := neonVopEnv .s16 (qshlS host .s16)
def neonQshlS32 : NeonState → Word → Word → Option (NeonState × Word) := neonVopEnv .s32 (qshlS host .s32)
def neonQshlS64 : NeonState → BitVec 64 → BitVec 64 → Option (NeonState × BitVec 64) := neonVopEnv .s64 qshlS64
def neonQrshlU8 : NeonState → Word → Word → Option (NeonState × Word) := neonVopEnv .u8 (qrshlU .u8)
def neonQrshlU16 : NeonState → Word → Word → Option (NeonState × Word) := neonVopEnv .u16 (qrshlU .u16)
def neonQrshlU32 : NeonState → Word → Word → Option (NeonState × Word) := neonVopEnv .u32 (qrshlU .u32)
def neonQrshlU64 : NeonState → BitVec 64 → BitVec 64 → Option (NeonState × BitVec 64) := neonVopEnv .u64 qrshlU64
def neonQrshlS8 : NeonState → Word → Word → Option (NeonState × Word) := neonVopEnv .s8 (qrshlS .s8)
def neonQrshlS16 : NeonState → Word → Word → Option (NeonState × Word) := neonVopEnv .s16 (qrshlS .s16)
def neonQrshlS32 : NeonState → Word → Word → Option (NeonState × Word) := neonVopEnv .s32 (qrshlS .s32)
def neonQrshlS64 : NeonState → BitVec 64 → BitVec 64 → Option (NeonState × BitVec 64) := neonVopEnv .s64 qrshlS64

/-- The helper for a type of lanes, rounding or not. -/
def neonQshl : (rounding : Bool) → (t : NeonType) → NeonState → BitVec t.word → BitVec t.word →
    Option (NeonState × BitVec t.word)
  | false, .u8 => neonQshlU8 host
  | false, .u16 => neonQshlU16 host
  | false, .u32 => neonQshlU32 host
  | false, .u64 => neonQshlU64
  | false, .s8 => neonQshlS8 host
  | false, .s16 => neonQshlS16 host
  | false, .s32 => neonQshlS32 host
  | false, .s64 => neonQshlS64
  | true, .u8 => neonQrshlU8
  | true, .u16 => neonQrshlU16
  | true, .u32 => neonQrshlU32
  | true, .u64 => neonQrshlU64
  | true, .s8 => neonQrshlS8
  | true, .s16 => neonQrshlS16
  | true, .s32 => neonQrshlS32
  | true, .s64 => neonQrshlS64

/-- The `NEON_FN` of it. -/
def qshlLane : (rounding : Bool) → (t : NeonType) → ℤ → ℤ → Option (ℤ × Bool)
  | false, .u64 => qshlU64
  | false, .s64 => qshlS64
  | true, .u64 => qrshlU64
  | true, .s64 => qrshlS64
  | false, t => if t.int.signed then qshlS host t else qshlU host t
  | true, t => if t.int.signed then qrshlS t else qrshlU t

end

theorem neonQshl_eq (host : Host) (rounding : Bool) (t : NeonType) :
    neonQshl host rounding t = neonVopEnv t (qshlLane host rounding t) := by
  cases rounding <;> cases t <;> rfl

/-! ## Shifts to the left -/

section

variable {t T : IntType} {x : ℤ}

/-- A left shift that is shifted back, in the promoted type: it gives the exact lane, or the saturated one. -/
theorem shiftBack_promoted (hT : t.width ≤ T.width) (x : ℤ) (n : ℕ) (saturated : Option (ℤ × Bool)) :
    (T.shl x n >>= fun dest => T.shr (t.wrap dest) n >>= fun back =>
        if back ≠ x then saturated else some (t.wrap dest, false)) =
      if n < T.width then if t.Holds (x * 2 ^ n) then some (x * 2 ^ n, false) else saturated else none := by
  by_cases hn : n < T.width
  · rw [shl_natCast hn, if_pos hn, bind_eq_bind, bind_some, wrap_wrap hT,
      shr_natCast hn, bind_some]
    by_cases hholds : t.Holds (x * 2 ^ n)
    · rw [if_neg (not_not.2 ((t.shiftBack_iff x n).2 hholds)), if_pos hholds, wrap_of_holds hholds]
    · rw [if_pos (mt (t.shiftBack_iff x n).1 hholds), if_neg hholds]
  · rw [shl_of_ge (by omega), if_neg hn]
    rfl

/-- The same where the type is not promoted. -/
theorem shiftBack_same (t : IntType) (x : ℤ) (n : ℕ) (saturated : Option (ℤ × Bool)) :
    (t.shl x n >>= fun dest => t.shr dest n >>= fun back => if back ≠ x then saturated else some (dest, false)) =
      if n < t.width then if t.Holds (x * 2 ^ n) then some (x * 2 ^ n, false) else saturated else none := by
  rw [← shiftBack_promoted le_rfl x n saturated]
  by_cases hn : n < t.width
  · rw [shl_natCast hn, bind_eq_bind, bind_some, bind_some,
      wrap_of_holds (t.holds_wrap _)]
  · rw [shl_of_ge (by omega)]
    rfl

end

/-! ## Shifts to the right -/

section

variable {t : NeonType} {x : ℤ}

theorem promote_width (hsmall : t.int.width ≤ 32) : t.int.promote.width = 32 := by
  cases t <;> first | rfl | exact absurd hsmall (by decide)

/-- The half that is added is an `int`. -/
theorem half_eq {k : ℕ} (hk : k < 31) : IntType.int32.shl 1 k = some (2 ^ k) := by
  have hpow : (2 : ℤ) ^ k ≤ 2 ^ 30 := pow_le_pow_right₀ (by norm_num) (by omega)
  have hholds : IntType.int32.Holds (2 ^ k) :=
    ⟨le_trans (by decide) (show (0 : ℤ) ≤ 2 ^ k by positivity), le_trans hpow (by decide)⟩
  rw [shl_natCast (t := .int32) (show k < 32 by omega), one_mul, wrap_of_holds hholds]

theorem roundShr_eq (hsmall : t.int.width ≤ 32) (x : ℤ) (k : ℕ) :
    roundShr t x (-(k + 1 : ℕ)) =
      if k < 31 then some (t.int.promote.wrap (x + 2 ^ k) / 2 ^ (k + 1)) else none := by
  have hhalf : -1 - -((k + 1 : ℕ) : ℤ) = k := by omega
  have hwidth := promote_width hsmall
  unfold roundShr
  rw [hhalf, neg_neg]
  split_ifs with hk
  · have hsum : t.int.promote.wrap (x + t.int.promote.wrap (2 ^ k)) = t.int.promote.wrap (x + 2 ^ k) :=
      IntType.wrap_congr ((t.int.promote.wrap_modEq (2 ^ k)).add_left x)
    rw [half_eq hk, bind_eq_bind, bind_some, hsum, shr_natCast (by omega)]
  · cases IntType.int32.shl 1 k with
    | none => rfl
    | some half =>
      rw [bind_eq_bind, bind_some, shr_of_ge (by omega)]

/-- A rounding shift in 8 or 16 bits is exact, and one in 32 bits if the sum does not overflow. -/
theorem roundShr_iff (hsmall : t.int.width ≤ 32) (hx : t.int.Holds x) (k : ℕ) :
    (∃ dest, roundShr t x (-(k + 1 : ℕ)) = some dest ∧ t.int.wrap dest = rounded x (-(k + 1 : ℕ))) ↔
      k < 31 ∧ (32 ≤ t.int.width → x + 2 ^ k ≤ t.int.maxValue) := by
  have hexact := holds_shiftExact_neg hx true k
  change t.int.Holds (rounded x (-(k + 1 : ℕ))) at hexact
  rw [roundShr_eq hsmall]
  split_ifs with hk
  · simp only [Option.some.injEq, exists_eq_left', hk, true_and]
    rw [wrap_eq_iff hexact, rounded_neg]
    by_cases hnarrow : t.int.width < 32
    · refine iff_of_true ?_ (fun h => absurd hnarrow (by omega))
      have hsum : t.int.promote.Holds (x + 2 ^ k) := by
        have hpow : (2 : ℤ) ^ k ≤ 2 ^ 30 := pow_le_pow_right₀ (by norm_num) (by omega)
        have hpos : (0 : ℤ) ≤ 2 ^ k := by positivity
        have hbounds : -2 ^ 15 ≤ t.int.minValue ∧ t.int.maxValue < 2 ^ 16 ∧ t.int.promote = .int32 := by
          cases t <;> first | (refine ⟨by decide, by decide, rfl⟩) | exact absurd hnarrow (by decide)
        obtain ⟨hlow, hhigh⟩ := hx
        rw [hbounds.2.2]
        constructor
        · change -2 ^ 31 ≤ x + 2 ^ k
          omega
        · change x + 2 ^ k ≤ 2 ^ 31 - 1
          omega
      rw [wrap_of_holds hsum]
    · have hpromote : t.int.promote = t.int := if_neg hnarrow
      rw [hpromote, wrap_add_half_iff hx (by omega)]
      exact ⟨fun h _ => h, fun h => h (by omega)⟩
  · simp [hk]

/-- **Rounding in 64 bits** with a half that is an `int`: the half is negative for an amount of -32, and shifted too
far beyond it. -/
theorem roundShr64_iff {t : IntType} (hwidth : t.width = 64) (hx : t.Holds x) (k : ℕ) :
    (∃ dest, (IntType.int32.shl 1 (-1 - -((k + 1 : ℕ) : ℤ)) >>= fun half =>
        t.shr (t.wrap (x + half)) (-(-((k + 1 : ℕ) : ℤ)))) = some dest ∧ t.wrap dest = rounded x (-(k + 1 : ℕ))) ↔
      k < 31 ∧ x + 2 ^ k ≤ t.maxValue := by
  have hhalf : -1 - -((k + 1 : ℕ) : ℤ) = k := by omega
  have hexact := holds_shiftExact_neg hx true k
  change t.Holds (rounded x (-(k + 1 : ℕ))) at hexact
  rw [hhalf, neg_neg]
  rcases Nat.lt_or_ge k 31 with hk | hk
  · rw [half_eq hk, bind_eq_bind, bind_some, shr_natCast (by omega)]
    simp only [Option.some.injEq, exists_eq_left', hk, true_and]
    rw [wrap_eq_iff hexact, rounded_neg, wrap_add_half_iff hx (by omega)]
  · refine iff_of_false ?_ (by omega)
    rintro ⟨dest, hdest, hvalue⟩
    rcases Nat.eq_or_lt_of_le hk with rfl | hlong
    · have hneg : IntType.int32.shl 1 (31 : ℕ) = some (-2 ^ 31) := by decide
      rw [hneg, bind_eq_bind, bind_some, shr_natCast (by omega)] at hdest
      obtain rfl := Option.some.inj hdest
      rw [wrap_eq_iff hexact, rounded_neg] at hvalue
      -- the two sums differ by 2 ^ 32, and by whole words
      obtain ⟨j, hj⟩ := (t.wrap_modEq (x + -2 ^ 31)).dvd
      have hdvd := hvalue.dvd
      rw [hwidth] at hj hdvd
      omega
    · rw [shl_of_ge (t := .int32) (show (32 : ℤ) ≤ k by omega)] at hdest
      cases hdest

theorem roundShr64_none {t : IntType} (hwidth : t.width = 64) (x : ℤ) (k : ℕ) :
    (IntType.int32.shl 1 (-1 - -((k + 1 : ℕ) : ℤ)) >>= fun half =>
        t.shr (t.wrap (x + half)) (-(-((k + 1 : ℕ) : ℤ)))) = none ↔ ¬ (k < 31 ∨ (k = 31 ∧ 32 < t.width)) := by
  have hhalf : -1 - -((k + 1 : ℕ) : ℤ) = k := by omega
  rw [hhalf, neg_neg]
  by_cases hk : k < 32
  · rw [shl_natCast (t := .int32) hk, bind_eq_bind, bind_some, shr_natCast (by omega)]
    exact iff_of_false (by simp) (by omega)
  · rw [shl_of_ge (t := .int32) (show (32 : ℤ) ≤ k by omega)]
    exact iff_of_true rfl (by omega)

end

/-! ## The macros in closed form -/

section

variable {host : Host} {t : NeonType} {x y : ℤ}

/-- **Unsigned lanes are saturated or 0**, whatever the amount is. -/
theorem qshlU_eq (x y : ℤ) :
    qshlU host t x y =
      if (amount y < 0 ∨ t.int.width ≤ amount y) ∧ x ≠ 0 then some (t.int.wrap (-1), true) else some (0, false) := by
  have hwidth := t.int.width_pos
  unfold qshlU
  simp only [Host.ge_sizeBits_iff (amount_holds y), Host.le_negSizeBits_iff (amount_holds y)]
  split_ifs with hout hne hboth hboth hle
  all_goals first | rfl | omega

/-- **Signed lanes are the sign**, whatever the amount is. -/
theorem qshlS_eq (hsmall : t.int.width ≤ 32) (x y : ℤ) :
    qshlS host t x y = some (x / 2 ^ 31, decide ((amount y < 0 ∨ t.int.width ≤ amount y) ∧ x ≠ 0)) := by
  have hwidth := t.int.width_pos
  have hsign : t.int.promote.shr x 31 = some (x / 2 ^ 31) :=
    shr_natCast (n := 31) (by rw [promote_width hsmall]; decide) x
  unfold qshlS
  simp only [Host.ge_sizeBits_iff (amount_holds y), Host.le_negSizeBits_iff (amount_holds y), hsign]
  split_ifs with hout hle
  · simp [hout]
  · simp [hout]
  all_goals omega

/-- The sign of a lane. -/
def laneSign (x : ℤ) : ℤ := if x < 0 then -1 else 0

/-- **`neon_qshl_s64` is the sign** for every amount below 64: `shift <= 64` is for `shift <= -64`. -/
theorem qshlS64_eq (x y : ℤ) (hx : IntType.int64.Holds x) :
    qshlS64 x y =
      if 64 ≤ amount y ∧ x ≠ 0 then some (if x < 0 then 2 ^ 63 - 1 else 0, true)
      else some (laneSign x, false) := by
  have hbyte : IntType.int8.wrap (IntType.uint8.wrap y) = amount y := wrap_wrap (by decide) y
  have hsign : IntType.int64.shr x 63 = some (if x < 0 then -1 else 0) := by
    rw [← ediv_pow_of_holds hx (n := 63) (by decide) (by decide)]
    exact shr_natCast (t := .int64) (n := 63) (by decide) x
  unfold laneSign
  unfold qshlS64
  rw [hbyte]
  simp only [hsign, bind_eq_bind, bind_some]
  split_ifs with hlong hne hneg hboth hboth hle
  all_goals first | rfl | omega | rw [not_not.1 hne]

theorem qshlLane_small (hsmall : t.int.width ≤ 32) (rounding : Bool) :
    qshlLane host rounding t =
      if rounding then if t.int.signed then qrshlS t else qrshlU t
      else if t.int.signed then qshlS host t else qshlU host t := by
  cases rounding <;> cases t <;> first | rfl | exact absurd hsmall (by decide)

/-- What a rounding shift to the left stores in a lane that overflows. -/
def qrshlSaturated (t : IntType) (x : ℤ) : ℤ := if t.signed then x / 2 ^ 31 else t.wrap (-1)

theorem qrshl_natCast (x : ℤ) {n : ℕ} (hn : amount y = n) :
    qshlLane host true t x y =
      if n < t.int.promote.width then
        if t.int.Holds (x * 2 ^ n) then some (x * 2 ^ n, false) else some (qrshlSaturated t.int x, true)
      else none := by
  have hpos : ¬ (n : ℤ) < 0 := by omega
  have hbyte : IntType.int8.wrap (IntType.uint8.wrap y) = amount y := wrap_wrap (by decide) y
  have hfit : t.int.width ≤ t.int.promote.width := by cases t <;> decide
  have hsign : t.int.promote.shr x 31 = some (x / 2 ^ 31) :=
    shr_natCast (n := 31) (by cases t <;> decide) x
  by_cases hsmall : t.int.width ≤ 32
  · rw [qshlLane_small hsmall, if_pos rfl]
    unfold qrshlSaturated
    cases hsigned : t.int.signed with
    | false =>
      simp only [Bool.false_eq_true, if_false]
      rw [← shiftBack_promoted hfit]
      unfold qrshlU
      rw [show IntType.int8.wrap y = n from hn, if_neg hpos]
    | true =>
      rw [if_pos rfl, if_pos rfl, ← shiftBack_promoted hfit]
      unfold qrshlS
      rw [show IntType.int8.wrap y = n from hn, if_neg hpos, hsign]
      rfl
  · cases t with
    | u64 =>
      change qrshlU64 x y = _
      unfold qrshlU64
      rw [show IntType.int8.wrap y = n from hn, if_neg hpos]
      exact shiftBack_same .uint64 x n _
    | s64 =>
      change qrshlS64 x y = _
      unfold qrshlS64
      have hsign64 : IntType.int64.shr x 31 = some (x / 2 ^ 31) := hsign
      rw [hbyte, hn, if_neg hpos]
      dsimp only
      rw [hsign64]
      exact shiftBack_same .int64 x n _
    | _ => exact absurd (by decide) hsmall

theorem bind_unsaturated (value : Option ℤ) : (value >>= fun dest => some (dest, false)) = value.map (·, false) := by
  cases value <;> rfl

/-- A rounding shift to the right, by its value. -/
theorem qrshl_neg (host : Host) (hx : t.int.Holds x) {k : ℕ} (hk : amount y = -(k + 1 : ℕ)) :
    ∃ value : Option ℤ, qshlLane host true t x y = value.map (·, false) ∧
      ((∃ dest, value = some dest ∧ t.int.wrap dest = rounded x (-(k + 1 : ℕ))) ↔
        k < 31 ∧ (32 ≤ t.int.width → x + 2 ^ k ≤ t.int.maxValue)) ∧
      (value = none ↔ ¬ (k < 31 ∨ (k = 31 ∧ 32 < t.int.width))) := by
  have hneg : -((k + 1 : ℕ) : ℤ) < 0 := by omega
  have hbyte : IntType.int8.wrap (IntType.uint8.wrap y) = amount y := wrap_wrap (by decide) y
  by_cases hsmall : t.int.width ≤ 32
  · refine ⟨roundShr t x (-(k + 1 : ℕ)), ?_, roundShr_iff hsmall hx k, by rw [roundShr_eq hsmall]; split_ifs <;>
      simp <;> omega⟩
    rw [qshlLane_small hsmall, if_pos rfl]
    cases hsigned : t.int.signed with
    | false =>
      rw [if_neg (by decide)]
      unfold qrshlU
      rw [show IntType.int8.wrap y = _ from hk, if_pos hneg]
      exact bind_unsaturated _
    | true =>
      rw [if_pos rfl]
      unfold qrshlS
      rw [show IntType.int8.wrap y = _ from hk, if_pos hneg]
      exact bind_unsaturated _
  · have hwide : 32 ≤ t.int.width := by omega
    have hsum : ∀ p : Prop, p ↔ (32 ≤ t.int.width → p) := fun p => ⟨fun h _ => h, fun h => h hwide⟩
    rw [← hsum]
    cases t with
    | u64 =>
      refine ⟨_, ?_, roundShr64_iff rfl hx k, roundShr64_none rfl x k⟩
      change qrshlU64 x y = _
      unfold qrshlU64
      rw [show IntType.int8.wrap y = _ from hk, if_pos hneg]
      cases IntType.int32.shl 1 (-1 - -((k + 1 : ℕ) : ℤ)) with
      | none => rfl
      | some half =>
        have hhalf : IntType.uint64.wrap (x + IntType.uint64.wrap half) = IntType.uint64.wrap (x + half) :=
          IntType.wrap_congr ((IntType.uint64.wrap_modEq half).add_left x)
        rw [bind_eq_bind, bind_some, bind_eq_bind, bind_some, hhalf]
        exact bind_unsaturated _
    | s64 =>
      refine ⟨_, ?_, roundShr64_iff rfl hx k, roundShr64_none rfl x k⟩
      change qrshlS64 x y = _
      unfold qrshlS64
      rw [hbyte, hk, if_pos hneg]
      cases IntType.int32.shl 1 (-1 - -((k + 1 : ℕ) : ℤ)) with
      | none => rfl
      | some half =>
        rw [bind_eq_bind, bind_some, bind_eq_bind, bind_some]
        exact bind_unsaturated _
    | _ => exact absurd (by decide) hsmall

end

/-! ## The architecture's saturating shifts -/

/-- The lane is the exact value clamped, and it sets QC exactly if it was clamped. -/
def LaneSaturates (t : IntType) (exact : ℤ) (out : ℤ × Bool) : Prop :=
  t.wrap out.1 = t.clamp exact ∧ (out.2 = true ↔ ¬ t.Holds exact)

/-- The lanes `x` and amounts `s` for which a helper is right. -/
def QshlHolds : (rounding : Bool) → NeonType → (x s : ℤ) → Prop
  | false, .u64, _, _ => True
  | false, .s64, x, s => x = 0 ∨ (s < 0 ∧ -2 ^ (-s).toNat ≤ x ∧ x < 2 ^ (-s).toNat) ∨ (x = -1 ∧ s = 0)
  | false, t, x, s => x = 0 ∨ (if t.int.signed then x = -1 ∧ s = 0 else t.int.width ≤ s)
  | true, t, x, s =>
    (-31 ≤ s ∧ s < 0 ∧ (32 ≤ t.int.width → x + 2 ^ (-1 - s).toNat ≤ t.int.maxValue)) ∨
      (0 ≤ s ∧ s < t.int.promote.width ∧ (t.int.signed → t.int.Holds (x * 2 ^ s.toNat)))

section

variable {t : IntType} {x : ℤ} {out : ℤ × Bool}

theorem laneSaturates_of_holds {v : ℤ} (hx : t.Holds x) (hv : t.wrap v = x) : LaneSaturates t x (v, false) := by
  refine ⟨hv.trans (clamp_of_holds hx).symm, ?_⟩
  simp [hx]

theorem laneSaturates_iff_of_holds {v : ℤ} (hx : t.Holds x) : LaneSaturates t x (v, false) ↔ t.wrap v = x := by
  unfold LaneSaturates
  rw [clamp_of_holds hx]
  simp [hx]

theorem laneSaturates_zero (t : IntType) : LaneSaturates t 0 (0, false) :=
  laneSaturates_of_holds t.holds_zero (wrap_of_holds t.holds_zero)

/-- Only the saturated lane is the largest value. -/
theorem laneSaturates_max (hlarge : t.maxValue < x) (hsigned : t.signed = false) :
    LaneSaturates t x (t.wrap (-1), true) := by
  refine ⟨?_, ?_⟩
  · rw [wrap_of_holds (t.holds_wrap _), wrap_neg_one hsigned, clamp_of_gt hlarge]
  · simp only [true_iff]
    exact fun hholds => absurd hholds.2 (not_le.2 hlarge)

/-- A lane that is neither the smallest nor the largest value was not clamped. -/
theorem clamp_eq_iff_of_between {v : ℤ} (hlow : t.minValue < v) (hhigh : v < t.maxValue) : t.clamp x = v ↔ x = v := by
  unfold IntType.clamp
  omega

theorem le_mul_pow (hx : 0 ≤ x) (n : ℕ) : x ≤ x * 2 ^ n := le_mul_of_one_le_right hx (one_le_pow₀ (by norm_num))

theorem lt_mul_pow (hx : 0 < x) (hsigned : t.signed = false) {n : ℕ} (hn : t.width ≤ n) : t.maxValue < x * 2 ^ n := by
  have hmax := t.maxValue_eq
  rw [minValue_unsigned hsigned] at hmax
  have hpow : (2 : ℤ) ^ t.width ≤ 2 ^ n := pow_le_pow_right₀ (by norm_num) hn
  have hmul : (2 : ℤ) ^ n ≤ x * 2 ^ n := le_mul_of_one_le_left (by positivity) hx
  omega

end

section

variable {host : Host} {t : NeonType} {x y : ℤ}

theorem qshlU_iff (hsigned : t.int.signed = false) (hx : t.int.Holds x) :
    (∃ out, qshlU host t x y = some out ∧ LaneSaturates t.int (scaled x (amount y)) out) ↔
      x = 0 ∨ t.int.width ≤ amount y := by
  have hzero : 0 ≤ x := minValue_unsigned hsigned ▸ hx.1
  have hmax : 0 < t.int.maxValue := by cases t <;> decide
  have hwidth := t.int.width_pos
  simp only [qshlU_eq]
  obtain ⟨n, hn⟩ | ⟨k, hk⟩ := amount_cases (amount y)
  · rw [hn, scaled_natCast]
    split_ifs with hout
    · refine iff_of_true ⟨_, rfl, laneSaturates_max (lt_mul_pow (by omega) hsigned (by omega)) hsigned⟩ (by omega)
    · simp only [Option.some.injEq, exists_eq_left']
      rcases eq_or_ne x 0 with rfl | hne
      · rw [zero_mul]
        exact iff_of_true (laneSaturates_zero _) (by omega)
      · have hle := le_mul_pow hzero n
        refine iff_of_false ?_ (by omega)
        rintro ⟨hvalue, -⟩
        rw [wrap_of_holds t.int.holds_zero] at hvalue
        unfold IntType.clamp at hvalue
        have := t.int.minValue_nonpos
        omega
  · have hexact := holds_shiftExact_neg hx false k
    change t.int.Holds (scaled x (-(k + 1 : ℕ))) at hexact
    rw [hk]
    rcases eq_or_ne x 0 with rfl | hne
    · rw [if_neg (by simp)]
      simp only [Option.some.injEq, exists_eq_left', true_or, iff_true]
      refine laneSaturates_of_holds hexact ?_
      rw [scaled_neg, Int.zero_ediv, wrap_of_holds t.int.holds_zero]
    · rw [if_pos (by omega)]
      simp only [Option.some.injEq, exists_eq_left']
      refine iff_of_false ?_ (by omega)
      rintro ⟨-, hsat⟩
      exact hsat.1 rfl hexact

theorem sign_between (hsigned : t.int.signed = true) (x : ℤ) :
    t.int.minValue < laneSign x ∧ laneSign x < t.int.maxValue := by
  have hbounds : t.int.minValue < -1 ∧ 0 < t.int.maxValue := by
    cases t <;> first | exact absurd hsigned (by decide) | (constructor <;> decide)
  unfold laneSign
  split_ifs <;> omega

theorem holds_sign (hsigned : t.int.signed = true) (x : ℤ) : t.int.Holds (laneSign x) :=
  ⟨(sign_between hsigned x).1.le, (sign_between hsigned x).2.le⟩

/-- The sign is the clamped value only of itself. -/
theorem sign_eq_clamp_iff {exact : ℤ} (hsigned : t.int.signed = true) :
    t.int.wrap (laneSign x) = t.int.clamp exact ↔ exact = laneSign x := by
  obtain ⟨hlow, hhigh⟩ := sign_between hsigned x
  rw [wrap_of_holds (holds_sign hsigned x), eq_comm, clamp_eq_iff_of_between hlow hhigh]

theorem laneSaturates_sign_iff {exact : ℤ} {b : Bool} (hsigned : t.int.signed = true) :
    LaneSaturates t.int exact (laneSign x, b) ↔ exact = laneSign x ∧ b = false := by
  unfold LaneSaturates
  rw [sign_eq_clamp_iff hsigned]
  refine and_congr_right fun h => ?_
  rw [h]
  simp [holds_sign hsigned x]

theorem mul_pow_eq_sign_iff (x : ℤ) (n : ℕ) : x * 2 ^ n = laneSign x ↔ x = 0 ∨ (x = -1 ∧ n = 0) := by
  unfold laneSign
  split_ifs with hneg
  · constructor
    · intro h
      have hle := le_mul_pow (show 0 ≤ -x by omega) n
      have hx : x = -1 := by linarith
      refine .inr ⟨hx, ?_⟩
      by_contra hn
      have htwo : (2 : ℤ) ^ 1 ≤ 2 ^ n := pow_le_pow_right₀ (by norm_num) (by omega)
      rw [hx] at h
      omega
    · rintro (rfl | ⟨rfl, rfl⟩) <;> simp at *
  · have hpos : (2 : ℤ) ^ n ≠ 0 := by positivity
    rw [mul_eq_zero, or_iff_left hpos]
    omega

theorem ediv_pow_eq_sign_iff (x : ℤ) (k : ℕ) : x / 2 ^ k = laneSign x ↔ -2 ^ k ≤ x ∧ x < 2 ^ k := by
  have hpos : (0 : ℤ) < 2 ^ k := by positivity
  have hdiv := Int.mul_ediv_add_emod x (2 ^ k)
  have hlow := Int.emod_nonneg x hpos.ne'
  have hhigh := Int.emod_lt_of_pos x hpos
  unfold laneSign
  split_ifs with hneg
  · constructor
    · intro h
      rw [h] at hdiv
      omega
    · exact fun h => Int.ediv_eq_neg_one_of_neg_of_le hneg (by omega)
  · constructor
    · intro h
      rw [h] at hdiv
      omega
    · exact fun h => Int.ediv_eq_zero_of_lt (not_lt.1 hneg) h.2

theorem qshlS_iff (hsmall : t.int.width ≤ 32) (hsigned : t.int.signed = true) (hx : t.int.Holds x) :
    (∃ out, qshlS host t x y = some out ∧ LaneSaturates t.int (scaled x (amount y)) out) ↔
      x = 0 ∨ (x = -1 ∧ amount y = 0) := by
  have hsign : x / 2 ^ 31 = laneSign x := ediv_pow_of_holds hx (by omega) (fun h => absurd h (by simp [hsigned]))
  have hwidth := t.int.width_pos
  rw [qshlS_eq hsmall, hsign]
  simp only [Option.some.injEq, exists_eq_left', laneSaturates_sign_iff hsigned, decide_eq_false_iff_not]
  obtain ⟨n, hn⟩ | ⟨k, hk⟩ := amount_cases (amount y)
  · rw [hn, scaled_natCast, mul_pow_eq_sign_iff]
    omega
  · rw [hk, scaled_neg, ediv_pow_eq_sign_iff]
    have hpos : (0 : ℤ) < 2 ^ (k + 1) := by positivity
    omega

/-- The saturated lanes of `neon_qshl_s64` are exchanged for others. -/
theorem qshlS64_ne_clamp (hlong : 64 ≤ amount y) (hne : x ≠ 0) :
    IntType.int64.wrap (if x < 0 then 2 ^ 63 - 1 else 0) ≠ IntType.int64.clamp (scaled x (amount y)) := by
  obtain ⟨n, hn⟩ : ∃ n : ℕ, amount y = n := ⟨(amount y).toNat, by omega⟩
  have hpow : (2 : ℤ) ^ 64 ≤ 2 ^ n := pow_le_pow_right₀ (by norm_num) (by omega)
  rw [hn, scaled_natCast]
  rcases lt_or_gt_of_ne hne with hneg | hpos
  · have hlarge : x * 2 ^ n ≤ -2 ^ 64 := by nlinarith
    rw [clamp_of_lt (lt_of_le_of_lt hlarge (by decide)), if_pos hneg]
    decide
  · have hlarge : 2 ^ 64 ≤ x * 2 ^ n := by nlinarith
    rw [clamp_of_gt (lt_of_lt_of_le (by decide) hlarge), if_neg (by omega)]
    decide

theorem qshlS64_iff (hx : IntType.int64.Holds x) :
    (∃ out, qshlS64 x y = some out ∧ LaneSaturates .int64 (scaled x (amount y)) out) ↔
      QshlHolds false .s64 x (amount y) := by
  change _ ↔ x = 0 ∨ (amount y < 0 ∧ -2 ^ (-amount y).toNat ≤ x ∧ x < 2 ^ (-amount y).toNat) ∨ (x = -1 ∧ amount y = 0)
  rw [qshlS64_eq x y hx]
  by_cases hlong : 64 ≤ amount y ∧ x ≠ 0
  · rw [if_pos hlong]
    refine iff_of_false ?_ (by omega)
    rintro ⟨out, hout, hvalue, -⟩
    obtain rfl := Option.some.inj hout
    exact qshlS64_ne_clamp hlong.1 hlong.2 hvalue
  · rw [if_neg hlong]
    simp only [Option.some.injEq, exists_eq_left']
    refine (laneSaturates_sign_iff (t := .s64) rfl).trans ((and_iff_left rfl).trans ?_)
    obtain ⟨n, hn⟩ | ⟨k, hk⟩ := amount_cases (amount y)
    · rw [hn, scaled_natCast, mul_pow_eq_sign_iff]
      omega
    · rw [hk, scaled_neg, ediv_pow_eq_sign_iff, neg_neg, Int.toNat_natCast]
      have hpos : (0 : ℤ) < 2 ^ (k + 1) := by positivity
      omega

/-- `neon_qshl_u64` is right. -/
theorem qshlU64_exact (hx : IntType.uint64.Holds x) (y : ℤ) :
    ∃ out, qshlU64 x y = some out ∧ LaneSaturates .uint64 (scaled x (amount y)) out := by
  have hzero : 0 ≤ x := hx.1
  unfold qshlU64 amount
  dsimp only
  obtain ⟨n, hn⟩ | ⟨k, hk⟩ := amount_cases (IntType.int8.wrap y)
  · rw [hn, scaled_natCast]
    split_ifs with hlong hne hout hneg
    · rcases lt_or_gt_of_ne hne with h | hpos
      · omega
      · exact ⟨_, rfl, laneSaturates_max (lt_mul_pow hpos rfl (show 64 ≤ n by omega)) rfl⟩
    · rw [not_not.1 hne, zero_mul]
      exact ⟨_, rfl, laneSaturates_zero _⟩
    · omega
    · omega
    · rw [shiftBack_same, if_pos (show n < IntType.uint64.width from show n < 64 by omega)]
      split_ifs with hholds
      · exact ⟨_, rfl, laneSaturates_of_holds hholds (wrap_of_holds hholds)⟩
      · refine ⟨_, rfl, laneSaturates_max ?_ rfl⟩
        have hle := le_mul_pow hzero n
        exact not_le.1 fun h => hholds ⟨hzero.trans hle, h⟩
  · have hexact := holds_shiftExact_neg hx false k
    change IntType.uint64.Holds (scaled x (-(k + 1 : ℕ))) at hexact
    rw [hk]
    split_ifs with hlong hne hout hneg
    · omega
    · omega
    · have hshift := ediv_pow_of_holds hx (show 64 ≤ k + 1 + 1 by omega) (fun _ => show 64 ≤ k + 1 by omega)
      rw [if_neg (by omega), ← scaled_neg] at hshift
      rw [hshift]
      exact ⟨_, rfl, laneSaturates_zero _⟩
    · rw [neg_neg, shr_natCast (t := .uint64) (show k + 1 < 64 by omega), ← scaled_neg]
      exact ⟨_, rfl, laneSaturates_of_holds hexact (wrap_of_holds hexact)⟩
    · omega

/-- A signed lane that overflows is not clamped by a shift to the right. -/
theorem shr_ne_clamp (hsigned : t.int.signed = true) (hx : t.int.Holds x) {n : ℕ} (hover : ¬ t.int.Holds (x * 2 ^ n)) :
    t.int.wrap (x / 2 ^ 31) ≠ t.int.clamp (x * 2 ^ n) := by
  have hbounds : t.int.minValue < -1 ∧ 0 < t.int.maxValue := by
    cases t <;> first | exact absurd hsigned (by decide) | (constructor <;> decide)
  obtain ⟨hlow, hhigh⟩ := hx
  rcases lt_or_ge x 0 with hneg | hpos
  · have hle := le_mul_pow (show 0 ≤ -x by omega) n
    rw [neg_mul] at hle
    have hsmall : x * 2 ^ n < t.int.minValue := not_le.1 fun h => hover ⟨h, by omega⟩
    have hbetween : t.int.minValue < x / 2 ^ 31 := by omega
    rw [clamp_of_lt hsmall, wrap_of_holds ⟨hbetween.le, by omega⟩]
    exact hbetween.ne'
  · have hle := le_mul_pow hpos n
    have hlarge : t.int.maxValue < x * 2 ^ n := not_le.1 fun h => hover ⟨by omega, h⟩
    have hne : x ≠ 0 := by
      rintro rfl
      rw [zero_mul] at hlarge
      omega
    have hbetween : x / 2 ^ 31 < t.int.maxValue := by omega
    rw [clamp_of_gt hlarge, wrap_of_holds ⟨by omega, hbetween.le⟩]
    exact hbetween.ne

/-- **Rounding shifts**, which do not compare the amount with the width. -/
theorem qrshlLane_iff (hx : t.int.Holds x) :
    (∃ out, qshlLane host true t x y = some out ∧ LaneSaturates t.int (rounded x (amount y)) out) ↔
      QshlHolds true t x (amount y) := by
  change _ ↔ (-31 ≤ amount y ∧ amount y < 0 ∧ (32 ≤ t.int.width → x + 2 ^ (-1 - amount y).toNat ≤ t.int.maxValue)) ∨
    (0 ≤ amount y ∧ amount y < t.int.promote.width ∧ (t.int.signed → t.int.Holds (x * 2 ^ (amount y).toNat)))
  obtain ⟨n, hn⟩ | ⟨k, hk⟩ := amount_cases (amount y)
  · rw [qrshl_natCast x hn, hn, rounded_natCast, Int.toNat_natCast]
    have hright : ¬ ((n : ℤ) < 0) := by omega
    split_ifs with hfit hholds
    · exact iff_of_true ⟨_, rfl, laneSaturates_of_holds hholds (wrap_of_holds hholds)⟩
        (.inr ⟨by omega, by omega, fun _ => hholds⟩)
    · cases hsigned : t.int.signed with
      | false =>
        have hzero : 0 ≤ x := minValue_unsigned hsigned ▸ hx.1
        have hlarge : t.int.maxValue < x * 2 ^ n := by
          have hle := le_mul_pow hzero n
          exact not_le.1 fun h => hholds ⟨(minValue_unsigned hsigned).symm ▸ hzero.trans hle, h⟩
        refine iff_of_true ⟨_, rfl, ?_⟩ (.inr ⟨by omega, by omega, by simp⟩)
        rw [qrshlSaturated, hsigned]
        exact laneSaturates_max hlarge hsigned
      | true =>
        refine iff_of_false ?_ ?_
        · rintro ⟨out, hout, hvalue, -⟩
          obtain rfl := Option.some.inj hout
          rw [qrshlSaturated, if_pos hsigned] at hvalue
          exact shr_ne_clamp hsigned hx hholds hvalue
        · rintro (h | ⟨-, -, h⟩)
          · exact hright h.2.1
          · exact hholds (h rfl)
    · refine iff_of_false (by simp) ?_
      rintro (h | h) <;> omega
  · obtain ⟨value, hvalue, hiff, -⟩ := qrshl_neg host hx hk
    have hexact := holds_shiftExact_neg hx true k
    change t.int.Holds (rounded x (-(k + 1 : ℕ))) at hexact
    have hhalf : (-1 - -((k + 1 : ℕ) : ℤ)).toNat = k := by omega
    rw [hvalue, hk, hhalf]
    have hlane : (∃ out, value.map (·, false) = some out ∧ LaneSaturates t.int (rounded x (-(k + 1 : ℕ))) out) ↔
        ∃ dest, value = some dest ∧ t.int.wrap dest = rounded x (-(k + 1 : ℕ)) := by
      cases value with
      | none => simp
      | some dest => simp only [map_some, Option.some.injEq, exists_eq_left', laneSaturates_iff_of_holds hexact]
    rw [hlane, hiff]
    omega

/-- **When a lane is right.** -/
theorem qshlLane_iff (hx : t.int.Holds x) (rounding : Bool) :
    (∃ out, qshlLane host rounding t x y = some out ∧ LaneSaturates t.int (shiftExact rounding x (amount y)) out) ↔
      QshlHolds rounding t x (amount y) := by
  cases rounding with
  | true => exact qrshlLane_iff hx
  | false =>
    cases t with
    | u64 => exact iff_of_true (qshlU64_exact hx y) trivial
    | s64 => exact qshlS64_iff hx
    | u8 => exact qshlU_iff rfl hx
    | u16 => exact qshlU_iff rfl hx
    | u32 => exact qshlU_iff rfl hx
    | s8 => exact qshlS_iff (by decide) rfl hx
    | s16 => exact qshlS_iff (by decide) rfl hx
    | s32 => exact qshlS_iff (by decide) rfl hx

end

/-! ## Every lane -/

/-- What the lanes say of QC, where their values are right: each sets it exactly if it was clamped, or none was
clamped. -/
def FlagFollows (t : IntType) (fn : ℤ → ℤ → Option (ℤ × Bool)) (exact : ℤ → ℤ → ℤ) : Prop :=
  (∀ x y out, t.Holds x → fn x y = some out → t.wrap out.1 = t.clamp (exact x y) →
    (out.2 = true ↔ ¬ t.Holds (exact x y))) ∨
  ∀ x y out, t.Holds x → fn x y = some out → t.wrap out.1 = t.clamp (exact x y) → t.Holds (exact x y)

section

variable {t : NeonType} {fn : ℤ → ℤ → Option (ℤ × Bool)} {exact : ℤ → ℤ → ℤ}

/-- **Values and QC of a helper are right exactly if they are on each lane.** -/
theorem neonVopEnv_saturates_iff (hflag : FlagFollows t.int fn exact) (arg1 arg2 : BitVec t.word) :
    (∀ env, ∃ env' res, neonVopEnv t fn env arg1 arg2 = some (env', res) ∧
        (∀ i < t.lanes, lane t.int res i = t.int.clamp (exact (lane t.int arg1 i) (lane t.int arg2 i))) ∧
        (env'.qc = true ↔
          env.qc = true ∨ ∃ i < t.lanes, ¬ t.int.Holds (exact (lane t.int arg1 i) (lane t.int arg2 i)))) ↔
      ∀ i < t.lanes, ∃ out, fn (lane t.int arg1 i) (lane t.int arg2 i) = some out ∧
        LaneSaturates t.int (exact (lane t.int arg1 i) (lane t.int arg2 i)) out := by
  let P : ℕ → ℤ → Prop := fun i v => v = t.int.clamp (exact (lane t.int arg1 i) (lane t.int arg2 i))
  let clamped : Prop := ∃ i < t.lanes, ¬ t.int.Holds (exact (lane t.int arg1 i) (lane t.int arg2 i))
  have hword : ∀ env, (∃ env' res, neonVopEnv t fn env arg1 arg2 = some (env', res) ∧
      (∀ i < t.lanes, P i (lane t.int res i)) ∧ (env'.qc = true ↔ env.qc = true ∨ clamped)) ↔
        _ := fun _ => neonVopEnv_iff
  simp only [P] at hword
  rw [forall_congr' hword]
  constructor
  · intro h i hi
    obtain ⟨g, hg, hvalue, hset, hunset⟩ := h default
    refine ⟨g i, hg i hi, hvalue i hi, ?_⟩
    rcases hflag with hflag | hnone
    · exact hflag _ _ _ (holds_lane _ _ _) (hg i hi) (hvalue i hi)
    · -- no lane was clamped, so none may set QC
      have hholds : ∀ j < t.lanes, t.int.Holds (exact (lane t.int arg1 j) (lane t.int arg2 j)) :=
        fun j hj => hnone _ _ _ (holds_lane _ _ _) (hg j hj) (hvalue j hj)
      refine iff_of_false (fun hsat => ?_) (not_not.2 (hholds i hi))
      rcases (hset ⟨i, hi, hsat⟩).1 (NeonState.setQc_qc _) with hqc | ⟨j, hj, hover⟩
      · exact absurd hqc (by decide)
      · exact hover (hholds j hj)
  · intro h env
    obtain ⟨g, hg⟩ := choose_lanes h
    refine ⟨g, fun i hi => (hg i hi).1, fun i hi => (hg i hi).2.1, ?_, ?_⟩
    · rintro ⟨i, hi, hsat⟩
      exact iff_of_true (NeonState.setQc_qc _) (.inr ⟨i, hi, (hg i hi).2.2.1 hsat⟩)
    · intro hunset
      refine (or_iff_left ?_).symm
      rintro ⟨i, hi, hover⟩
      exact absurd ((hg i hi).2.2.2 hover) (by simp [hunset i hi])

end

section

variable {host : Host} {t : NeonType} {x y : ℤ} {out : ℤ × Bool}

theorem qshlU_flag (hsigned : t.int.signed = false) (hx : t.int.Holds x) (hout : qshlU host t x y = some out)
    (hvalue : t.int.wrap out.1 = t.int.clamp (scaled x (amount y))) :
    out.2 = true ↔ ¬ t.int.Holds (scaled x (amount y)) := by
  have hzero : 0 ≤ x := minValue_unsigned hsigned ▸ hx.1
  have hmax : 0 < t.int.maxValue := by cases t <;> decide
  have hmin := minValue_unsigned hsigned
  rw [qshlU_eq] at hout
  split_ifs at hout with hsat
  · obtain rfl := Option.some.inj hout
    refine iff_of_true rfl fun hholds => ?_
    rw [wrap_of_holds (t.int.holds_wrap _), wrap_neg_one hsigned,
      clamp_of_holds hholds] at hvalue
    obtain ⟨n, hn⟩ | ⟨k, hk⟩ := amount_cases (amount y)
    · have hlarge := lt_mul_pow (show 0 < x by omega) hsigned (n := n) (by omega)
      rw [hn, scaled_natCast] at hvalue
      exact hlarge.ne hvalue
    · have hsmaller : x / 2 ^ (k + 1) < x :=
        Int.ediv_lt_of_lt_mul (by positivity) (lt_mul_of_one_lt_right (by omega) (one_lt_pow₀ (by norm_num) (by omega)))
      have hhigh := hx.2
      rw [hk, scaled_neg] at hvalue
      omega
  · obtain rfl := Option.some.inj hout
    refine iff_of_false (by decide) (not_not.2 ?_)
    have hnonneg : 0 ≤ scaled x (amount y) := by
      obtain ⟨n, hn⟩ | ⟨k, hk⟩ := amount_cases (amount y)
      · rw [hn, scaled_natCast]
        positivity
      · rw [hk, scaled_neg]
        positivity
    rw [wrap_of_holds t.int.holds_zero] at hvalue
    unfold IntType.clamp at hvalue
    exact ⟨by omega, by omega⟩

theorem qshlS_holds (hsmall : t.int.width ≤ 32) (hsigned : t.int.signed = true) (hx : t.int.Holds x)
    (hout : qshlS host t x y = some out) (hvalue : t.int.wrap out.1 = t.int.clamp (scaled x (amount y))) :
    t.int.Holds (scaled x (amount y)) := by
  have hsign : x / 2 ^ 31 = laneSign x := ediv_pow_of_holds hx (by omega) (fun h => absurd h (by simp [hsigned]))
  rw [qshlS_eq hsmall, hsign] at hout
  obtain rfl := Option.some.inj hout
  rw [(sign_eq_clamp_iff hsigned).1 hvalue]
  exact holds_sign hsigned x

theorem qshlS64_holds (hx : IntType.int64.Holds x) (hout : qshlS64 x y = some out)
    (hvalue : IntType.int64.wrap out.1 = IntType.int64.clamp (scaled x (amount y))) :
    IntType.int64.Holds (scaled x (amount y)) := by
  rw [qshlS64_eq x y hx] at hout
  by_cases hlong : 64 ≤ amount y ∧ x ≠ 0
  · rw [if_pos hlong] at hout
    obtain rfl := Option.some.inj hout
    exact absurd hvalue (qshlS64_ne_clamp hlong.1 hlong.2)
  · rw [if_neg hlong] at hout
    obtain rfl := Option.some.inj hout
    rw [(sign_eq_clamp_iff (t := .s64) rfl).1 hvalue]
    exact holds_sign (t := .s64) rfl x

theorem qrshlLane_flag (hx : t.int.Holds x) (hout : qshlLane host true t x y = some out) :
    out.2 = true ↔ ¬ t.int.Holds (rounded x (amount y)) := by
  obtain ⟨n, hn⟩ | ⟨k, hk⟩ := amount_cases (amount y)
  · rw [qrshl_natCast x hn] at hout
    rw [hn, rounded_natCast]
    split_ifs at hout with hfit hholds
    · obtain rfl := Option.some.inj hout
      simp [hholds]
    · obtain rfl := Option.some.inj hout
      simp [hholds]
  · obtain ⟨value, hvalue, -, -⟩ := qrshl_neg host hx hk
    have hexact := holds_shiftExact_neg hx true k
    change t.int.Holds (rounded x (-(k + 1 : ℕ))) at hexact
    rw [hvalue] at hout
    obtain ⟨dest, -, rfl⟩ := map_eq_some_iff.1 hout
    rw [hk]
    exact iff_of_false Bool.false_ne_true (not_not.2 hexact)

theorem qshlLane_flag (host : Host) (rounding : Bool) (t : NeonType) :
    FlagFollows t.int (qshlLane host rounding t) (fun x y => shiftExact rounding x (amount y)) := by
  cases rounding with
  | true => exact .inl fun x y out hx hout _ => qrshlLane_flag hx hout
  | false =>
    cases t with
    | u64 =>
      refine .inl fun x y out hx hout _ => ?_
      obtain ⟨out', hout', hright⟩ := qshlU64_exact hx y
      obtain rfl := Option.some.inj (hout.symm.trans hout')
      exact hright.2
    | s64 => exact .inr fun x y out hx hout hvalue => qshlS64_holds hx hout hvalue
    | u8 => exact .inl fun x y out hx hout hvalue => qshlU_flag (t := .u8) rfl hx hout hvalue
    | u16 => exact .inl fun x y out hx hout hvalue => qshlU_flag (t := .u16) rfl hx hout hvalue
    | u32 => exact .inl fun x y out hx hout hvalue => qshlU_flag (t := .u32) rfl hx hout hvalue
    | s8 => exact .inr fun x y out hx hout hvalue => qshlS_holds (t := .s8) (by decide) rfl hx hout hvalue
    | s16 => exact .inr fun x y out hx hout hvalue => qshlS_holds (t := .s16) (by decide) rfl hx hout hvalue
    | s32 => exact .inr fun x y out hx hout hvalue => qshlS_holds (t := .s32) (by decide) rfl hx hout hvalue

end

/-- **Which saturating shifts are the architecture's**: every lane of the result is the exact shift of the lane, clamped
to the lane's range, and QC is set exactly if a lane was clamped. -/
theorem neonQshl_iff (host : Host) (rounding : Bool) (t : NeonType) (arg1 arg2 : BitVec t.word) :
    (∀ env, ∃ env' res, neonQshl host rounding t env arg1 arg2 = some (env', res) ∧
        (∀ i < t.lanes, lane t.int res i =
          t.int.clamp (shiftExact rounding (lane t.int arg1 i) (amount (lane t.int arg2 i)))) ∧
        (env'.qc = true ↔ env.qc = true ∨
          ∃ i < t.lanes, ¬ t.int.Holds (shiftExact rounding (lane t.int arg1 i) (amount (lane t.int arg2 i))))) ↔
      ∀ i < t.lanes, QshlHolds rounding t (lane t.int arg1 i) (amount (lane t.int arg2 i)) := by
  rw [neonQshl_eq]
  refine (neonVopEnv_saturates_iff (qshlLane_flag host rounding t) arg1 arg2).trans ?_
  exact forall₂_congr fun i _ => qshlLane_iff (holds_lane t.int arg1 i) rounding

/-- A lane of 8 bits, shifted to the left by 1, is 0. -/
theorem neonQshl_one :
    (∀ env, neonQshlU8 host64 env 1#32 1#32 = some (env, 0#32)) ∧ IntType.uint8.clamp (scaled 1 (amount 1)) = 2 ∧
      ¬ ∀ env, ∃ env' res, neonQshl host64 false .u8 env 1#32 1#32 = some (env', res) ∧
        (∀ i < NeonType.u8.lanes, lane .uint8 res i =
          IntType.uint8.clamp (shiftExact false (lane .uint8 1#32 i) (amount (lane .uint8 1#32 i)))) ∧
        (env'.qc = true ↔ env.qc = true ∨ ∃ i < NeonType.u8.lanes,
          ¬ IntType.uint8.Holds (shiftExact false (lane .uint8 1#32 i) (amount (lane .uint8 1#32 i)))) := by
  have hres : ∀ env, neonQshlU8 host64 env 1#32 1#32 = some (env, 0#32) := fun env => rfl
  have hclamp : IntType.uint8.clamp (scaled 1 (amount 1)) = 2 := by
    have hamount : amount 1 = (1 : ℕ) := by decide
    rw [hamount, scaled_natCast]
    decide
  refine ⟨hres, hclamp, fun h => ?_⟩
  obtain ⟨env', res, hrun, hlanes, -⟩ := h default
  obtain ⟨rfl, rfl⟩ := Prod.mk.inj (Option.some.inj ((hres default).symm.trans hrun))
  have hfirst := hlanes 0 (by decide)
  have hlane : lane .uint8 1#32 0 = 1 := by decide
  rw [hlane] at hfirst
  exact absurd (hfirst.trans hclamp) (by decide)

/-- A lane of 8 bits, shifted to the right by 1, sets QC and is the largest one. -/
example (env : NeonState) : neonQshlU8 host64 env 1#32 0xff#32 = some (env.setQc, 0xff#32) := rfl

end Emulator.Arm
