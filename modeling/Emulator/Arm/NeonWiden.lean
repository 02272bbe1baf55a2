import Mathlib.Tactic
import Emulator.Arm.Cpsr
import Emulator.Lib.LaneBits

/-!
# NEON helpers that widen (`target-arm/neon_helper.c`)

Absolute differences, products and extensions of lanes, in lanes of double width. A lane is
computed as an integer of 64 bits, by the conversions of C, and or-ed into the result.

* `widens_iff`: the lanes are exact, except where `neon_abdl_s64` has a difference that is no `int`.
-/

namespace Emulator.Arm

open Lib IntType

/-- `DO_ABD`. The difference is computed in the promoted type. -/
def doAbd (type : IntType) (x y : Word) : BitVec 64 :=
  let tmpX := type.wrap x.toNat
  let tmpY := type.wrap y.toNat
  BitVec.ofInt 64 (type.promote.wrap (if tmpX > tmpY then tmpX - tmpY else tmpY - tmpX))

/-- `DO_MULL`. -/
def doMull (type1 type2 : IntType) (x y : Word) : BitVec 64 :=
  let tmpX := type1.wrap x.toNat
  let tmpY := type1.wrap y.toNat
  BitVec.ofInt 64 (type2.wrap (type2.promote.wrap (type2.wrap tmpX * type2.wrap tmpY)))

/-- `(type) x`, as an `uint64_t`. -/
def cast64 (type : IntType) (x : ℤ) : BitVec 64 := BitVec.ofInt 64 (type.wrap x)

/-- The results for the four bytes of the operands, each of which is shifted down first. -/
def fourLanes (f : ℕ → BitVec 64) : BitVec 64 :=
  let result := f 0
  let tmp := f 8
  let result := result ||| (tmp <<< 16)
  let tmp := f 16
  let result := result ||| (tmp <<< 32)
  let tmp := f 24
  result ||| (tmp <<< 48)

/-- The results for the two halves. -/
def twoLanes (f : ℕ → BitVec 64) : BitVec 64 :=
  let result := f 0
  let tmp := f 16
  result ||| (tmp <<< 32)

def neonWidenU8 (x : Word) : BitVec 64 := fourLanes fun n => cast64 .uint8 (x >>> n).toNat
def neonWidenS8 (x : Word) : BitVec 64 := fourLanes fun n => cast64 .uint16 (IntType.int8.wrap (x >>> n).toNat)
def neonWidenU16 (x : Word) : BitVec 64 := twoLanes fun n => cast64 .uint16 (x >>> n).toNat

/-- The sign of the high half goes on to the top. -/
def neonWidenS16 (x : Word) : BitVec 64 :=
  let high := cast64 .int16 (x >>> 16).toNat
  cast64 .uint32 (IntType.int16.wrap x.toNat) ||| (high <<< 32)

def neonAbdlU16 (a b : Word) : BitVec 64 := fourLanes fun n => doAbd .uint8 (a >>> n) (b >>> n)
def neonAbdlS16 (a b : Word) : BitVec 64 := fourLanes fun n => doAbd .int8 (a >>> n) (b >>> n)
def neonAbdlU32 (a b : Word) : BitVec 64 := twoLanes fun n => doAbd .uint16 (a >>> n) (b >>> n)
def neonAbdlS32 (a b : Word) : BitVec 64 := twoLanes fun n => doAbd .int16 (a >>> n) (b >>> n)
def neonAbdlU64 (a b : Word) : BitVec 64 := doAbd .uint32 a b
def neonAbdlS64 (a b : Word) : BitVec 64 := doAbd .int32 a b

def neonMullU8 (a b : Word) : BitVec 64 := fourLanes fun n => doMull .uint8 .uint16 (a >>> n) (b >>> n)
def neonMullS8 (a b : Word) : BitVec 64 := fourLanes fun n => doMull .int8 .uint16 (a >>> n) (b >>> n)
def neonMullU16 (a b : Word) : BitVec 64 := twoLanes fun n => doMull .uint16 .uint32 (a >>> n) (b >>> n)
def neonMullS16 (a b : Word) : BitVec 64 := twoLanes fun n => doMull .int16 .uint32 (a >>> n) (b >>> n)

/-- The helpers that widen. -/
inductive WidenHelper
  | abdlU16
  | abdlS16
  | abdlU32
  | abdlS32
  | abdlU64
  | abdlS64
  | mullU8
  | mullS8
  | mullU16
  | mullS16
  | widenU8
  | widenS8
  | widenU16
  | widenS16
  deriving DecidableEq

namespace WidenHelper

/-- The type of the lanes of the operands. -/
def src : WidenHelper → IntType
  | abdlU16 | mullU8 | widenU8 => .uint8
  | abdlS16 | mullS8 | widenS8 => .int8
  | abdlU32 | mullU16 | widenU16 => .uint16
  | abdlS32 | mullS16 | widenS16 => .int16
  | abdlU64 => .uint32
  | abdlS64 => .int32

/-- The lanes of the result, of double width. -/
def dest : WidenHelper → IntType
  | abdlU16 | mullU8 | widenU8 | abdlS16 | mullS8 | widenS8 => .uint16
  | abdlU32 | mullU16 | widenU16 | abdlS32 | mullS16 | widenS16 => .uint32
  | abdlU64 | abdlS64 => .uint64

def lanes (helper : WidenHelper) : ℕ := 32 / helper.src.width

/-- The exact result. -/
def exact : WidenHelper → ℤ → ℤ → ℤ
  | abdlU16 | abdlS16 | abdlU32 | abdlS32 | abdlU64 | abdlS64 => fun x y => |x - y|
  | mullU8 | mullS8 | mullU16 | mullS16 => fun x y => x * y
  | widenU8 | widenS8 | widenU16 | widenS16 => fun x _ => x

/-- A helper that extends has no second operand. -/
def run : WidenHelper → Word → Word → BitVec 64
  | abdlU16 => neonAbdlU16
  | abdlS16 => neonAbdlS16
  | abdlU32 => neonAbdlU32
  | abdlS32 => neonAbdlS32
  | abdlU64 => neonAbdlU64
  | abdlS64 => neonAbdlS64
  | mullU8 => neonMullU8
  | mullS8 => neonMullS8
  | mullU16 => neonMullU16
  | mullS16 => neonMullS16
  | widenU8 => fun x _ => neonWidenU8 x
  | widenS8 => fun x _ => neonWidenS8 x
  | widenU16 => fun x _ => neonWidenU16 x
  | widenS16 => fun x _ => neonWidenS16 x

/-- Every lane of the result is the exact one, modulo its size. -/
def Widens (helper : WidenHelper) (a b : Word) : Prop :=
  ∀ i < helper.lanes, lane helper.dest (helper.run a b) i =
    helper.dest.wrap (helper.exact (lane helper.src a i) (lane helper.src b i))

instance (helper : WidenHelper) (a b : Word) : Decidable (helper.Widens a b) :=
  inferInstanceAs (Decidable (∀ i < helper.lanes, _ = _))

end WidenHelper

variable {w : ℕ} {t u : IntType} {f : ℕ → BitVec 64} {e : ℤ → ℤ → ℤ} {a b : Word}

/-- An integer that fits into a lane. -/
theorem ofInt_wrap (ht : t.width = w) (hsigned : t.signed = false) (hw : w ≤ 64) (x : ℤ) :
    BitVec.ofInt 64 (t.wrap x) = (BitVec.ofInt w x).setWidth 64 := by
  have hlow : 0 ≤ x % 2 ^ w := Int.emod_nonneg x (by positivity)
  have hhigh : x % 2 ^ w < 2 ^ 64 :=
    (Int.emod_lt_of_pos x (by positivity)).trans_le (pow_le_pow_right₀ (by decide) hw)
  apply BitVec.eq_of_toNat_eq
  rw [IntType.wrap, hsigned, if_neg (by decide), ht, BitVec.toNat_ofInt, BitVec.toNat_setWidth, BitVec.toNat_ofInt]
  push_cast
  omega

theorem lane_ushiftRight (ht : t.width = w) (a : Word) (i : ℕ) : t.wrap (a >>> (w * i)).toNat = lane t a i := by
  rw [lane, ht, BitVec.toNat_ushiftRight, Nat.shiftRight_eq_div_pow]

theorem lane_ofInt (ht : t.width = w) {word : BitVec 64} {i : ℕ} {x : ℤ}
    (h : word.extractLsb' (w * i) w = BitVec.ofInt w x) : lane t word i = t.wrap x := by
  rw [lane_of_extract ht h, wrap_ofInt ht]

/-- **Four lanes**: none of them spills into another. -/
theorem lane_fourLanes (ht : t.width = 8) (hu : u.width = 16) (hsigned : u.signed = false)
    (hf : ∀ n, f n = BitVec.ofInt 64 (u.wrap (e (t.wrap (a >>> n).toNat) (t.wrap (b >>> n).toNat)))) :
    ∀ i < 4, lane u (fourLanes f) i = u.wrap (e (lane t a i) (lane t b i)) := by
  intro i hi
  have hlane : ∀ j, f (8 * j) = (BitVec.ofInt 16 (e (lane t a j) (lane t b j))).setWidth 64 := by
    intro j
    rw [hf, ofInt_wrap hu hsigned (by decide), lane_ushiftRight ht, lane_ushiftRight ht]
  apply lane_ofInt hu
  have hfour := extract_quarters (fun j => BitVec.ofInt 16 (e (lane t a j) (lane t b j))) (W := 64) (by decide) hi
  rwa [← hlane, ← hlane, ← hlane, ← hlane] at hfour

theorem lane_twoLanes (ht : t.width = 16) (hu : u.width = 32) (hsigned : u.signed = false)
    (hf : ∀ n, f n = BitVec.ofInt 64 (u.wrap (e (t.wrap (a >>> n).toNat) (t.wrap (b >>> n).toNat)))) :
    ∀ i < 2, lane u (twoLanes f) i = u.wrap (e (lane t a i) (lane t b i)) := by
  intro i hi
  have hlane : ∀ j, f (16 * j) = (BitVec.ofInt 32 (e (lane t a j) (lane t b j))).setWidth 64 := by
    intro j
    rw [hf, ofInt_wrap hu hsigned (by decide), lane_ushiftRight ht, lane_ushiftRight ht]
  apply lane_ofInt hu
  have htwo := extract_halves (W := 64) (d := BitVec.ofInt 32 (e (lane t a 0) (lane t b 0)))
    (e := BitVec.ofInt 32 (e (lane t a 1) (lane t b 1))) (by decide)
  rw [← hlane, ← hlane] at htwo
  interval_cases i
  · exact htwo.1
  · exact htwo.2

/-- An absolute difference that the promoted type holds. -/
theorem doAbd_eq (x y : Word) : doAbd t x y = BitVec.ofInt 64 (t.promote.wrap |t.wrap x.toNat - t.wrap y.toNat|) := by
  rw [doAbd]
  split_ifs with h
  · rw [abs_of_pos (by omega)]
  · rw [abs_of_nonpos (by omega), neg_sub]

theorem doAbd_exact (ht : 2 ^ t.width ≤ t.promote.maxValue + 1) (hu : 2 ^ t.width ≤ u.maxValue + 1) (x y : Word) :
    doAbd t x y = BitVec.ofInt 64 (u.wrap |t.wrap x.toNat - t.wrap y.toNat|) := by
  have hlt := abs_sub_lt (t.holds_wrap x.toNat) (t.holds_wrap y.toNat)
  have hnonneg := abs_nonneg (t.wrap x.toNat - t.wrap y.toNat)
  rw [doAbd_eq, wrap_of_holds (holds_of_lt hnonneg hlt ht),
    wrap_of_holds (holds_of_lt hnonneg hlt hu)]

theorem doMull_exact (hpromote : u.width ≤ u.promote.width) (x y : Word) :
    doMull t u x y = BitVec.ofInt 64 (u.wrap (t.wrap x.toNat * t.wrap y.toNat)) := by
  rw [doMull, wrap_wrap hpromote]
  exact congrArg (BitVec.ofInt 64) (IntType.wrap_congr ((u.wrap_modEq _).mul (u.wrap_modEq _)))

/-- What the sign of the high half fills is shifted out. -/
theorem neonWidenS16_eq (x : Word) :
    neonWidenS16 x = twoLanes fun n => cast64 .uint32 (IntType.int16.wrap (x >>> n).toNat) := by
  have hout : ∀ v : BitVec 64, v <<< 32 = (v.setWidth 32).setWidth 64 <<< 32 := by
    intro v
    ext j hj
    by_cases h : j < 32
    · simp [h]
    · simp [h, show j - 32 < 32 by omega, BitVec.getLsbD_eq_getElem (show j - 32 < 64 by omega)]
  have hlow : ∀ z : ℤ, (BitVec.ofInt 64 z).setWidth 32 = BitVec.ofInt 32 z := by
    intro z
    apply BitVec.eq_of_toNat_eq
    rw [BitVec.toNat_setWidth, BitVec.toNat_ofInt, BitVec.toNat_ofInt]
    omega
  have hhigh : cast64 .int16 (x >>> 16).toNat <<< 32 =
      cast64 .uint32 (IntType.int16.wrap (x >>> 16).toNat) <<< 32 := by
    rw [hout, cast64, cast64, hlow, ofInt_wrap (t := .uint32) (w := 32) rfl rfl (by decide)]
  rw [neonWidenS16, hhigh]
  rfl

theorem lane_word (t : IntType) (a : Word) : t.wrap a.toNat = lane t a 0 := by
  rw [lane, mul_zero, pow_zero, Nat.div_one]

theorem fourAbd (ht : t.width = 8) (hpromote : 2 ^ t.width ≤ t.promote.maxValue + 1) (a b : Word) : ∀ i < 4,
    lane .uint16 (fourLanes fun n => doAbd t (a >>> n) (b >>> n)) i = IntType.uint16.wrap |lane t a i - lane t b i| :=
  lane_fourLanes (e := fun x y => |x - y|) ht rfl rfl fun n => doAbd_exact hpromote (ht ▸ by decide) _ _

theorem twoAbd (ht : t.width = 16) (hpromote : 2 ^ t.width ≤ t.promote.maxValue + 1) (a b : Word) : ∀ i < 2,
    lane .uint32 (twoLanes fun n => doAbd t (a >>> n) (b >>> n)) i = IntType.uint32.wrap |lane t a i - lane t b i| :=
  lane_twoLanes (e := fun x y => |x - y|) ht rfl rfl fun n => doAbd_exact hpromote (ht ▸ by decide) _ _

theorem fourMull (ht : t.width = 8) (a b : Word) : ∀ i < 4,
    lane .uint16 (fourLanes fun n => doMull t .uint16 (a >>> n) (b >>> n)) i =
      IntType.uint16.wrap (lane t a i * lane t b i) :=
  lane_fourLanes (e := fun x y => x * y) ht rfl rfl fun n => doMull_exact (by decide) _ _

theorem twoMull (ht : t.width = 16) (a b : Word) : ∀ i < 2,
    lane .uint32 (twoLanes fun n => doMull t .uint32 (a >>> n) (b >>> n)) i =
      IntType.uint32.wrap (lane t a i * lane t b i) :=
  lane_twoLanes (e := fun x y => x * y) ht rfl rfl fun n => doMull_exact (by decide) _ _

theorem fourWiden (ht : t.width = 8) (a : Word) : ∀ i < 4,
    lane .uint16 (fourLanes fun n => cast64 .uint16 (t.wrap (a >>> n).toNat)) i = IntType.uint16.wrap (lane t a i) :=
  lane_fourLanes (e := fun x _ => x) (b := 0) ht rfl rfl fun _ => rfl

theorem twoWiden (ht : t.width = 16) (a : Word) : ∀ i < 2,
    lane .uint32 (twoLanes fun n => cast64 .uint32 (t.wrap (a >>> n).toNat)) i = IntType.uint32.wrap (lane t a i) :=
  lane_twoLanes (e := fun x _ => x) (b := 0) ht rfl rfl fun _ => rfl

/-- An unsigned value is not changed by the wider type. -/
theorem cast64_wrap (hle : t.width ≤ u.width) (ht : t.signed = false) (hu : u.signed = false) (x : ℤ) :
    cast64 t x = cast64 u (t.wrap x) := by
  have hpow : (2 : ℤ) ^ t.width ≤ 2 ^ u.width := pow_le_pow_right₀ (by decide) hle
  have hmin : u.minValue ≤ t.minValue := by rw [minValue_unsigned ht, minValue_unsigned hu]
  have hmax : t.maxValue ≤ u.maxValue := by
    rw [t.maxValue_eq, u.maxValue_eq, minValue_unsigned ht, minValue_unsigned hu]
    omega
  have hx := t.holds_wrap x
  rw [cast64, cast64, wrap_of_holds (t := u) ⟨hmin.trans hx.1, hx.2.trans hmax⟩]

theorem abdlU64_exact (a b : Word) :
    lane .uint64 (neonAbdlU64 a b) 0 = IntType.uint64.wrap |lane .uint32 a 0 - lane .uint32 b 0| := by
  rw [neonAbdlU64, doAbd_exact (u := .uint64) (by decide) (by decide), lane_word .uint32,
    lane_word .uint32, lane_ofInt (t := .uint64) (w := 64) rfl BitVec.extractLsb'_eq_self]
  exact wrap_wrap le_rfl _

/-- A difference that is no `int` is extended with a wrong sign. -/
theorem abdlS64_iff (a b : Word) :
    lane .uint64 (neonAbdlS64 a b) 0 = IntType.uint64.wrap |lane .int32 a 0 - lane .int32 b 0| ↔
      |lane .int32 a 0 - lane .int32 b 0| < 2 ^ 31 := by
  have hlt := abs_sub_lt (holds_lane .int32 a 0) (holds_lane .int32 b 0)
  rw [show IntType.int32.width = 32 from rfl] at hlt
  have hnonneg := abs_nonneg (lane .int32 a 0 - lane .int32 b 0)
  rw [neonAbdlS64, doAbd_eq, lane_word .int32, lane_word .int32,
    lane_ofInt (t := .uint64) (w := 64) rfl BitVec.extractLsb'_eq_self]
  generalize |lane .int32 a 0 - lane .int32 b 0| = d at hlt hnonneg
  change IntType.uint64.wrap (IntType.int32.wrap d) = IntType.uint64.wrap d ↔ _
  have hhold : IntType.int32.Holds d ↔ d < 2 ^ 31 := by
    rw [holds_signed_iff (t := .int32) (w := 32) rfl rfl]
    omega
  rw [← hhold]
  constructor
  · intro h
    -- values as close as these are equal if they agree modulo 2 ^ 64
    have hmod := ((IntType.uint64.wrap_modEq d).symm.trans (h ▸ IntType.uint64.wrap_modEq (IntType.int32.wrap d))).dvd
    have hwrap := (holds_signed_iff (t := .int32) (w := 32) rfl rfl _).1 (IntType.int32.holds_wrap d)
    have hzero : IntType.int32.wrap d - d = 0 := by
      apply Int.eq_zero_of_abs_lt_dvd hmod
      rw [show IntType.uint64.width = 64 from rfl, abs_lt]
      omega
    exact wrap_eq_self_iff.1 (by omega)
  · intro h
    rw [wrap_of_holds h]

namespace WidenHelper

theorem widens_of_ne {helper : WidenHelper} (h : helper ≠ abdlS64) (a b : Word) : helper.Widens a b := by
  cases helper with
  | abdlU16 => exact fourAbd (t := .uint8) rfl (by decide) a b
  | abdlS16 => exact fourAbd (t := .int8) rfl (by decide) a b
  | abdlU32 => exact twoAbd (t := .uint16) rfl (by decide) a b
  | abdlS32 => exact twoAbd (t := .int16) rfl (by decide) a b
  | abdlU64 => 
    intro i hi
    obtain rfl : i = 0 := Nat.lt_one_iff.1 hi
    exact abdlU64_exact a b
  | abdlS64 => exact absurd rfl h
  | mullU8 => exact fourMull (t := .uint8) rfl a b
  | mullS8 => exact fourMull (t := .int8) rfl a b
  | mullU16 => exact twoMull (t := .uint16) rfl a b
  | mullS16 => exact twoMull (t := .int16) rfl a b
  | widenU8 =>
    have h := fourWiden (t := .uint8) rfl a
    simp only [← cast64_wrap (t := .uint8) (u := .uint16) (by decide) rfl rfl] at h
    exact h
  | widenS8 => exact fourWiden (t := .int8) rfl a
  | widenU16 =>
    have h := twoWiden (t := .uint16) rfl a
    simp only [← cast64_wrap (t := .uint16) (u := .uint32) (by decide) rfl rfl] at h
    exact h
  | widenS16 =>
    have h := twoWiden (t := .int16) rfl a
    rw [← neonWidenS16_eq] at h
    exact h

/-- **Which lanes are exact.** -/
theorem widens_iff (helper : WidenHelper) (a b : Word) :
    helper.Widens a b ↔ (helper = abdlS64 → |lane .int32 a 0 - lane .int32 b 0| < 2 ^ 31) := by
  by_cases h : helper = abdlS64
  · subst h
    constructor
    · intro hlane _
      exact (abdlS64_iff a b).1 (hlane 0 (by decide))
    · intro hlt i hi
      obtain rfl : i = 0 := Nat.lt_one_iff.1 hi
      exact (abdlS64_iff a b).2 (hlt rfl)
  · exact iff_of_true (widens_of_ne h a b) fun heq => absurd heq h

/-- The difference of `-2 ^ 31` and 1. -/
theorem abdlS64_corner : neonAbdlS64 0x80000000#32 1#32 = 0xffffffff80000001#64 ∧
    ¬ ∀ (helper : WidenHelper) (a b : Word), helper.Widens a b :=
  ⟨by decide, fun h => absurd (h abdlS64 0x80000000#32 1#32) (by decide)⟩

end WidenHelper

end Emulator.Arm
