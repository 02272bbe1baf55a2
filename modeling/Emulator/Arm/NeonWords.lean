import Mathlib.Tactic
import Emulator.Arm.Cpsr
import Emulator.Lib.BinaryPolynomials
import Emulator.Lib.LaneBits

/-!
# NEON helpers on whole words (`target-arm/neon_helper.c`)

These helpers compute all lanes at once in a machine word.

* `neonWords`: they compute lane by lane, for all operands.
-/

namespace Emulator.Arm

open Lib Polynomial
open BitVec hiding and_zero mul_zero shiftLeft_and_distrib zero_mul

/-- `neon_hadd_s32` and `neon_hadd_u32`, with the shift to the right of the type. -/
def hadd32 (shr : Word → Word) (src1 src2 : Word) : Word :=
  let dest := shr src1 + shr src2
  if src1 &&& src2 &&& 1#32 ≠ 0 then dest + 1#32 else dest

def rhadd32 (shr : Word → Word) (src1 src2 : Word) : Word :=
  let dest := shr src1 + shr src2
  if (src1 ||| src2) &&& 1#32 ≠ 0 then dest + 1#32 else dest

def hsub32 (shr : Word → Word) (src1 src2 : Word) : Word :=
  let dest := shr src1 - shr src2
  if ~~~ src1 &&& src2 &&& 1#32 ≠ 0 then dest - 1#32 else dest

def neonHaddS32 : Word → Word → Word := hadd32 fun x => x.sshiftRight 1
def neonHaddU32 : Word → Word → Word := hadd32 fun x => x >>> 1
def neonRhaddS32 : Word → Word → Word := rhadd32 fun x => x.sshiftRight 1
def neonRhaddU32 : Word → Word → Word := rhadd32 fun x => x >>> 1
def neonHsubS32 : Word → Word → Word := hsub32 fun x => x.sshiftRight 1
def neonHsubU32 : Word → Word → Word := hsub32 fun x => x >>> 1

/-- `neon_add_u8` and its like, with the sign bits of the lanes. -/
def addSigns {W : ℕ} (signs a b : BitVec W) : BitVec W :=
  let mask := (a ^^^ b) &&& signs
  let a := a &&& ~~~ signs
  let b := b &&& ~~~ signs
  (a + b) ^^^ mask

def subSigns {W : ℕ} (signs a b : BitVec W) : BitVec W :=
  let mask := (a ^^^ ~~~ b) &&& signs
  let a := a ||| signs
  let b := b &&& ~~~ signs
  (a - b) ^^^ mask

def neonAddU8 : Word → Word → Word := addSigns 0x80808080#32
def neonAddU16 : Word → Word → Word := addSigns 0x80008000#32
def neonAddlU16 : BitVec 64 → BitVec 64 → BitVec 64 := addSigns 0x8000800080008000#64
def neonAddlU32 : BitVec 64 → BitVec 64 → BitVec 64 := addSigns 0x8000000080000000#64
def neonSublU16 : BitVec 64 → BitVec 64 → BitVec 64 := subSigns 0x8000800080008000#64
def neonSublU32 : BitVec 64 → BitVec 64 → BitVec 64 := subSigns 0x8000000080000000#64

def neonPaddlU16 (a b : BitVec 64) : BitVec 64 :=
  let tmp := a &&& 0x0000ffff0000ffff#64
  let tmp := tmp + ((a >>> 16) &&& 0x0000ffff0000ffff#64)
  let tmp2 := b &&& 0xffff0000ffff0000#64
  let tmp2 := tmp2 + ((b <<< 16) &&& 0xffff0000ffff0000#64)
  (tmp &&& 0xffff#64) ||| ((tmp >>> 16) &&& 0xffff0000#64) ||| ((tmp2 <<< 16) &&& 0xffff00000000#64) |||
    (tmp2 &&& 0xffff000000000000#64)

def neonPaddlU32 (a b : BitVec 64) : BitVec 64 :=
  let low : Word := (a + (a >>> 32)).setWidth 32
  let high : Word := (b + (b >>> 32)).setWidth 32
  low.setWidth 64 + (high.setWidth 64 <<< 32)

def neonNarrowHighU8 (x : BitVec 64) : Word :=
  (((x >>> 8) &&& 0xff#64) ||| ((x >>> 16) &&& 0xff00#64) ||| ((x >>> 24) &&& 0xff0000#64) |||
    ((x >>> 32) &&& 0xff000000#64)).setWidth 32

def neonNarrowHighU16 (x : BitVec 64) : Word :=
  (((x >>> 16) &&& 0xffff#64) ||| ((x >>> 32) &&& 0xffff0000#64)).setWidth 32

/-- The bytes that are returned are those of `neon_narrow_high_u8`. -/
def neonNarrowRoundHighU8 (x : BitVec 64) : Word :=
  let x := x &&& 0xff80ff80ff80ff80#64
  let x := x + 0x0080008000800080#64
  neonNarrowHighU8 x

def neonNarrowRoundHighU16 (x : BitVec 64) : Word :=
  let x := x &&& 0xffff8000ffff8000#64
  let x := x + 0x0000800000008000#64
  neonNarrowHighU16 x

def neonCntU8 (x : Word) : Word :=
  let x := (x &&& 0x55555555#32) + ((x >>> 1) &&& 0x55555555#32)
  let x := (x &&& 0x33333333#32) + ((x >>> 2) &&& 0x33333333#32)
  let x := (x &&& 0x0f0f0f0f#32) + ((x >>> 4) &&& 0x0f0f0f0f#32)
  x

/-- The bytes of `op1` that are odd. -/
def mulP8Mask (op1 : Word) : Word :=
  let mask := 0#32
  let mask := if op1 &&& 1#32 ≠ 0 then mask ||| 0xff#32 else mask
  let mask := if op1 &&& (1#32 <<< 8) ≠ 0 then mask ||| (0xff#32 <<< 8) else mask
  let mask := if op1 &&& (1#32 <<< 16) ≠ 0 then mask ||| (0xff#32 <<< 16) else mask
  if op1 &&& (1#32 <<< 24) ≠ 0 then mask ||| (0xff#32 <<< 24) else mask

/-- `while (op1)` of `neon_mul_p8`. -/
def mulP8Loop (result op1 op2 : Word) : Word :=
  if op1 = 0 then result
  else mulP8Loop (result ^^^ (op2 &&& mulP8Mask op1)) ((op1 >>> 1) &&& 0x7f7f7f7f#32) ((op2 <<< 1) &&& 0xfefefefe#32)
termination_by op1.toNat
decreasing_by
  have hpos : op1.toNat ≠ 0 := fun h => absurd (eq_of_toNat_eq h) ‹_›
  have hle : ((op1 >>> 1) &&& 0x7f7f7f7f#32).toNat ≤ (op1 >>> 1).toNat := Nat.and_le_left
  rw [toNat_ushiftRight, Nat.shiftRight_eq_div_pow] at hle
  omega

def neonMulP8 : Word → Word → Word := mulP8Loop 0

variable {W w : ℕ} {t : IntType}

/-- The helper computes `f` on each lane. A result wraps. -/
def Lanewise (t : IntType) (n : ℕ) (f : ℤ → ℤ → ℤ) (op : BitVec W → BitVec W → BitVec W) : Prop :=
  ∀ a b, ∀ i < n, lane t (op a b) i = t.wrap (f (lane t a i) (lane t b i))

/-- The sums of neighbours, of the first operand and then of the second. -/
def PairSums (t : IntType) (n : ℕ) (op : BitVec W → BitVec W → BitVec W) : Prop :=
  ∀ a b, ∀ i < n, lane t (op a b) i = t.wrap (lane t a (2 * i) + lane t a (2 * i + 1)) ∧
    lane t (op a b) (n + i) = t.wrap (lane t b (2 * i) + lane t b (2 * i + 1))

/-- The helper computes a narrower lane from each lane. -/
def Narrows (src dest : IntType) (n : ℕ) (f : ℤ → ℤ) (op : BitVec 64 → Word) : Prop :=
  ∀ x, ∀ i < n, lane dest (op x) i = dest.wrap (f (lane src x i))

/-- A byte of a word. -/
def byteOf (x : Word) (i : ℕ) : BitVec 8 := x.extractLsb' (8 * i) 8

/-- **The helpers on whole words compute lane by lane.** -/
structure NeonWords : Prop where
  haddS32 : Lanewise .int32 1 (fun x y => scaled (x + y) (-1)) neonHaddS32
  haddU32 : Lanewise .uint32 1 (fun x y => scaled (x + y) (-1)) neonHaddU32
  rhaddS32 : Lanewise .int32 1 (fun x y => scaled (x + y + 1) (-1)) neonRhaddS32
  rhaddU32 : Lanewise .uint32 1 (fun x y => scaled (x + y + 1) (-1)) neonRhaddU32
  hsubS32 : Lanewise .int32 1 (fun x y => scaled (x - y) (-1)) neonHsubS32
  hsubU32 : Lanewise .uint32 1 (fun x y => scaled (x - y) (-1)) neonHsubU32
  addU8 : Lanewise .uint8 4 (· + ·) neonAddU8
  addU16 : Lanewise .uint16 2 (· + ·) neonAddU16
  addlU16 : Lanewise .uint16 4 (· + ·) neonAddlU16
  addlU32 : Lanewise .uint32 2 (· + ·) neonAddlU32
  sublU16 : Lanewise .uint16 4 (· - ·) neonSublU16
  sublU32 : Lanewise .uint32 2 (· - ·) neonSublU32
  paddlU16 : PairSums .uint16 2 neonPaddlU16
  paddlU32 : PairSums .uint32 1 neonPaddlU32
  narrowHighU8 : Narrows .uint16 .uint8 4 (scaled · (-8)) neonNarrowHighU8
  narrowHighU16 : Narrows .uint32 .uint16 2 (scaled · (-16)) neonNarrowHighU16
  narrowRoundHighU8 : Narrows .uint16 .uint8 4 (rounded · (-8)) neonNarrowRoundHighU8
  narrowRoundHighU16 : Narrows .uint32 .uint16 2 (rounded · (-16)) neonNarrowRoundHighU16
  cntU8 : ∀ x, ∀ i < 4, byteOf (neonCntU8 x) i = (byteOf x i).cpop
  mulP8 : ∀ a b, ∀ i < 4, gf2 (byteOf (neonMulP8 a b) i) = (gf2 (byteOf a i) * gf2 (byteOf b i)) %ₘ X ^ 8

theorem scaled_half (x : ℤ) : scaled x (-1) = x / 2 := by
  rw [show (-1 : ℤ) = -(1 : ℕ) from rfl, scaled_neg, pow_one]

theorem and_one_ne_zero_iff (v : Word) : v &&& 1#32 ≠ 0 ↔ v.getLsbD 0 = true := by
  rw [and_one_eq_setWidth_ofBool_getLsbD]
  cases v.getLsbD 0 <;> decide

section

variable {shr : Word → Word} (hw : t.width = 32)

include hw

theorem lane_mod_two (x : Word) : lane t x 0 % 2 = if x.getLsbD 0 then 1 else 0 := by
  have h := ((lane_modEq t x 0).of_dvd (show (2 : ℤ) ∣ 2 ^ t.width by rw [hw]; decide)).eq
  rw [mul_zero, pow_zero, Nat.div_one] at h
  rw [h, ← testBit_toNat, Nat.testBit_zero]
  split_ifs with hbit
  · exact_mod_cast of_decide_eq_true hbit
  · have := of_decide_eq_false (Bool.eq_false_of_not_eq_true hbit)
    omega

/-- An operation on the only lane. -/
theorem lanewise_of_ofInt {op : Word → Word → Word} {f : ℤ → ℤ → ℤ}
    (h : ∀ a b, op a b = BitVec.ofInt 32 (f (lane t a 0) (lane t b 0))) : Lanewise t 1 f op := by
  intro a b i hi
  obtain rfl : i = 0 := by omega
  rw [h, lane_of_extract hw BitVec.extractLsb'_eq_self, wrap_ofInt hw]

variable (hshr : ∀ x, shr x = BitVec.ofInt 32 (lane t x 0 / 2))

include hshr

theorem hadd32_lanewise : Lanewise t 1 (fun x y => scaled (x + y) (-1)) (hadd32 shr) := by
  refine lanewise_of_ofInt hw fun a b => ?_
  have ha := lane_mod_two hw a
  have hb := lane_mod_two hw b
  have hfloor : (lane t a 0 + lane t b 0) / 2 =
      lane t a 0 / 2 + lane t b 0 / 2 + if a.getLsbD 0 ∧ b.getLsbD 0 then 1 else 0 := by
    grind
  rw [scaled_half, hfloor, hadd32, hshr, hshr, ← ofInt_add]
  simp only [and_one_ne_zero_iff, getLsbD_and, Bool.and_eq_true]
  split_ifs
  · exact (ofInt_add _ 1).symm
  · rw [add_zero]

theorem rhadd32_lanewise : Lanewise t 1 (fun x y => scaled (x + y + 1) (-1)) (rhadd32 shr) := by
  refine lanewise_of_ofInt hw fun a b => ?_
  have ha := lane_mod_two hw a
  have hb := lane_mod_two hw b
  have hfloor : (lane t a 0 + lane t b 0 + 1) / 2 =
      lane t a 0 / 2 + lane t b 0 / 2 + if a.getLsbD 0 ∨ b.getLsbD 0 then 1 else 0 := by
    grind
  rw [scaled_half, hfloor, rhadd32, hshr, hshr, ← ofInt_add]
  simp only [and_one_ne_zero_iff, getLsbD_or, Bool.or_eq_true]
  split_ifs
  · exact (ofInt_add _ 1).symm
  · rw [add_zero]

theorem hsub32_lanewise : Lanewise t 1 (fun x y => scaled (x - y) (-1)) (hsub32 shr) := by
  refine lanewise_of_ofInt hw fun a b => ?_
  have ha := lane_mod_two hw a
  have hb := lane_mod_two hw b
  have hfloor : (lane t a 0 - lane t b 0) / 2 =
      lane t a 0 / 2 - lane t b 0 / 2 - if a.getLsbD 0 = false ∧ b.getLsbD 0 then 1 else 0 := by
    grind
  rw [scaled_half, hfloor, hsub32, hshr, hshr, ← ofInt_sub]
  simp only [and_one_ne_zero_iff, getLsbD_and, getLsbD_not, Bool.and_eq_true, Bool.not_eq_true',
    Nat.ofNat_pos, decide_true, true_and]
  split_ifs
  · exact (ofInt_sub _ 1).symm
  · rw [sub_zero]

end

theorem sshiftRight_half (x : Word) : x.sshiftRight 1 = BitVec.ofInt 32 (lane .int32 x 0 / 2) := by
  rw [lane_of_extract (t := .int32) (v := x) rfl (by simp), wrap_toNat_signed (t := .int32) (w := 32) rfl rfl]
  exact congrArg (BitVec.ofInt 32) (Int.shiftRight_eq_div_pow ..)

theorem ushiftRight_half (x : Word) : x >>> 1 = BitVec.ofInt 32 (lane .uint32 x 0 / 2) := by
  rw [lane_toNat (t := .uint32) (w := 32) rfl rfl, mul_zero, BitVec.extractLsb'_eq_self]
  apply eq_of_toNat_eq
  rw [toNat_ushiftRight, Nat.shiftRight_eq_div_pow, toNat_ofInt]
  omega

section

variable {n : ℕ} (hw : t.width = w) (hsigned : t.signed = false) (hW : w * n ≤ W)

include hw hsigned

theorem lane_add {word a b : BitVec W} {i j k : ℕ}
    (h : word.extractLsb' (w * k) w = a.extractLsb' (w * i) w + b.extractLsb' (w * j) w) :
    lane t word k = t.wrap (lane t a i + lane t b j) := by
  rw [lane_of_extract hw h, lane_toNat hw hsigned, lane_toNat hw hsigned]
  exact IntType.wrap_congr (hw ▸ toNat_add_modEq _ _)

include hW

theorem addSigns_lanewise {signs : BitVec W} (hsigns : ∀ i < n, signs.extractLsb' (w * i) w = BitVec.intMin w ∧
    2 * ((~~~ signs).toNat % 2 ^ (w * i)) < 2 ^ (w * i)) : Lanewise t n (· + ·) (addSigns signs) := by
  intro a b i hi
  have hi' : w * i + w ≤ W := (Nat.mul_le_mul_left w hi).trans hW
  exact lane_add hw hsigned (extract_addNoCarry a b hi' (hsigns i hi).1 (hsigns i hi).2)

theorem subSigns_lanewise {signs : BitVec W} (hsigns : ∀ i < n, signs.extractLsb' (w * i) w = BitVec.intMin w ∧
    (~~~ signs).toNat % 2 ^ (w * i) ≤ signs.toNat % 2 ^ (w * i)) : Lanewise t n (· - ·) (subSigns signs) := by
  intro a b i hi
  have hi' : w * i + w ≤ W := (Nat.mul_le_mul_left w hi).trans hW
  have hlane := extract_subNoBorrow a b hi' (hsigns i hi).1 (hsigns i hi).2
  rw [subSigns, lane_of_extract hw hlane, lane_toNat hw hsigned, lane_toNat hw hsigned]
  exact IntType.wrap_congr (hw ▸ toNat_sub_modEq _ _)

end

theorem and_ones8 (v : BitVec 8) : v &&& 255#8 = v := and_allOnes

theorem and_ones16 (v : BitVec 16) : v &&& 65535#16 = v := and_allOnes

variable {i : ℕ}

theorem paddlU16_extract (a b : BitVec 64) (hi : i < 2) :
    (neonPaddlU16 a b).extractLsb' (16 * i) 16 =
      a.extractLsb' (16 * (2 * i)) 16 + a.extractLsb' (16 * (2 * i + 1)) 16 ∧
    (neonPaddlU16 a b).extractLsb' (16 * (2 + i)) 16 =
      b.extractLsb' (16 * (2 * i)) 16 + b.extractLsb' (16 * (2 * i + 1)) 16 := by
  have htmp : ((a &&& 0x0000ffff0000ffff#64) + ((a >>> 16) &&& 0x0000ffff0000ffff#64)).extractLsb' (32 * i) 16 =
      a.extractLsb' (16 * (2 * i)) 16 + a.extractLsb' (16 * (2 * i + 1)) 16 := by
    have hm : (0x0000ffff0000ffff#64).extractLsb' (32 * i) 16 = BitVec.allOnes 16 ∧
        2 * ((0x0000ffff0000ffff#64).toNat % 2 ^ (32 * i)) < 2 ^ (32 * i) := by
      interval_cases i <;> decide
    rw [extract_add_masked _ _ _ (by omega) hm.2, hm.1, and_allOnes, and_allOnes, extract_ushiftRight]
    congr 2 <;> ring
  have htmp2 : ((b &&& 0xffff0000ffff0000#64) + ((b <<< 16) &&& 0xffff0000ffff0000#64)).extractLsb' (16 + 32 * i) 16 =
      b.extractLsb' (16 * (2 * i)) 16 + b.extractLsb' (16 * (2 * i + 1)) 16 := by
    have hm : (0xffff0000ffff0000#64).extractLsb' (16 + 32 * i) 16 = BitVec.allOnes 16 ∧
        2 * ((0xffff0000ffff0000#64).toNat % 2 ^ (16 + 32 * i)) < 2 ^ (16 + 32 * i) := by
      interval_cases i <;> decide
    rw [extract_add_masked _ _ _ (by omega) hm.2, hm.1, and_allOnes, and_allOnes,
      extract_shiftLeft _ (by omega), BitVec.add_comm]
    congr 2 <;> ring
  rw [← htmp, ← htmp2, neonPaddlU16]
  generalize (a &&& 0x0000ffff0000ffff#64) + ((a >>> 16) &&& 0x0000ffff0000ffff#64) = tmp
  generalize (b &&& 0xffff0000ffff0000#64) + ((b <<< 16) &&& 0xffff0000ffff0000#64) = tmp2
  have hshift : (tmp2 <<< 16).extractLsb' 32 16 = tmp2.extractLsb' 16 16 := extract_shiftLeft (s := 16) tmp2 (by decide)
  simp only [BitVec.extractLsb'_or, BitVec.extractLsb'_and, extract_ushiftRight]
  interval_cases i <;> simp [and_ones16, hshift]

theorem paddlU16_pairSums : PairSums .uint16 2 neonPaddlU16 := by
  intro a b i hi
  obtain ⟨hlow, hhigh⟩ := paddlU16_extract a b hi
  exact ⟨lane_add rfl rfl hlow, lane_add rfl rfl hhigh⟩

/-- Two halves that are added. -/
theorem extract_add_halves (low high : Word) :
    (low.setWidth 64 + high.setWidth 64 <<< 32).extractLsb' 0 32 = low ∧
      (low.setWidth 64 + high.setWidth 64 <<< 32).extractLsb' 32 32 = high := by
  rw [add_eq_or_of_and_eq_zero]
  · exact extract_halves (by decide)
  · ext j hj
    simp only [getElem_and, getElem_shiftLeft, getElem_setWidth, getElem_zero]
    by_cases h : j < 32
    · simp [h]
    · simp [getLsbD_of_ge low j (by omega)]

theorem paddlU32_pairSums : PairSums .uint32 1 neonPaddlU32 := by
  intro a b i hi
  obtain rfl : i = 0 := by omega
  have hsum : ∀ x : BitVec 64, (x + (x >>> 32)).setWidth 32 =
    x.extractLsb' (32 * 0) 32 + x.extractLsb' (32 * 1) 32 := by
    intro x
    rw [setWidth_add _ _ (by decide), ← extract_eq, mul_zero, mul_one, extract_eq x 0, ushiftRight_zero]
  obtain ⟨hlow, hhigh⟩ := extract_add_halves ((a + (a >>> 32)).setWidth 32) ((b + (b >>> 32)).setWidth 32)
  exact ⟨lane_add rfl rfl (hlow.trans (hsum a)), lane_add rfl rfl (hhigh.trans (hsum b))⟩

theorem narrowHighU8_extract (x : BitVec 64) (hi : i < 4) :
    (neonNarrowHighU8 x).extractLsb' (8 * i) 8 = x.extractLsb' (16 * i + 8) 8 := by
  rw [neonNarrowHighU8, BitVec.extractLsb'_setWidth_of_le (by omega)]
  simp only [BitVec.extractLsb'_or, BitVec.extractLsb'_and, extract_ushiftRight]
  interval_cases i <;> simp [and_ones8]

theorem narrowHighU16_extract (x : BitVec 64) (hi : i < 2) :
    (neonNarrowHighU16 x).extractLsb' (16 * i) 16 = x.extractLsb' (32 * i + 16) 16 := by
  rw [neonNarrowHighU16, BitVec.extractLsb'_setWidth_of_le (by omega)]
  simp only [BitVec.extractLsb'_or, BitVec.extractLsb'_and, extract_ushiftRight]
  interval_cases i <;> simp [and_ones16]

section

variable {src dest : IntType} {n k : ℕ} {op : BitVec 64 → Word} (hsrc : src.width = k + 1 + (k + 1))
  (hsigned : src.signed = false) (hdest : dest.width = k + 1)

include hsrc hsigned hdest

theorem narrows_high (h : ∀ x, ∀ i < n,
    (op x).extractLsb' ((k + 1) * i) (k + 1) = x.extractLsb' ((k + 1 + (k + 1)) * i + (k + 1)) (k + 1)) :
    Narrows src dest n (scaled · (-(k + 1 : ℕ))) op := by
  intro x i hi
  dsimp only
  rw [lane_of_extract hdest (h x i hi), toNat_high, lane_toNat hsrc hsigned, scaled_neg]
  push_cast
  rfl

theorem narrows_roundHigh (h : ∀ x, ∀ i < n, ((op x).extractLsb' ((k + 1) * i) (k + 1)).toNat =
    ((x.extractLsb' ((k + 1 + (k + 1)) * i) (k + 1 + (k + 1))).toNat + 2 ^ k) / 2 ^ (k + 1) % 2 ^ (k + 1)) :
    Narrows src dest n (rounded · (-(k + 1 : ℕ))) op := by
  intro x i hi
  dsimp only
  rw [lane_of_extract hdest rfl, h x i hi, lane_toNat hsrc hsigned, rounded_neg]
  apply IntType.wrap_congr
  rw [hdest]
  push_cast
  exact Int.mod_modEq _ _

end

theorem narrowRoundHighU8_toNat (x : BitVec 64) (hi : i < 4) :
    ((neonNarrowRoundHighU8 x).extractLsb' (8 * i) 8).toNat =
      ((x.extractLsb' (16 * i) 16).toNat + 2 ^ 7) / 2 ^ 8 % 2 ^ 8 := by
  have hconst : (0xff80ff80ff80ff80#64).extractLsb' (16 * i) 16 = BitVec.allOnes 16 <<< 7 ∧
      ((0x0080008000800080#64).extractLsb' (16 * i) 16).toNat = 2 ^ 7 := by
    interval_cases i <;> decide
  rw [neonNarrowRoundHighU8, narrowHighU8_extract _ hi]
  exact toNat_roundHigh (k := 7) x _ _ (by decide) (by omega) hconst.1 hconst.2

theorem narrowRoundHighU16_toNat (x : BitVec 64) (hi : i < 2) :
    ((neonNarrowRoundHighU16 x).extractLsb' (16 * i) 16).toNat =
      ((x.extractLsb' (32 * i) 32).toNat + 2 ^ 15) / 2 ^ 16 % 2 ^ 16 := by
  have hconst : (0xffff8000ffff8000#64).extractLsb' (32 * i) 32 = BitVec.allOnes 32 <<< 15 ∧
      ((0x0000800000008000#64).extractLsb' (32 * i) 32).toNat = 2 ^ 15 := by
    interval_cases i <;> decide
  rw [neonNarrowRoundHighU16, narrowHighU16_extract _ hi]
  exact toNat_roundHigh (k := 15) x _ _ (by decide) (by omega) hconst.1 hconst.2

/-- A step of the count: neighbours are added under a mask. -/
theorem byteOf_cntStep (x mask : Word) {m : BitVec 8} {i k : ℕ} (hi : i < 4) (hmask : byteOf mask i = m)
    (hm : m &&& (BitVec.allOnes 8 >>> k) = m) (hlow : 2 * (mask.toNat % 2 ^ (8 * i)) < 2 ^ (8 * i)) :
    byteOf ((x &&& mask) + ((x >>> k) &&& mask)) i = (byteOf x i &&& m) + ((byteOf x i >>> k) &&& m) := by
  rw [byteOf, extract_add_masked _ _ _ (by omega) hlow]
  rw [byteOf] at hmask
  rw [hmask, extract_ushiftRight_and _ _ _ hm]
  rfl

/-- The three steps on a byte. -/
def cntByte (b : BitVec 8) : BitVec 8 :=
  let b := (b &&& 0x55#8) + ((b >>> 1) &&& 0x55#8)
  let b := (b &&& 0x33#8) + ((b >>> 2) &&& 0x33#8)
  (b &&& 0x0f#8) + ((b >>> 4) &&& 0x0f#8)

theorem cntByte_eq : ∀ b, cntByte b = b.cpop := by decide +kernel

theorem byteOf_cntU8 (x : Word) (hi : i < 4) : byteOf (neonCntU8 x) i = (byteOf x i).cpop := by
  have hmask : byteOf 0x55555555#32 i = 0x55#8 ∧ byteOf 0x33333333#32 i = 0x33#8 ∧ byteOf 0x0f0f0f0f#32 i = 0x0f#8 := by
    interval_cases i <;> decide
  have hlow : 2 * ((0x55555555#32).toNat % 2 ^ (8 * i)) < 2 ^ (8 * i) ∧
      2 * ((0x33333333#32).toNat % 2 ^ (8 * i)) < 2 ^ (8 * i) ∧
      2 * ((0x0f0f0f0f#32).toNat % 2 ^ (8 * i)) < 2 ^ (8 * i) := by
    interval_cases i <;> decide
  rw [neonCntU8, byteOf_cntStep _ _ hi hmask.2.2 (by decide) hlow.2.2,
    byteOf_cntStep _ _ hi hmask.2.1 (by decide) hlow.2.1,
    byteOf_cntStep _ _ hi hmask.1 (by decide) hlow.1]
  exact cntByte_eq _

theorem and_bit_ne_zero_iff (v : Word) {s : ℕ} (hs : s < 32) : v &&& (1#32 <<< s) ≠ 0 ↔ v.getLsbD s = true := by
  change v &&& BitVec.twoPow 32 s ≠ 0 ↔ _
  rw [and_twoPow]
  split_ifs with hbit
  · refine iff_of_true (fun h => ?_) hbit
    have := congrArg (BitVec.getLsbD · s) h
    simp [hs] at this
  · exact iff_of_false (fun h => h rfl) hbit

theorem byteOf_mulP8Mask (op1 : Word) (hi : i < 4) :
    byteOf (mulP8Mask op1) i = if (byteOf op1 i).getLsbD 0 then BitVec.allOnes 8 else 0#8 := by
  have hbit : (byteOf op1 i).getLsbD 0 = op1.getLsbD (8 * i) := by simp [byteOf]
  rw [hbit]
  simp only [mulP8Mask, and_one_ne_zero_iff, and_bit_ne_zero_iff op1 (show 8 < 32 by decide),
    and_bit_ne_zero_iff op1 (show 16 < 32 by decide), and_bit_ne_zero_iff op1 (show 24 < 32 by decide)]
  generalize h0 : op1.getLsbD 0 = b0
  generalize h8 : op1.getLsbD 8 = b8
  generalize h16 : op1.getLsbD 16 = b16
  generalize h24 : op1.getLsbD 24 = b24
  interval_cases i <;> simp only [h0, h8, h16, h24, Nat.reduceMul] <;>
    cases b0 <;> cases b8 <;> cases b16 <;> cases b24 <;> rfl

/-- **What the loop adds to the result** is the product. -/
theorem mulP8Loop_gf2 (hi : i < 4) (result op1 op2 : Word) :
    X ^ 8 ∣ gf2 (byteOf result i) + gf2 (byteOf op1 i) * gf2 (byteOf op2 i) -
      gf2 (byteOf (mulP8Loop result op1 op2) i) := by
  have hmask : byteOf 0x7f7f7f7f#32 i = BitVec.allOnes 8 >>> 1 ∧ byteOf 0xfefefefe#32 i = BitVec.allOnes 8 <<< 1 := by
    interval_cases i <;> decide
  induction result, op1, op2 using mulP8Loop.induct with
  | case1 result op2 =>
    have hzero : byteOf 0 i = 0#8 := BitVec.extractLsb'_zero
    rw [mulP8Loop, if_pos rfl, hzero, gf2_zero, zero_mul, add_zero, sub_self]
    exact dvd_zero _
  | case2 result op1 op2 hne ih =>
    have hright : byteOf ((op1 >>> 1) &&& 0x7f7f7f7f#32) i = byteOf op1 i >>> 1 := by
      rw [byteOf, BitVec.extractLsb'_and]
      change _ &&& byteOf _ i = _
      rw [hmask.1, extract_ushiftRight_and _ _ _ (by decide), ← ushiftRight_and_distrib, and_allOnes]
      rfl
    have hleft : byteOf ((op2 <<< 1) &&& 0xfefefefe#32) i = byteOf op2 i <<< 1 := by
      rw [byteOf, BitVec.extractLsb'_and]
      change _ &&& byteOf _ i = _
      rw [hmask.2, extract_shiftLeft_and _ (by omega) (by decide), ← BitVec.shiftLeft_and_distrib, and_allOnes]
      rfl
    have hresult : byteOf (result ^^^ (op2 &&& mulP8Mask op1)) i =
        byteOf result i ^^^ if (byteOf op1 i).getLsbD 0 then byteOf op2 i else 0#8 := by
      rw [byteOf, BitVec.extractLsb'_xor, BitVec.extractLsb'_and]
      change _ ^^^ (_ &&& byteOf _ i) = _
      rw [byteOf_mulP8Mask op1 hi]
      split_ifs
      · rw [and_allOnes]
        rfl
      · rw [BitVec.and_zero]
        rfl
    rw [mulP8Loop, if_neg hne]
    rw [hright, hleft, hresult] at ih
    have h := dvd_add (dvd_mulStep (byteOf op1 i) (byteOf op2 i) (byteOf result i)) ih
    rwa [sub_add_sub_cancel] at h

theorem mulP8_gf2 (a b : Word) (hi : i < 4) :
    gf2 (byteOf (neonMulP8 a b) i) = (gf2 (byteOf a i) * gf2 (byteOf b i)) %ₘ X ^ 8 := by
  have h := mulP8Loop_gf2 hi 0 a b
  rw [show byteOf 0 i = 0#8 from BitVec.extractLsb'_zero, gf2_zero, zero_add] at h
  exact gf2_eq_mod h

/-- **The helpers on whole words compute lane by lane.** -/
theorem neonWords : NeonWords where
  haddS32 := hadd32_lanewise rfl sshiftRight_half
  haddU32 := hadd32_lanewise rfl ushiftRight_half
  rhaddS32 := rhadd32_lanewise rfl sshiftRight_half
  rhaddU32 := rhadd32_lanewise rfl ushiftRight_half
  hsubS32 := hsub32_lanewise rfl sshiftRight_half
  hsubU32 := hsub32_lanewise rfl ushiftRight_half
  addU8 := addSigns_lanewise (w := 8) rfl rfl (by decide) (by decide)
  addU16 := addSigns_lanewise (w := 16) rfl rfl (by decide) (by decide)
  addlU16 := addSigns_lanewise (w := 16) rfl rfl (by decide) (by decide)
  addlU32 := addSigns_lanewise (w := 32) rfl rfl (by decide) (by decide)
  sublU16 := subSigns_lanewise (w := 16) rfl rfl (by decide) (by decide)
  sublU32 := subSigns_lanewise (w := 32) rfl rfl (by decide) (by decide)
  paddlU16 := paddlU16_pairSums
  paddlU32 := paddlU32_pairSums
  narrowHighU8 := narrows_high (k := 7) rfl rfl rfl fun x i hi => narrowHighU8_extract x hi
  narrowHighU16 := narrows_high (k := 15) rfl rfl rfl fun x i hi => narrowHighU16_extract x hi
  narrowRoundHighU8 := narrows_roundHigh (k := 7) rfl rfl rfl fun x i hi => narrowRoundHighU8_toNat x hi
  narrowRoundHighU16 := narrows_roundHigh (k := 15) rfl rfl rfl fun x i hi => narrowRoundHighU16_toNat x hi
  cntU8 := fun x i hi => byteOf_cntU8 x hi
  mulP8 := fun a b i hi => mulP8_gf2 a b hi

end Emulator.Arm
