import Mathlib.Tactic
import Emulator.Arm.Neon
import Emulator.Lib.LaneBits

/-!
# NEON saturating arithmetic (`target-arm/neon_helper.c`, `op_helper.c`)

Sums, differences, doubled products, narrowed lanes, absolute values and negations, clamped to the
range of the lane. The 64-bit sums and differences of `op_helper.c` set `QF`, all others QC.

* `SatHelper` are the helpers, with what each computes in the architecture.
* `SatHelper.computes`: what each computes in the source, lane by lane.
* `SatHelper.clamps_iff`: which lanes are clamped as they should be.
-/

namespace Emulator.Arm

open Lib IntType
open BitVec hiding mul_two not_not or_self shiftLeft_zero sub_eq_add_neg two_mul zero_or

/-! ## Sums and differences -/

section

variable (t : NeonType)

/-- `NEON_USAT` of `qadd_u8` and `qadd_u16`. -/
def neonUsatAdd (src1 src2 : ℤ) : Option (ℤ × Bool) :=
  let tmp := IntType.uint32.wrap (IntType.uint32.wrap src1 + IntType.uint32.wrap src2)
  if tmp ≠ t.int.wrap tmp then some (-1, true) else some (tmp, false)

/-- `NEON_USAT` of `qsub_u8` and `qsub_u16`. -/
def neonUsatSub (src1 src2 : ℤ) : Option (ℤ × Bool) :=
  let tmp := IntType.uint32.wrap (IntType.uint32.wrap src1 - IntType.uint32.wrap src2)
  if tmp ≠ t.int.wrap tmp then some (0, true) else some (tmp, false)

/-- `NEON_SSAT` of `qadd_s8` and `qadd_s16`. -/
def neonSsatAdd (src1 src2 : ℤ) : Option (ℤ × Bool) :=
  let tmp := IntType.int32.wrap (IntType.uint32.wrap (IntType.uint32.wrap src1 + IntType.uint32.wrap src2))
  if tmp ≠ t.int.wrap tmp then
    if src2 > 0 then some (2 ^ (t.int.width - 1) - 1, true) else some (2 ^ (t.int.width - 1), true)
  else some (tmp, false)

/-- `NEON_SSAT` of `qsub_s8` and `qsub_s16`. -/
def neonSsatSub (src1 src2 : ℤ) : Option (ℤ × Bool) :=
  let tmp := IntType.int32.wrap (IntType.uint32.wrap (IntType.uint32.wrap src1 - IntType.uint32.wrap src2))
  if tmp ≠ t.int.wrap tmp then
    if src2 < 0 then some (2 ^ (t.int.width - 1) - 1, true) else some (2 ^ (t.int.width - 1), true)
  else some (tmp, false)

end

def neonQaddU8 : NeonState → Word → Word → Option (NeonState × Word) := neonVopEnv .u8 (neonUsatAdd .u8)
def neonQaddU16 : NeonState → Word → Word → Option (NeonState × Word) := neonVopEnv .u16 (neonUsatAdd .u16)
def neonQaddS8 : NeonState → Word → Word → Option (NeonState × Word) := neonVopEnv .s8 (neonSsatAdd .s8)
def neonQaddS16 : NeonState → Word → Word → Option (NeonState × Word) := neonVopEnv .s16 (neonSsatAdd .s16)
def neonQsubU8 : NeonState → Word → Word → Option (NeonState × Word) := neonVopEnv .u8 (neonUsatSub .u8)
def neonQsubU16 : NeonState → Word → Word → Option (NeonState × Word) := neonVopEnv .u16 (neonUsatSub .u16)
def neonQsubS8 : NeonState → Word → Word → Option (NeonState × Word) := neonVopEnv .s8 (neonSsatSub .s8)
def neonQsubS16 : NeonState → Word → Word → Option (NeonState × Word) := neonVopEnv .s16 (neonSsatSub .s16)

/-- `env->QF = 1`. -/
def NeonState.setQf (env : NeonState) : NeonState := { env with qf := 1 }

def neonAddSaturateS64 (env : NeonState) (src1 src2 : BitVec 64) : NeonState × BitVec 64 :=
  let res := src1 + src2
  if (res ^^^ src1) &&& signBit64 ≠ 0 ∧ ¬ (src1 ^^^ src2) &&& signBit64 ≠ 0 then
    (env.setQf, src1.sshiftRight 63 ^^^ ~~~ signBit64)
  else (env, res)

def neonAddSaturateU64 (env : NeonState) (src1 src2 : BitVec 64) : NeonState × BitVec 64 :=
  let res := src1 + src2
  if res < src1 then (env.setQf, ~~~ 0#64) else (env, res)

def neonSubSaturateS64 (env : NeonState) (src1 src2 : BitVec 64) : NeonState × BitVec 64 :=
  let res := src1 - src2
  if (res ^^^ src1) &&& signBit64 ≠ 0 ∧ (src1 ^^^ src2) &&& signBit64 ≠ 0 then
    (env.setQf, src1.sshiftRight 63 ^^^ ~~~ signBit64)
  else (env, res)

def neonSubSaturateU64 (env : NeonState) (src1 src2 : BitVec 64) : NeonState × BitVec 64 :=
  if src1 < src2 then (env.setQf, 0#64) else (env, src1 - src2)

/-- A half of `neon_addl_saturate_s32`. -/
def addlSaturate32 (env : NeonState) (x y : Word) : NeonState × Word :=
  let sum := x + y
  if (sum ^^^ x) &&& signBit ≠ 0 ∧ ¬ (x ^^^ y) &&& signBit ≠ 0 then
    (env.setQc, x.sshiftRight 31 ^^^ ~~~ signBit)
  else (env, sum)

def neonAddlSaturateS32 (env : NeonState) (a b : BitVec 64) : NeonState × BitVec 64 :=
  let (env, low) := addlSaturate32 env (a.setWidth 32) (b.setWidth 32)
  let (env, high) := addlSaturate32 env ((a >>> 32).setWidth 32) ((b >>> 32).setWidth 32)
  (env, low.setWidth 64 ||| high.setWidth 64 <<< 32)

def neonAddlSaturateS64 (env : NeonState) (a b : BitVec 64) : NeonState × BitVec 64 :=
  let result := a + b
  if (result ^^^ a) &&& signBit64 ≠ 0 ∧ ¬ (a ^^^ b) &&& signBit64 ≠ 0 then
    (env.setQc, a.sshiftRight 63 ^^^ ~~~ signBit64)
  else (env, result)

/-! ## Doubled products -/

/-- `NEON_QDMULH16`. -/
def neonQdmulh16 (round : Bool) (src1 src2 : ℤ) : Option (ℤ × Bool) :=
  let tmp : Word := BitVec.ofInt 32 (IntType.int16.wrap src1 * IntType.int16.wrap src2)
  let doubled : Bool := (tmp ^^^ tmp <<< 1) &&& signBit ≠ 0
  let tmp := if doubled then tmp >>> 31 ^^^ ~~~ signBit else tmp
  -- no `else` here, unlike below
  let tmp := tmp <<< 1
  let old := tmp
  let tmp := if round then tmp + 1#32 <<< 15 else tmp
  let rounded : Bool := round ∧ tmp.slt old
  let tmp := if rounded then signBit - 1 else tmp
  some ((tmp >>> 16).toNat, doubled || rounded)

/-- `NEON_QDMULH32`. -/
def neonQdmulh32 (round : Bool) (src1 src2 : ℤ) : Option (ℤ × Bool) :=
  let tmp : BitVec 64 := BitVec.ofInt 64 (IntType.int32.wrap src1 * IntType.int32.wrap src2)
  let doubled : Bool := (tmp ^^^ tmp <<< 1) &&& signBit64 ≠ 0
  let tmp := if doubled then tmp >>> 63 ^^^ ~~~ signBit64 else tmp <<< 1
  let old := tmp
  let tmp := if round then tmp + 1#64 <<< 31 else tmp
  let rounded : Bool := round ∧ tmp.slt old
  let tmp := if rounded then signBit64 - 1 else tmp
  some ((tmp >>> 32).toNat, doubled || rounded)

def neonQdmulhS16 : NeonState → Word → Word → Option (NeonState × Word) := neonVopEnv .s16 (neonQdmulh16 false)
def neonQrdmulhS16 : NeonState → Word → Word → Option (NeonState × Word) := neonVopEnv .s16 (neonQdmulh16 true)
def neonQdmulhS32 : NeonState → Word → Word → Option (NeonState × Word) := neonVopEnv .s32 (neonQdmulh32 false)
def neonQrdmulhS32 : NeonState → Word → Word → Option (NeonState × Word) := neonVopEnv .s32 (neonQdmulh32 true)

/-! ## Narrowed lanes -/

/-- `SAT8` of `neon_narrow_sat_u8`: the narrow lane, and whether it sets QC. -/
def sat8U (s : BitVec 16) : BitVec 8 × Bool := if s > 0xff#16 then (0xff#8, true) else (s.setWidth 8, false)

/-- `SAT8` of `neon_narrow_sat_s8`. The shift is one of an `int`. -/
def sat8S (s : BitVec 16) : BitVec 8 × Bool :=
  if s ≠ (s.setWidth 8).signExtend 16 then
    (((s.signExtend 32).sshiftRight 15 ^^^ 0x7f#32).setWidth 8, true)
  else (s.setWidth 8, false)

/-- `SAT8` for the four lanes. -/
def narrowSat8 (sat8 : BitVec 16 → BitVec 8 × Bool) (env : NeonState) (x : BitVec 64) : NeonState × Word :=
  [0, 16, 32, 48].foldl (fun (env, res) n =>
    let (d, sat) := sat8 ((x >>> n).setWidth 16)
    (if sat then env.setQc else env, res ||| d.setWidth 32 <<< (n / 2))) (env, 0#32)

def neonNarrowSatU8 : NeonState → BitVec 64 → NeonState × Word := narrowSat8 sat8U
def neonNarrowSatS8 : NeonState → BitVec 64 → NeonState × Word := narrowSat8 sat8S

/-- A lane of `neon_narrow_sat_u16`. -/
def sat16U (low : Word) : Word × Bool := if low > 0xffff#32 then (0xffff#32, true) else (low, false)

/-- A lane of `neon_narrow_sat_s16`. -/
def sat16S (low : Word) : Word × Bool :=
  if low ≠ (low.setWidth 16).signExtend 32 then (low.sshiftRight 31 ^^^ 0x7fff#32, true) else (low, false)

def neonNarrowSatU16 (env : NeonState) (x : BitVec 64) : NeonState × Word :=
  let (low, sat) := sat16U (x.setWidth 32)
  let env := if sat then env.setQc else env
  let (high, sat) := sat16U ((x >>> 32).setWidth 32)
  let env := if sat then env.setQc else env
  (env, low ||| high <<< 16)

def neonNarrowSatS16 (env : NeonState) (x : BitVec 64) : NeonState × Word :=
  let (low, sat) := sat16S (x.setWidth 32)
  let env := if sat then env.setQc else env
  let (high, sat) := sat16S ((x >>> 32).setWidth 32)
  let env := if sat then env.setQc else env
  (env, (low.setWidth 16).setWidth 32 ||| high <<< 16)

def neonNarrowSatU32 (env : NeonState) (x : BitVec 64) : NeonState × Word :=
  if x > 0xffffffff#64 then (env.setQc, 0xffffffff#32) else (env, x.setWidth 32)

/-- The shift is one of a `uint64_t`. -/
def neonNarrowSatS32 (env : NeonState) (x : BitVec 64) : NeonState × Word :=
  if x ≠ (x.setWidth 32).signExtend 64 then (env.setQc, (x >>> 63 ^^^ 0x7fffffff#64).setWidth 32)
  else (env, x.setWidth 32)

/-! ## Absolute values and negations -/

section

variable (t : NeonType) (least greatest x : ℤ)

/-- `DO_QABS8` and `DO_QABS16`. -/
def doQabs : Option (ℤ × Bool) :=
  if x = t.int.wrap least then some (greatest, true) else if x < 0 then some (-x, false) else some (x, false)

/-- `DO_QNEG8` and `DO_QNEG16`. -/
def doQneg : Option (ℤ × Bool) :=
  if x = t.int.wrap least then some (greatest, true) else some (-x, false)

end

def neonQabsS8 (env : NeonState) (x : Word) : Option (NeonState × Word) :=
  neonVopEnv .s8 (fun x _ => doQabs .s8 0x80 0x7f x) env x x

def neonQabsS16 (env : NeonState) (x : Word) : Option (NeonState × Word) :=
  neonVopEnv .s16 (fun x _ => doQabs .s16 0x8000 0x7fff x) env x x

def neonQnegS8 (env : NeonState) (x : Word) : Option (NeonState × Word) :=
  neonVopEnv .s8 (fun x _ => doQneg .s8 0x80 0x7f x) env x x

def neonQnegS16 (env : NeonState) (x : Word) : Option (NeonState × Word) :=
  neonVopEnv .s16 (fun x _ => doQneg .s16 0x8000 0x7fff x) env x x

def neonQabsS32 (env : NeonState) (x : Word) : NeonState × Word :=
  if x = signBit then (env.setQc, ~~~ signBit) else if x.toInt < 0 then (env, -x) else (env, x)

def neonQnegS32 (env : NeonState) (x : Word) : NeonState × Word :=
  if x = signBit then (env.setQc, ~~~ signBit) else (env, -x)

/-! ## The helpers -/

/-- The saturating helpers that do not shift. -/
inductive SatHelper
  | qaddU8
  | qaddU16
  | qaddS8
  | qaddS16
  | qsubU8
  | qsubU16
  | qsubS8
  | qsubS16
  | addSaturateU64
  | addSaturateS64
  | subSaturateU64
  | subSaturateS64
  | addlSaturateS32
  | addlSaturateS64
  | qdmulhS16
  | qrdmulhS16
  | qdmulhS32
  | qrdmulhS32
  | narrowSatU8
  | narrowSatS8
  | narrowSatU16
  | narrowSatS16
  | narrowSatU32
  | narrowSatS32
  | qabsS8
  | qabsS16
  | qabsS32
  | qnegS8
  | qnegS16
  | qnegS32
  deriving DecidableEq

namespace SatHelper

/-- The lanes of the operands. -/
def src : SatHelper → IntType
  | qaddU8 | qsubU8 => .uint8
  | qaddS8 | qsubS8 | qabsS8 | qnegS8 => .int8
  | qaddU16 | qsubU16 | narrowSatU8 => .uint16
  | qaddS16 | qsubS16 | qdmulhS16 | qrdmulhS16 | qabsS16 | qnegS16 | narrowSatS8 => .int16
  | narrowSatU16 => .uint32
  | addlSaturateS32 | qdmulhS32 | qrdmulhS32 | qabsS32 | qnegS32 | narrowSatS16 => .int32
  | addSaturateU64 | subSaturateU64 | narrowSatU32 => .uint64
  | addSaturateS64 | subSaturateS64 | addlSaturateS64 | narrowSatS32 => .int64

/-- The lanes of the result. -/
def dest : SatHelper → IntType
  | narrowSatU8 => .uint8
  | narrowSatS8 => .int8
  | narrowSatU16 => .uint16
  | narrowSatS16 => .int16
  | narrowSatU32 => .uint32
  | narrowSatS32 => .int32
  | helper => helper.src

def lanes : SatHelper → ℕ
  | qaddU8 | qaddS8 | qsubU8 | qsubS8 | narrowSatU8 | narrowSatS8 | qabsS8 | qnegS8 => 4
  | qaddU16 | qaddS16 | qsubU16 | qsubS16 | addlSaturateS32 | qdmulhS16 | qrdmulhS16 | narrowSatU16 | narrowSatS16
  | qabsS16 | qnegS16 => 2
  | _ => 1

/-- The width of the operands. -/
def srcWord (helper : SatHelper) : ℕ := helper.src.width * helper.lanes

/-- The width of the result. -/
def destWord (helper : SatHelper) : ℕ := helper.dest.width * helper.lanes

/-- The exact result in a lane. -/
def exact : SatHelper → ℤ → ℤ → ℤ
  | qaddU8 | qaddU16 | qaddS8 | qaddS16 | addSaturateU64 | addSaturateS64 | addlSaturateS32 | addlSaturateS64 =>
    fun x y => x + y
  | qsubU8 | qsubU16 | qsubS8 | qsubS16 | subSaturateU64 | subSaturateS64 => fun x y => x - y
  | qdmulhS16 => fun x y => 2 * x * y / 2 ^ 16
  | qrdmulhS16 => fun x y => (2 * x * y + 2 ^ 15) / 2 ^ 16
  | qdmulhS32 => fun x y => 2 * x * y / 2 ^ 32
  | qrdmulhS32 => fun x y => (2 * x * y + 2 ^ 31) / 2 ^ 32
  | narrowSatU8 | narrowSatS8 | narrowSatU16 | narrowSatS16 | narrowSatU32 | narrowSatS32 => fun x _ => x
  | qabsS8 | qabsS16 | qabsS32 => fun x _ => |x|
  | qnegS8 | qnegS16 | qnegS32 => fun x _ => -x

/-- The helper. One with one operand does not use the second. -/
def run : (helper : SatHelper) → NeonState → BitVec helper.srcWord → BitVec helper.srcWord →
    Option (NeonState × BitVec helper.destWord)
  | qaddU8 => neonQaddU8
  | qaddU16 => neonQaddU16
  | qaddS8 => neonQaddS8
  | qaddS16 => neonQaddS16
  | qsubU8 => neonQsubU8
  | qsubU16 => neonQsubU16
  | qsubS8 => neonQsubS8
  | qsubS16 => neonQsubS16
  | addSaturateU64 => fun env a b => some (neonAddSaturateU64 env a b)
  | addSaturateS64 => fun env a b => some (neonAddSaturateS64 env a b)
  | subSaturateU64 => fun env a b => some (neonSubSaturateU64 env a b)
  | subSaturateS64 => fun env a b => some (neonSubSaturateS64 env a b)
  | addlSaturateS32 => fun env a b => some (neonAddlSaturateS32 env a b)
  | addlSaturateS64 => fun env a b => some (neonAddlSaturateS64 env a b)
  | qdmulhS16 => neonQdmulhS16
  | qrdmulhS16 => neonQrdmulhS16
  | qdmulhS32 => neonQdmulhS32
  | qrdmulhS32 => neonQrdmulhS32
  | narrowSatU8 => fun env x _ => some (neonNarrowSatU8 env x)
  | narrowSatS8 => fun env x _ => some (neonNarrowSatS8 env x)
  | narrowSatU16 => fun env x _ => some (neonNarrowSatU16 env x)
  | narrowSatS16 => fun env x _ => some (neonNarrowSatS16 env x)
  | narrowSatU32 => fun env x _ => some (neonNarrowSatU32 env x)
  | narrowSatS32 => fun env x _ => some (neonNarrowSatS32 env x)
  | qabsS8 => fun env x _ => neonQabsS8 env x
  | qabsS16 => fun env x _ => neonQabsS16 env x
  | qabsS32 => fun env x _ => some (neonQabsS32 env x)
  | qnegS8 => fun env x _ => neonQnegS8 env x
  | qnegS16 => fun env x _ => neonQnegS16 env x
  | qnegS32 => fun env x _ => some (neonQnegS32 env x)

/-- What the helper does to the state where a lane saturates. -/
def setFlag : SatHelper → NeonState → NeonState
  | addSaturateU64 | addSaturateS64 | subSaturateU64 | subSaturateS64 => NeonState.setQf
  | _ => NeonState.setQc

/-- The lanes that a helper gets wrong. -/
def Corner (helper : SatHelper) (x y : ℤ) : Prop :=
  ((helper = qdmulhS16 ∨ helper = qrdmulhS16) ∧ x = -2 ^ 15 ∧ y = -2 ^ 15) ∨ (helper = narrowSatS32 ∧ x < -2 ^ 31)

instance (helper : SatHelper) (x y : ℤ) : Decidable (helper.Corner x y) := inferInstanceAs (Decidable (_ ∨ _))

/-- What it stores there. -/
def cornerValue : SatHelper → ℤ
  | qdmulhS16 => -1
  | narrowSatS32 => 0x7ffffffe
  | _ => 0

/-- What it stores in a lane. -/
def value (helper : SatHelper) (x y : ℤ) : ℤ :=
  if helper.Corner x y then helper.cornerValue else helper.dest.clamp (helper.exact x y)

end SatHelper

/-! ## Lane by lane -/

/-- A function on words that stores `value` in every lane, and sets a flag where a lane is clamped. -/
def LaneWise {V W : ℕ} (src dest : IntType) (n : ℕ) (exact value : ℤ → ℤ → ℤ) (setFlag : NeonState → NeonState)
    (f : NeonState → BitVec V → BitVec V → Option (NeonState × BitVec W)) : Prop :=
  ∀ env a b, ∃ res,
    f env a b =
      some (if ∃ i < n, ¬ dest.Holds (exact (lane src a i) (lane src b i)) then setFlag env else env, res) ∧
    ∀ i < n, lane dest res i = value (lane src a i) (lane src b i)

section

variable {t : NeonType} {exact value : ℤ → ℤ → ℤ}

/-- The macros. -/
theorem laneWise_vopEnv {fn : ℤ → ℤ → Option (ℤ × Bool)}
    (h : ∀ x y, t.int.Holds x → t.int.Holds y →
      ∃ v, fn x y = some (v, decide (¬ t.int.Holds (exact x y))) ∧ t.int.wrap v = value x y) :
    LaneWise t.int t.int t.lanes exact value NeonState.setQc (neonVopEnv t fn) := by
  intro env a b
  choose v hv hvalue using fun i => h (lane t.int a i) (lane t.int b i) (holds_lane _ _ _) (holds_lane _ _ _)
  refine ⟨_, (neonVopEnv_some (fun i _ => hv i) env).trans ?_, fun i hi => (lane_range hi).trans (hvalue i)⟩
  simp only [decide_eq_true_eq]

end

/-! ## The macros -/

section

variable {t : NeonType} {x y : ℤ}

/-- A value that does not wrap is stored, another one is replaced. -/
theorem wrap_of_replaced {tmp exact top : ℤ} (htmp : tmp = t.int.wrap tmp ↔ t.int.Holds exact)
    (hexact : t.int.Holds exact → t.int.wrap tmp = exact) (htop : ¬ t.int.Holds exact →
      t.int.wrap top = t.int.clamp exact) :
    ∃ v, (if tmp ≠ t.int.wrap tmp then some (top, true) else some (tmp, false)) =
      some (v, decide (¬ t.int.Holds exact)) ∧ t.int.wrap v = t.int.clamp exact := by
  by_cases hholds : t.int.Holds exact
  · refine ⟨tmp, ?_, ?_⟩
    · rw [if_neg (not_not.2 (htmp.2 hholds))]
      simp [hholds]
    · rw [hexact hholds, clamp_of_holds hholds]
  · refine ⟨top, ?_, htop hholds⟩
    rw [if_pos (mt htmp.1 hholds)]
    simp [hholds]

theorem small_bounds (hsmall : t.int.width < 32) : -2 ^ 15 ≤ t.int.minValue ∧ t.int.maxValue < 2 ^ 16 := by
  cases t <;> first | exact absurd hsmall (by decide) | (constructor <;> decide)

theorem wrap_wrap_add (x y : ℤ) :
    IntType.uint32.wrap (IntType.uint32.wrap x + IntType.uint32.wrap y) = IntType.uint32.wrap (x + y) :=
  IntType.wrap_congr ((IntType.uint32.wrap_modEq x).add (IntType.uint32.wrap_modEq y))

theorem wrap_wrap_sub (x y : ℤ) :
    IntType.uint32.wrap (IntType.uint32.wrap x - IntType.uint32.wrap y) = IntType.uint32.wrap (x - y) :=
  IntType.wrap_congr ((IntType.uint32.wrap_modEq x).sub (IntType.uint32.wrap_modEq y))

/-- A sum of small lanes, computed in 32 bits. -/
theorem int32_wrap {z : ℤ} (hlow : -2 ^ 17 ≤ z) (hhigh : z ≤ 2 ^ 17) :
    IntType.int32.wrap (IntType.uint32.wrap z) = z := by
  rw [wrap_wrap (t := .int32) (u := .uint32) (by decide)]
  exact wrap_of_holds ⟨le_trans (by decide) hlow, hhigh.trans (by decide)⟩

theorem uint32_wrap {z : ℤ} (hlow : 0 ≤ z) (hhigh : z ≤ 2 ^ 17) : IntType.uint32.wrap z = z :=
  wrap_of_holds ⟨hlow, hhigh.trans (by decide)⟩

theorem usatAdd_clamps (hsigned : t.int.signed = false) (hsmall : t.int.width < 32) (hx : t.int.Holds x)
    (hy : t.int.Holds y) :
    ∃ v, neonUsatAdd t x y = some (v, decide (¬ t.int.Holds (x + y))) ∧ t.int.wrap v = t.int.clamp (x + y) := by
  obtain ⟨-, hmax⟩ := small_bounds hsmall
  have hmin := minValue_unsigned hsigned
  obtain ⟨hx0, hx1⟩ := hx
  obtain ⟨hy0, hy1⟩ := hy
  unfold neonUsatAdd
  rw [wrap_wrap_add, uint32_wrap (by omega) (by omega)]
  refine wrap_of_replaced (eq_comm.trans wrap_eq_self_iff) wrap_of_holds fun hover => ?_
  rw [wrap_neg_one hsigned, clamp_of_gt (not_le.1 fun h => hover ⟨by omega, h⟩)]

theorem usatSub_clamps (hsigned : t.int.signed = false) (hsmall : t.int.width < 32) (hx : t.int.Holds x)
    (hy : t.int.Holds y) :
    ∃ v, neonUsatSub t x y = some (v, decide (¬ t.int.Holds (x - y))) ∧ t.int.wrap v = t.int.clamp (x - y) := by
  obtain ⟨-, hmax⟩ := small_bounds hsmall
  have hmin := minValue_unsigned hsigned
  obtain ⟨hx0, hx1⟩ := hx
  obtain ⟨hy0, hy1⟩ := hy
  unfold neonUsatSub
  rw [wrap_wrap_sub]
  have hwide : t.int.width ≤ IntType.uint32.width := hsmall.le
  refine wrap_of_replaced ?_ (fun hholds => (wrap_wrap hwide _).trans (wrap_of_holds hholds))
    fun hover => ?_
  · rw [eq_comm, wrap_eq_self_iff]
    rcases le_or_gt y x with hle | hlt
    · rw [uint32_wrap (by omega) (by omega)]
    · -- a negative difference is a large number
      have hlarge : IntType.uint32.wrap (x - y) = x - y + 2 ^ 32 := by
        rw [wrap_eq_iff]
        · exact Int.modEq_iff_dvd.2 ⟨1, by change _ = 2 ^ 32 * 1; ring⟩
        · constructor
          · change 0 ≤ _
            omega
          · change _ ≤ 2 ^ 32 - 1
            omega
      rw [hlarge]
      exact iff_of_false (fun h => absurd h.2 (by omega)) (fun h => absurd h.1 (by omega))
  · rw [wrap_of_holds t.int.holds_zero, clamp_of_lt (not_le.1 fun h => hover ⟨h, by omega⟩), hmin]

/-- The replacement of a signed lane: the limit on the side where the lane overflows. -/
theorem wrap_limit {exact : ℤ} {up : Prop} [Decidable up] (hsigned : t.int.signed = true)
    (hup : up → t.int.minValue ≤ exact) (hdown : ¬ up → exact ≤ t.int.maxValue) (hover : ¬ t.int.Holds exact) :
    t.int.wrap (if up then 2 ^ (t.int.width - 1) - 1 else 2 ^ (t.int.width - 1)) = t.int.clamp exact := by
  split_ifs with h
  · have hmax : t.int.maxValue = 2 ^ (t.int.width - 1) - 1 := by rw [IntType.maxValue, if_pos hsigned]
    rw [clamp_of_gt (not_le.1 fun hle => hover ⟨hup h, hle⟩), ← hmax]
    exact wrap_of_holds ⟨t.int.minValue_nonpos.trans t.int.maxValue_nonneg, le_rfl⟩
  · have hmin : t.int.minValue = -2 ^ (t.int.width - 1) := by rw [IntType.minValue, if_pos hsigned]
    have hpow : (2 : ℤ) ^ t.int.width = 2 * 2 ^ (t.int.width - 1) := by cases t <;> rfl
    rw [clamp_of_lt (not_le.1 fun hle => hover ⟨hle, hdown h⟩), hmin, ← hmin,
      wrap_eq_iff ⟨le_rfl, t.int.minValue_nonpos.trans t.int.maxValue_nonneg⟩, hmin, hpow]
    exact Int.modEq_iff_dvd.2 ⟨-1, by ring⟩

theorem some_ite_limit {c : Prop} [Decidable c] (a b : ℤ) :
    (if c then some (a, true) else some (b, true)) = some (if c then a else b, true) := by
  split_ifs <;> rfl

theorem ssatAdd_clamps (hsigned : t.int.signed = true) (hsmall : t.int.width < 32) (hx : t.int.Holds x)
    (hy : t.int.Holds y) :
    ∃ v, neonSsatAdd t x y = some (v, decide (¬ t.int.Holds (x + y))) ∧ t.int.wrap v = t.int.clamp (x + y) := by
  obtain ⟨hmin, hmax⟩ := small_bounds hsmall
  obtain ⟨hx0, hx1⟩ := hx
  obtain ⟨hy0, hy1⟩ := hy
  unfold neonSsatAdd
  rw [wrap_wrap_add, int32_wrap (by omega) (by omega)]
  dsimp only
  rw [some_ite_limit]
  exact wrap_of_replaced (eq_comm.trans wrap_eq_self_iff) wrap_of_holds
    (wrap_limit hsigned (fun _ => by omega) (fun _ => by omega))

theorem ssatSub_clamps (hsigned : t.int.signed = true) (hsmall : t.int.width < 32) (hx : t.int.Holds x)
    (hy : t.int.Holds y) :
    ∃ v, neonSsatSub t x y = some (v, decide (¬ t.int.Holds (x - y))) ∧ t.int.wrap v = t.int.clamp (x - y) := by
  obtain ⟨hmin, hmax⟩ := small_bounds hsmall
  obtain ⟨hx0, hx1⟩ := hx
  obtain ⟨hy0, hy1⟩ := hy
  unfold neonSsatSub
  rw [wrap_wrap_sub, int32_wrap (by omega) (by omega)]
  dsimp only
  rw [some_ite_limit]
  exact wrap_of_replaced (eq_comm.trans wrap_eq_self_iff) wrap_of_holds
    (wrap_limit hsigned (fun _ => by omega) (fun _ => by omega))

theorem doQabs_clamps {least greatest : ℤ} (hleast : t.int.wrap least = t.int.minValue)
    (hgreatest : greatest = t.int.maxValue) (hsigned : t.int.signed = true) (hx : t.int.Holds x) :
    ∃ v, doQabs t least greatest x = some (v, decide (¬ t.int.Holds |x|)) ∧ t.int.wrap v = t.int.clamp |x| := by
  have hsym : t.int.maxValue = -t.int.minValue - 1 := by
    rw [IntType.maxValue, IntType.minValue, if_pos hsigned, if_pos hsigned]
    ring
  obtain ⟨hlow, hhigh⟩ := hx
  have hmin := t.int.minValue_nonpos
  have hmax := t.int.maxValue_nonneg
  unfold doQabs
  rw [hleast, hgreatest]
  split_ifs with hcorner hneg
  · have hlarge : t.int.maxValue < |x| := by
      rw [hcorner, abs_of_nonpos hmin]
      omega
    refine ⟨t.int.maxValue, ?_, ?_⟩
    · simp [IntType.Holds, hlarge]
    · rw [clamp_of_gt hlarge, wrap_of_holds ⟨by omega, le_rfl⟩]
  · have hholds : t.int.Holds |x| := by
      rw [abs_of_neg hneg]
      exact ⟨by omega, by omega⟩
    refine ⟨-x, by simp [hholds], ?_⟩
    rw [clamp_of_holds hholds, abs_of_neg hneg, wrap_of_holds ⟨by omega, by omega⟩]
  · have hholds : t.int.Holds |x| := by
      rw [abs_of_nonneg (not_lt.1 hneg)]
      exact ⟨hlow, hhigh⟩
    refine ⟨x, by simp [hholds], ?_⟩
    rw [clamp_of_holds hholds, abs_of_nonneg (not_lt.1 hneg), wrap_of_holds ⟨hlow, hhigh⟩]

theorem doQneg_clamps {least greatest : ℤ} (hleast : t.int.wrap least = t.int.minValue)
    (hgreatest : greatest = t.int.maxValue) (hsigned : t.int.signed = true) (hx : t.int.Holds x) :
    ∃ v, doQneg t least greatest x = some (v, decide (¬ t.int.Holds (-x))) ∧ t.int.wrap v = t.int.clamp (-x) := by
  have hsym : t.int.maxValue = -t.int.minValue - 1 := by
    rw [IntType.maxValue, IntType.minValue, if_pos hsigned, if_pos hsigned]
    ring
  obtain ⟨hlow, hhigh⟩ := hx
  unfold doQneg
  rw [hleast, hgreatest]
  split_ifs with hcorner
  · have hlarge : t.int.maxValue < -x := by omega
    refine ⟨t.int.maxValue, ?_, ?_⟩
    · simp [IntType.Holds, hlarge]
    · have := t.int.maxValue_nonneg
      have := t.int.minValue_nonpos
      rw [clamp_of_gt hlarge, wrap_of_holds ⟨by omega, le_rfl⟩]
  · have hholds : t.int.Holds (-x) := ⟨by omega, by omega⟩
    refine ⟨-x, by simp [hholds], ?_⟩
    rw [clamp_of_holds hholds, wrap_of_holds hholds]

end

/-! ## Doubled products -/

section

/-- The product of two lanes that are not both the least one can be doubled. -/
theorem product_bounds {M x y : ℤ} (hx : -M ≤ x ∧ x < M) (hy : -M ≤ y ∧ y < M) (hcorner : ¬ (x = -M ∧ y = -M)) :
    -(M * M - M) ≤ x * y ∧ x * y ≤ M * M - M := by
  by_cases hleast : x = -M
  · have hy' : -M + 1 ≤ y := by omega
    rw [hleast]
    constructor <;> nlinarith
  · have habs : |x| ≤ M - 1 := abs_le.2 ⟨by omega, by omega⟩
    have hmul : |x * y| ≤ (M - 1) * M := by
      rw [abs_mul]
      exact mul_le_mul habs (abs_le.2 ⟨hy.1, hy.2.le⟩) (abs_nonneg y) (by omega)
    obtain ⟨hlow, hhigh⟩ := abs_le.1 hmul
    constructor <;> linarith

theorem ofInt_shiftLeft_one (N : ℕ) (p : ℤ) : BitVec.ofInt N p <<< 1 = BitVec.ofInt N (2 * p) := by
  rw [two_mul, ofInt_add]
  apply eq_of_toNat_eq
  rw [toNat_shiftLeft, toNat_add, Nat.shiftLeft_eq, pow_one, mul_two]

/-- The two signs agree where the doubled product is in the range. -/
theorem double_sign {N : ℕ} {p : ℤ} (hN : 0 < N) (hlow : -2 ^ (N - 1) ≤ 2 * p) (hhigh : 2 * p < 2 ^ (N - 1)) :
    ¬ (BitVec.ofInt N p ^^^ BitVec.ofInt N p <<< 1) &&& BitVec.intMin N ≠ 0#N := by
  rw [and_sign_ne_zero_iff hN, msb_xor, ofInt_shiftLeft_one, msb_eq_toInt, msb_eq_toInt,
    toInt_ofInt_eq_self hN (by omega) (by omega), toInt_ofInt_eq_self hN hlow hhigh]
  by_cases hneg : p < 0
  · simp [hneg, show 2 * p < 0 by omega]
  · simp [hneg, show ¬ 2 * p < 0 by omega]

/-- The high half of a number of two widths. -/
theorem wrap_high {t : IntType} {w : ℕ} (hw : t.width = w) (e : ℤ) :
    t.wrap (BitVec.ofInt (w + w) e >>> w).toNat = t.wrap (e / 2 ^ w) := by
  subst hw
  have hpos : (0 : ℤ) < 2 ^ t.width := by positivity
  have hcast : ((BitVec.ofInt (t.width + t.width) e >>> t.width).toNat : ℤ) =
    e % 2 ^ (t.width + t.width) / 2 ^ t.width := by
    rw [toNat_ushiftRight, Nat.shiftRight_eq_div_pow, toNat_ofInt]
    push_cast
    rw [Int.toNat_of_nonneg (Int.emod_nonneg _ (by positivity))]
  rw [hcast, pow_add, Int.emod_def, sub_eq_add_neg, mul_assoc, mul_comm (2 ^ t.width) (2 ^ t.width * _), ← neg_mul,
    Int.add_mul_ediv_right _ _ hpos.ne']
  exact IntType.wrap_congr (Int.modEq_iff_dvd.2 ⟨e / (2 ^ t.width * 2 ^ t.width), by ring⟩)

variable {x y : ℤ}

/-- What is added before the shift. -/
def half (round : Bool) (w : ℕ) : ℤ := if round then 2 ^ (w - 1) else 0

theorem neonQdmulh16_eq (round : Bool) (hx : IntType.int16.Holds x) (hy : IntType.int16.Holds y)
    (hcorner : ¬ (x = -2 ^ 15 ∧ y = -2 ^ 15)) :
    neonQdmulh16 round x y = some (((BitVec.ofInt 32 (2 * x * y + half round 16) >>> 16).toNat : ℤ), false) := by
  have hbounds := product_bounds (M := 2 ^ 15) ⟨hx.1, Int.lt_of_le_sub_one hx.2⟩
    ⟨hy.1, Int.lt_of_le_sub_one hy.2⟩ hcorner
  have hsign := double_sign (N := 32) (p := x * y) (by decide) (by omega) (by omega)
  have hold : (BitVec.ofInt 32 (2 * (x * y))).toInt = 2 * (x * y) :=
    toInt_ofInt_eq_self (by decide) (by omega) (by omega)
  have hsum : BitVec.ofInt 32 (2 * (x * y)) + 1#32 <<< 15 = BitVec.ofInt 32 (2 * (x * y) + 2 ^ 15) := by
    rw [ofInt_add]
    rfl
  have hnew : (BitVec.ofInt 32 (2 * (x * y) + 2 ^ 15)).toInt = 2 * (x * y) + 2 ^ 15 :=
    toInt_ofInt_eq_self (by decide) (by omega) (by omega)
  unfold neonQdmulh16 half
  rw [wrap_of_holds hx, wrap_of_holds hy, mul_assoc]
  change ¬ (BitVec.ofInt 32 (x * y) ^^^ BitVec.ofInt 32 (x * y) <<< 1) &&& signBit ≠ 0 at hsign
  simp only [decide_eq_false hsign, Bool.false_eq_true, if_false]
  simp only [ofInt_shiftLeft_one]
  cases round with
  | false => simp only [Bool.false_eq_true, if_false, false_and, decide_false, Bool.or_false, add_zero]
  | true =>
    have hslt : ¬ (2 * (x * y) + 2 ^ 15 < 2 * (x * y)) := by omega
    simp only [if_true, hsum, slt_eq_decide, hold, hnew, decide_eq_false hslt, Bool.false_eq_true, and_false,
      decide_false, if_false, Bool.or_false]

theorem neonQdmulh32_eq (round : Bool) (hx : IntType.int32.Holds x) (hy : IntType.int32.Holds y)
    (hcorner : ¬ (x = -2 ^ 31 ∧ y = -2 ^ 31)) :
    neonQdmulh32 round x y = some (((BitVec.ofInt 64 (2 * x * y + half round 32) >>> 32).toNat : ℤ), false) := by
  have hbounds := product_bounds (M := 2 ^ 31) ⟨hx.1, Int.lt_of_le_sub_one hx.2⟩
    ⟨hy.1, Int.lt_of_le_sub_one hy.2⟩ hcorner
  have hsign := double_sign (N := 64) (p := x * y) (by decide) (by omega) (by omega)
  have hold : (BitVec.ofInt 64 (2 * (x * y))).toInt = 2 * (x * y) :=
    toInt_ofInt_eq_self (by decide) (by omega) (by omega)
  have hsum : BitVec.ofInt 64 (2 * (x * y)) + 1#64 <<< 31 = BitVec.ofInt 64 (2 * (x * y) + 2 ^ 31) := by
    rw [ofInt_add]
    rfl
  have hnew : (BitVec.ofInt 64 (2 * (x * y) + 2 ^ 31)).toInt = 2 * (x * y) + 2 ^ 31 :=
    toInt_ofInt_eq_self (by decide) (by omega) (by omega)
  unfold neonQdmulh32 half
  rw [wrap_of_holds hx, wrap_of_holds hy, mul_assoc]
  change ¬ (BitVec.ofInt 64 (x * y) ^^^ BitVec.ofInt 64 (x * y) <<< 1) &&& signBit64 ≠ 0 at hsign
  simp only [decide_eq_false hsign, Bool.false_eq_true, if_false]
  simp only [ofInt_shiftLeft_one]
  cases round with
  | false => simp only [Bool.false_eq_true, if_false, false_and, decide_false, Bool.or_false, add_zero]
  | true =>
    have hslt : ¬ (2 * (x * y) + 2 ^ 31 < 2 * (x * y)) := by omega
    simp only [if_true, hsum, slt_eq_decide, hold, hnew, decide_eq_false hslt, Bool.false_eq_true, and_false,
      decide_false, if_false, Bool.or_false]

/-- The high half of a doubled product is in the range, unless both lanes are the least one. -/
theorem holds_high {t : IntType} {w : ℕ} (hw : t.width = w) (hsigned : t.signed = true) {e : ℤ}
    (hlow : -2 ^ (w - 1) * 2 ^ w ≤ e) (hhigh : e < 2 ^ (w - 1) * 2 ^ w) : t.Holds (e / 2 ^ w) :=
  (holds_signed_iff hw hsigned _).2
    ⟨(Int.le_ediv_iff_mul_le (by positivity)).2 hlow, (Int.ediv_lt_iff_lt_mul (by positivity)).2 hhigh⟩

theorem qdmulh16_stores (round : Bool) (hx : IntType.int16.Holds x) (hy : IntType.int16.Holds y) :
    ∃ v, neonQdmulh16 round x y = some (v, decide (¬ IntType.int16.Holds ((2 * x * y + half round 16) / 2 ^ 16))) ∧
      IntType.int16.wrap v = if x = -2 ^ 15 ∧ y = -2 ^ 15 then if round then 0 else -1
        else IntType.int16.clamp ((2 * x * y + half round 16) / 2 ^ 16) := by
  split_ifs with hcorner hround
  · obtain ⟨rfl, rfl⟩ := hcorner
    subst hround
    exact ⟨_, rfl, by decide⟩
  · obtain ⟨rfl, rfl⟩ := hcorner
    rw [Bool.eq_false_of_not_eq_true hround]
    exact ⟨_, rfl, by decide⟩
  · have hbounds := product_bounds (M := 2 ^ 15) ⟨hx.1, Int.lt_of_le_sub_one hx.2⟩
      ⟨hy.1, Int.lt_of_le_sub_one hy.2⟩ hcorner
    have hhalf : 0 ≤ half round 16 ∧ half round 16 ≤ 2 ^ 15 := by cases round <;> decide
    have hholds : IntType.int16.Holds ((2 * x * y + half round 16) / 2 ^ 16) := by
      rw [mul_assoc]
      exact holds_high (w := 16) rfl rfl (by omega) (by omega)
    rw [neonQdmulh16_eq round hx hy hcorner, decide_eq_false (not_not.2 hholds)]
    refine ⟨_, rfl, ?_⟩
    rw [wrap_high (t := .int16) (w := 16) rfl, wrap_of_holds hholds, clamp_of_holds hholds]

theorem qdmulh32_stores (round : Bool) (hx : IntType.int32.Holds x) (hy : IntType.int32.Holds y) :
    ∃ v, neonQdmulh32 round x y = some (v, decide (¬ IntType.int32.Holds ((2 * x * y + half round 32) / 2 ^ 32))) ∧
      IntType.int32.wrap v = IntType.int32.clamp ((2 * x * y + half round 32) / 2 ^ 32) := by
  by_cases hcorner : x = -2 ^ 31 ∧ y = -2 ^ 31
  · obtain ⟨rfl, rfl⟩ := hcorner
    cases round <;> exact ⟨_, rfl, by decide⟩
  · have hbounds := product_bounds (M := 2 ^ 31) ⟨hx.1, Int.lt_of_le_sub_one hx.2⟩
      ⟨hy.1, Int.lt_of_le_sub_one hy.2⟩ hcorner
    have hhalf : 0 ≤ half round 32 ∧ half round 32 ≤ 2 ^ 31 := by cases round <;> decide
    have hholds : IntType.int32.Holds ((2 * x * y + half round 32) / 2 ^ 32) := by
      rw [mul_assoc]
      exact holds_high (w := 32) rfl rfl (by omega) (by omega)
    rw [neonQdmulh32_eq round hx hy hcorner, decide_eq_false (not_not.2 hholds)]
    refine ⟨_, rfl, ?_⟩
    rw [wrap_high (t := .int32) (w := 32) rfl, wrap_of_holds hholds, clamp_of_holds hholds]

end

/-! ## Words with one lane -/

section

variable {w : ℕ} {t : IntType}

/-- A helper on words of one lane. -/
theorem laneWise_one {src dest : IntType} {V W : ℕ} {exact value : ℤ → ℤ → ℤ} {setFlag : NeonState → NeonState}
    {f : NeonState → BitVec V → BitVec V → NeonState × BitVec W}
    (h : ∀ env a b, (f env a b).1 = (if dest.Holds (exact (lane src a 0) (lane src b 0)) then env else setFlag env) ∧
      lane dest (f env a b).2 0 = value (lane src a 0) (lane src b 0)) :
    LaneWise src dest 1 exact value setFlag (fun env a b => some (f env a b)) := by
  intro env a b
  obtain ⟨hstate, hvalue⟩ := h env a b
  refine ⟨(f env a b).2, congrArg some (Prod.ext ?_ rfl), ?_⟩
  · rw [hstate]
    simp only [Nat.lt_one_iff, exists_eq_left, ite_not]
  · intro i hi
    rw [Nat.lt_one_iff.1 hi]
    exact hvalue

theorem lane_signed (hw : t.width = w) (hsigned : t.signed = true) (x : BitVec w) : lane t x 0 = x.toInt := by
  rw [lane_of_extract (v := x) hw (by simp), wrap_toNat_signed hw hsigned]

theorem lane_unsigned (hw : t.width = w) (hsigned : t.signed = false) (x : BitVec w) : lane t x 0 = x.toNat := by
  rw [lane_of_extract (v := x) hw (by simp), wrap_toNat_unsigned hw hsigned]

/-- The limit that replaces a value on the side of the sign of an operand. -/
theorem toInt_saturated_clamp (hw : t.width = w) (hsigned : t.signed = true) {x : BitVec w} {e : ℤ}
    (hover : ¬ t.Holds e) (hneg : x.toInt < 0 → e < 2 ^ (w - 1)) (hpos : 0 ≤ x.toInt → -2 ^ (w - 1) ≤ e) :
    (x.sshiftRight (w - 1) ^^^ ~~~ BitVec.intMin w).toInt = t.clamp e := by
  have hmin : t.minValue = -2 ^ (w - 1) := by rw [IntType.minValue, if_pos hsigned, hw]
  have hmax : t.maxValue = 2 ^ (w - 1) - 1 := by rw [IntType.maxValue, if_pos hsigned, hw]
  rw [holds_signed_iff hw hsigned] at hover
  rw [toInt_saturated (hw ▸ t.width_pos)]
  split_ifs with h
  · rw [clamp_of_lt (by have := hneg h; omega), hmin]
  · rw [clamp_of_gt (by have := hpos (not_lt.1 h); omega), hmax]

section

variable {V W : ℕ} (setFlag : NeonState → NeonState) (hw : t.width = w) (hsigned : t.signed = true)
  (env : NeonState) (x y : BitVec w)

include hw hsigned

/-- A result that saturates by the sign of the first operand. -/
theorem saturate_clamps {overflow : Prop} [Decidable overflow] {sum : BitVec w} {e : ℤ}
    (hover : overflow ↔ ¬ t.Holds e) (hsum : sum.toInt = e.bmod (2 ^ w)) (hneg : x.toInt < 0 → e < 2 ^ (w - 1))
    (hpos : 0 ≤ x.toInt → -2 ^ (w - 1) ≤ e) :
    let out := if overflow then (setFlag env, x.sshiftRight (w - 1) ^^^ ~~~ BitVec.intMin w) else (env, sum)
    out.1 = (if t.Holds e then env else setFlag env) ∧ out.2.toInt = t.clamp e := by
  intro out
  by_cases hholds : t.Holds e
  · have hout : out = (env, sum) := if_neg (mt hover.1 (not_not.2 hholds))
    rw [hout, if_pos hholds, clamp_of_holds hholds, hsum]
    refine ⟨rfl, ?_⟩
    have hwrap := wrap_of_holds hholds
    rwa [IntType.wrap, if_pos hsigned, hw] at hwrap
  · have hout : out = (setFlag env, x.sshiftRight (w - 1) ^^^ ~~~ BitVec.intMin w) := if_pos (hover.2 hholds)
    rw [hout, if_neg hholds]
    exact ⟨rfl, toInt_saturated_clamp hw hsigned hholds hneg hpos⟩

theorem addSaturate_clamps :
    let out := if ((x + y) ^^^ x) &&& BitVec.intMin w ≠ 0#w ∧ ¬ (x ^^^ y) &&& BitVec.intMin w ≠ 0#w then
      (setFlag env, x.sshiftRight (w - 1) ^^^ ~~~ BitVec.intMin w) else (env, x + y)
    out.1 = (if t.Holds (x.toInt + y.toInt) then env else setFlag env) ∧
      out.2.toInt = t.clamp (x.toInt + y.toInt) := by
  have hlow := le_toInt y
  have hhigh := toInt_lt (x := y)
  exact saturate_clamps setFlag hw hsigned env x (addOverflow_iff hw hsigned x y) (toInt_add x y)
    (fun h => by omega) (fun h => by omega)

theorem subSaturate_clamps :
    let out := if ((x - y) ^^^ x) &&& BitVec.intMin w ≠ 0#w ∧ (x ^^^ y) &&& BitVec.intMin w ≠ 0#w then
      (setFlag env, x.sshiftRight (w - 1) ^^^ ~~~ BitVec.intMin w) else (env, x - y)
    out.1 = (if t.Holds (x.toInt - y.toInt) then env else setFlag env) ∧
      out.2.toInt = t.clamp (x.toInt - y.toInt) := by
  have hlow := le_toInt y
  have hhigh := toInt_lt (x := y)
  exact saturate_clamps setFlag hw hsigned env x (subOverflow_iff hw hsigned x y) toInt_sub
    (fun h => by omega) (fun h => by omega)

end

theorem lane_int64 (x : BitVec 64) : lane .int64 x 0 = x.toInt := lane_signed (t := .int64) (w := 64) rfl rfl x

theorem lane_uint64 (x : BitVec 64) : lane .uint64 x 0 = x.toNat := lane_unsigned (t := .uint64) (w := 64) rfl rfl x

theorem lane_int32 (x : Word) : lane .int32 x 0 = x.toInt := lane_signed (t := .int32) (w := 32) rfl rfl x

theorem lane_uint32 (x : Word) : lane .uint32 x 0 = x.toNat := lane_unsigned (t := .uint32) (w := 32) rfl rfl x

theorem signBit_eq : signBit = BitVec.intMin 32 := by decide

theorem signBit64_eq : signBit64 = BitVec.intMin 64 := by decide

theorem addSaturateS64_laneWise :
    LaneWise .int64 .int64 1 (· + ·) (fun x y => IntType.int64.clamp (x + y)) NeonState.setQf
      (fun env a b => some (neonAddSaturateS64 env a b)) := by
  refine laneWise_one fun env a b => ?_
  rw [lane_int64, lane_int64, lane_int64]
  unfold neonAddSaturateS64
  rw [signBit64_eq]
  exact addSaturate_clamps (t := .int64) (w := 64) _ rfl rfl env a b

theorem addlSaturateS64_laneWise :
    LaneWise .int64 .int64 1 (· + ·) (fun x y => IntType.int64.clamp (x + y)) NeonState.setQc
      (fun env a b => some (neonAddlSaturateS64 env a b)) := by
  refine laneWise_one fun env a b => ?_
  rw [lane_int64, lane_int64, lane_int64]
  unfold neonAddlSaturateS64
  rw [signBit64_eq]
  exact addSaturate_clamps (t := .int64) (w := 64) _ rfl rfl env a b

theorem subSaturateS64_laneWise :
    LaneWise .int64 .int64 1 (· - ·) (fun x y => IntType.int64.clamp (x - y)) NeonState.setQf
      (fun env a b => some (neonSubSaturateS64 env a b)) := by
  refine laneWise_one fun env a b => ?_
  rw [lane_int64, lane_int64, lane_int64]
  unfold neonSubSaturateS64
  rw [signBit64_eq]
  exact subSaturate_clamps (t := .int64) (w := 64) _ rfl rfl env a b

theorem holds_uint64_iff (x : ℤ) : IntType.uint64.Holds x ↔ 0 ≤ x ∧ x < 2 ^ 64 :=
  and_congr_right fun _ => Int.le_sub_one_iff

theorem addSaturateU64_laneWise :
    LaneWise .uint64 .uint64 1 (· + ·) (fun x y => IntType.uint64.clamp (x + y)) NeonState.setQf
      (fun env a b => some (neonAddSaturateU64 env a b)) := by
  refine laneWise_one fun env a b => ?_
  rw [lane_uint64, lane_uint64, lane_uint64]
  unfold neonAddSaturateU64
  have ha := a.isLt
  have hb := b.isLt
  by_cases hholds : IntType.uint64.Holds ((a.toNat : ℤ) + b.toNat)
  · have hsum : (a + b).toNat = a.toNat + b.toNat := by
      have := ((holds_uint64_iff _).1 hholds).2
      rw [toNat_add, Nat.mod_eq_of_lt (by omega)]
    have hle : ¬ a + b < a := by
      rw [lt_def, hsum]
      omega
    rw [if_pos hholds, clamp_of_holds hholds, if_neg hle, hsum]
    exact ⟨rfl, by push_cast; rfl⟩
  · have hover : 2 ^ 64 ≤ a.toNat + b.toNat := by
      rw [holds_uint64_iff] at hholds
      omega
    have hlt : a + b < a := by
      rw [lt_def, toNat_add, Nat.mod_eq_sub_mod hover, Nat.mod_eq_of_lt (by omega)]
      omega
    have hgt : IntType.uint64.maxValue < (a.toNat : ℤ) + b.toNat := by
      change 2 ^ 64 - 1 < (a.toNat : ℤ) + b.toNat
      omega
    rw [if_neg hholds, if_pos hlt, clamp_of_gt hgt]
    exact ⟨rfl, rfl⟩

theorem subSaturateU64_laneWise :
    LaneWise .uint64 .uint64 1 (· - ·) (fun x y => IntType.uint64.clamp (x - y)) NeonState.setQf
      (fun env a b => some (neonSubSaturateU64 env a b)) := by
  refine laneWise_one fun env a b => ?_
  rw [lane_uint64, lane_uint64, lane_uint64]
  unfold neonSubSaturateU64
  have ha := a.isLt
  by_cases hlt : a < b
  · have hneg : (a.toNat : ℤ) - b.toNat < 0 := by
      rw [lt_def] at hlt
      omega
    have hover : ¬ IntType.uint64.Holds ((a.toNat : ℤ) - b.toNat) := fun h => absurd h.1 (not_le.2 hneg)
    rw [if_pos hlt, if_neg hover, clamp_of_lt hneg]
    exact ⟨rfl, rfl⟩
  · have hle : b.toNat ≤ a.toNat := by
      rw [lt_def] at hlt
      omega
    have hholds : IntType.uint64.Holds ((a.toNat : ℤ) - b.toNat) := (holds_uint64_iff _).2 (by omega)
    rw [if_neg hlt, if_pos hholds, clamp_of_holds hholds]
    refine ⟨rfl, ?_⟩
    rw [toNat_sub_of_le (le_def.2 hle)]
    omega

/-! ## Narrowing one lane -/

theorem narrowSatU32_laneWise :
    LaneWise .uint64 .uint32 1 (fun x _ => x) (fun x _ => IntType.uint32.clamp x) NeonState.setQc
      (fun env (x : BitVec 64) (_ : BitVec 64) => some (neonNarrowSatU32 env x)) := by
  refine laneWise_one fun env x _ => ?_
  rw [lane_uint64, lane_uint32]
  unfold neonNarrowSatU32
  by_cases hlarge : x > 0xffffffff#64
  · have hgt : IntType.uint32.maxValue < (x.toNat : ℤ) := by
      have h : 0xffffffff < x.toNat := lt_def.1 hlarge
      change 2 ^ 32 - 1 < (x.toNat : ℤ)
      omega
    rw [if_pos hlarge, if_neg (fun h : IntType.uint32.Holds _ => absurd h.2 (not_le.2 hgt)), clamp_of_gt hgt]
    exact ⟨rfl, rfl⟩
  · have hle : x.toNat ≤ 0xffffffff := not_lt.1 fun h => hlarge (lt_def.2 h)
    have hholds : IntType.uint32.Holds (x.toNat : ℤ) := by
      refine ⟨Int.natCast_nonneg _, ?_⟩
      change (x.toNat : ℤ) ≤ 2 ^ 32 - 1
      omega
    rw [if_neg hlarge, if_pos hholds, clamp_of_holds hholds]
    refine ⟨rfl, ?_⟩
    rw [toNat_setWidth, Nat.mod_eq_of_lt (by omega)]

/-- A number is what is left of it, sign extended, exactly if the narrow type has it. -/
theorem eq_signExtend_iff {t : IntType} {w W : ℕ} (hw : t.width = w) (hsigned : t.signed = true) (hle : w ≤ W)
    (x : BitVec W) : x = (x.setWidth w).signExtend W ↔ t.Holds x.toInt := by
  have hnarrow : ((x.setWidth w).signExtend W).toInt = t.wrap x.toInt := by
    have hmod : (x.toInt : ℤ) ≡ x.toNat [ZMOD 2 ^ W] := by
      rw [toInt_eq_toNat_bmod]
      have h := Int.bmod_emod (x := (x.toNat : ℤ)) (m := 2 ^ W)
      push_cast at h
      exact h
    rw [IntType.wrap_congr (hmod.of_dvd (pow_dvd_pow 2 (hw ▸ hle))), IntType.wrap, if_pos hsigned, hw,
      toInt_signExtend, toInt_setWidth, min_eq_right hle, Int.bmod_bmod]
  rw [← toInt_inj, hnarrow, eq_comm, wrap_eq_self_iff]

/-- The low half, where the narrow type has the number. -/
theorem toInt_setWidth_of_holds {t : IntType} {w W : ℕ} (hw : t.width = w) (hsigned : t.signed = true) (hle : w ≤ W)
    {x : BitVec W} (hholds : t.Holds x.toInt) : (x.setWidth w).toInt = x.toInt := by
  have h := congrArg BitVec.toInt ((eq_signExtend_iff hw hsigned hle x).2 hholds)
  rw [toInt_signExtend_of_le hle] at h
  exact h.symm

/-- The sign bit, shifted down without a sign. -/
theorem ushiftRight_63 (x : BitVec 64) : x >>> 63 = if x.toInt < 0 then 1#64 else 0#64 := by
  have hx := x.isLt
  apply eq_of_toNat_eq
  rw [toNat_ushiftRight, Nat.shiftRight_eq_div_pow]
  have hsign := toInt_eq_toNat_cond x
  by_cases hlow : 2 * x.toNat < 2 ^ 64
  · rw [if_pos hlow] at hsign
    rw [if_neg (by omega)]
    change x.toNat / 2 ^ 63 = 0
    omega
  · rw [if_neg hlow] at hsign
    rw [if_pos (by omega)]
    change x.toNat / 2 ^ 63 = 1
    omega

theorem narrowSatS32_laneWise :
    LaneWise .int64 .int32 1 (fun x _ => x) (fun x _ => if x < -2 ^ 31 then 0x7ffffffe else IntType.int32.clamp x)
      NeonState.setQc (fun env (x : BitVec 64) (_ : BitVec 64) => some (neonNarrowSatS32 env x)) := by
  refine laneWise_one fun env x _ => ?_
  rw [lane_int64, lane_int32]
  unfold neonNarrowSatS32
  have hiff := eq_signExtend_iff (t := .int32) (w := 32) rfl rfl (by decide : 32 ≤ 64) x
  by_cases hholds : IntType.int32.Holds x.toInt
  · have hlow : ¬ x.toInt < -2 ^ 31 := not_lt.2 hholds.1
    rw [if_neg (not_not.2 (hiff.2 hholds)), if_pos hholds, if_neg hlow, clamp_of_holds hholds]
    exact ⟨rfl, toInt_setWidth_of_holds (t := .int32) rfl rfl (by decide) hholds⟩
  · rw [if_pos (mt hiff.1 hholds), if_neg hholds, ushiftRight_63]
    refine ⟨rfl, ?_⟩
    by_cases hlow : x.toInt < -2 ^ 31
    · -- the shifted sign is 1, not -1
      rw [if_pos (by omega), if_pos hlow]
      rfl
    · have hhigh : IntType.int32.maxValue < x.toInt := not_le.1 fun h => hholds ⟨not_lt.1 hlow, h⟩
      have hpos : ¬ x.toInt < 0 := not_lt.2 (IntType.int32.maxValue_nonneg.trans hhigh.le)
      rw [if_neg hpos, if_neg hlow, clamp_of_gt hhigh]
      rfl

end

/-! ## Words with more lanes -/

section

variable {src dest : IntType} {V W n : ℕ} {exact value : ℤ → ℤ → ℤ}

/-- A helper that looks at each lane for itself. -/
theorem laneWise_word {f : NeonState → BitVec V → BitVec V → NeonState × BitVec W}
    (h : ∀ env a b,
      (f env a b).1 =
        env.setQcIf ((List.range n).map fun i => decide (¬ dest.Holds (exact (lane src a i) (lane src b i)))) ∧
      ∀ i < n, lane dest (f env a b).2 i = value (lane src a i) (lane src b i)) :
    LaneWise src dest n exact value NeonState.setQc (fun env a b => some (f env a b)) := by
  intro env a b
  obtain ⟨hstate, hlanes⟩ := h env a b
  refine ⟨(f env a b).2, congrArg some (Prod.ext ?_ rfl), hlanes⟩
  rw [hstate, NeonState.setQcIf_eq]
  simp

/-- A helper that looks at two lanes, the low one first. -/
theorem laneWise_two {f : NeonState → BitVec V → BitVec V → NeonState × BitVec W}
    (h : ∀ env a b,
      (f env a b).1 = (env.setQcIf [decide (¬ dest.Holds (exact (lane src a 0) (lane src b 0)))]).setQcIf
        [decide (¬ dest.Holds (exact (lane src a 1) (lane src b 1)))] ∧
      lane dest (f env a b).2 0 = value (lane src a 0) (lane src b 0) ∧
      lane dest (f env a b).2 1 = value (lane src a 1) (lane src b 1)) :
    LaneWise src dest 2 exact value NeonState.setQc (fun env a b => some (f env a b)) := by
  refine laneWise_word fun env a b => ?_
  obtain ⟨hstate, hlow, hhigh⟩ := h env a b
  refine ⟨hstate, fun i hi => ?_⟩
  obtain rfl | rfl : i = 0 ∨ i = 1 := by omega
  · exact hlow
  · exact hhigh

end

/-- The halves of a word, as lanes. -/
theorem lane_halves {t : IntType} (hw : t.width = 32) (hsigned : t.signed = true) (x : BitVec 64) :
    lane t x 0 = (x.setWidth 32).toInt ∧ lane t x 1 = ((x >>> 32).setWidth 32).toInt := by
  constructor
  · rw [lane_of_extract (v := x.setWidth 32) hw rfl, wrap_toNat_signed hw hsigned]
  · rw [lane_of_extract (v := (x >>> 32).setWidth 32) hw rfl, wrap_toNat_signed hw hsigned]

theorem addlSaturateS32_laneWise :
    LaneWise .int32 .int32 2 (· + ·) (fun x y => IntType.int32.clamp (x + y)) NeonState.setQc
      (fun env (a b : BitVec 64) => some (neonAddlSaturateS32 env a b)) := by
  have hhalf : ∀ env x y,
      (addlSaturate32 env x y).1 = env.setQcIf [decide (¬ IntType.int32.Holds (x.toInt + y.toInt))] ∧
        (addlSaturate32 env x y).2.toInt = IntType.int32.clamp (x.toInt + y.toInt) := by
    intro env x y
    have h := addSaturate_clamps (t := .int32) (w := 32) NeonState.setQc rfl rfl env x y
    rw [← signBit_eq] at h
    refine ⟨h.1.trans ?_, h.2⟩
    rw [NeonState.setQcIf_eq]
    simp
  refine laneWise_two fun env a b => ?_
  obtain ⟨ha0, ha1⟩ := lane_halves (t := .int32) rfl rfl a
  obtain ⟨hb0, hb1⟩ := lane_halves (t := .int32) rfl rfl b
  obtain ⟨hstate, hlow⟩ := hhalf env (a.setWidth 32) (b.setWidth 32)
  obtain ⟨hstate', hhigh⟩ := hhalf (addlSaturate32 env (a.setWidth 32) (b.setWidth 32)).1
    ((a >>> 32).setWidth 32) ((b >>> 32).setWidth 32)
  rw [ha0, ha1, hb0, hb1, ← hstate, ← hstate', ← hlow, ← hhigh]
  have hhalves := extract_halves (W := 64) (w := 32) (d := (addlSaturate32 env (a.setWidth 32) (b.setWidth 32)).2)
    (e := (addlSaturate32 (addlSaturate32 env (a.setWidth 32) (b.setWidth 32)).1 ((a >>> 32).setWidth 32)
      ((b >>> 32).setWidth 32)).2) (by decide)
  refine ⟨rfl, ?_, ?_⟩
  · exact (lane_of_extract (w := 32) rfl hhalves.1).trans (wrap_toNat_signed rfl rfl _)
  · exact (lane_of_extract (w := 32) rfl hhalves.2).trans (wrap_toNat_signed rfl rfl _)

/-! ## Narrowing more lanes -/

theorem narrowSat8_laneWise {src dest : IntType} (hsrc : src.width = 16) (hdest : dest.width = 8)
    {sat8 : BitVec 16 → BitVec 8 × Bool} (hsat : ∀ s, (sat8 s).2 = decide (¬ dest.Holds (src.wrap s.toNat)))
    (hvalue : ∀ s, dest.wrap (sat8 s).1.toNat = dest.clamp (src.wrap s.toNat)) :
    LaneWise src dest 4 (fun x _ => x) (fun x _ => dest.clamp x) NeonState.setQc
      (fun env (x : BitVec 64) (_ : BitVec 64) => some (narrowSat8 sat8 env x)) := by
  refine laneWise_word fun env x _ => ?_
  have hlane : ∀ i, lane src x i = src.wrap ((x >>> (16 * i)).setWidth 16 : BitVec 16).toNat :=
    fun i => lane_of_extract (w := 16) hsrc (extract_eq x (16 * i))
  simp only [hlane, ← hsat]
  refine ⟨rfl, fun i hi => ?_⟩
  have hres : (narrowSat8 sat8 env x).2 =
      (sat8 ((x >>> (16 * 0)).setWidth 16)).1.setWidth 32 |||
        (sat8 ((x >>> (16 * 1)).setWidth 16)).1.setWidth 32 <<< 8 |||
        (sat8 ((x >>> (16 * 2)).setWidth 16)).1.setWidth 32 <<< (2 * 8) |||
        (sat8 ((x >>> (16 * 3)).setWidth 16)).1.setWidth 32 <<< (3 * 8) := by
    change 0#32 ||| (sat8 ((x >>> 0).setWidth 16)).1.setWidth 32 <<< 0 ||| _ ||| _ ||| _ = _
    rw [BitVec.zero_or, BitVec.shiftLeft_zero]
  rw [← hvalue, hres]
  exact lane_of_extract hdest (extract_quarters (fun i => (sat8 ((x >>> (16 * i)).setWidth 16)).1) (by decide) hi)

theorem sat8U_clamps (s : BitVec 16) :
    (sat8U s).2 = decide (¬ IntType.uint8.Holds (IntType.uint16.wrap s.toNat)) ∧
      IntType.uint8.wrap (sat8U s).1.toNat = IntType.uint8.clamp (IntType.uint16.wrap s.toNat) := by
  rw [wrap_toNat_unsigned (t := .uint16) (w := 16) rfl rfl, wrap_toNat_unsigned (t := .uint8) (w := 8) rfl rfl]
  unfold sat8U
  by_cases hlarge : s > 0xff#16
  · have hgt : IntType.uint8.maxValue < (s.toNat : ℤ) := by
      have h : 0xff < s.toNat := lt_def.1 hlarge
      change 2 ^ 8 - 1 < (s.toNat : ℤ)
      omega
    have hover : ¬ IntType.uint8.Holds (s.toNat : ℤ) := fun h => absurd h.2 (not_le.2 hgt)
    rw [if_pos hlarge, clamp_of_gt hgt]
    exact ⟨(decide_eq_true hover).symm, rfl⟩
  · have hle : s.toNat ≤ 0xff := not_lt.1 fun h => hlarge (lt_def.2 h)
    have hholds : IntType.uint8.Holds (s.toNat : ℤ) := by
      refine ⟨Int.natCast_nonneg _, ?_⟩
      change (s.toNat : ℤ) ≤ 2 ^ 8 - 1
      omega
    rw [if_neg hlarge, clamp_of_holds hholds]
    refine ⟨(decide_eq_false (not_not.2 hholds)).symm, ?_⟩
    rw [toNat_setWidth, Nat.mod_eq_of_lt (by omega)]

/-- The sign of an `int16_t`, shifted down as an `int`. -/
theorem sshiftRight_15 (s : BitVec 16) :
    (s.signExtend 32).sshiftRight 15 = if s.toInt < 0 then BitVec.allOnes 32 else 0#32 := by
  have hlow := le_toInt s
  have hhigh := toInt_lt (x := s)
  apply eq_of_toInt_eq
  rw [toInt_sshiftRight, toInt_signExtend_of_le (by decide), Int.shiftRight_eq_div_pow]
  split_ifs with hneg
  · exact Int.ediv_eq_neg_one_of_neg_of_le hneg (by push_cast; omega)
  · exact Int.ediv_eq_zero_of_lt (not_lt.1 hneg) (by push_cast; omega)

theorem sat8S_clamps (s : BitVec 16) :
    (sat8S s).2 = decide (¬ IntType.int8.Holds (IntType.int16.wrap s.toNat)) ∧
      IntType.int8.wrap (sat8S s).1.toNat = IntType.int8.clamp (IntType.int16.wrap s.toNat) := by
  rw [wrap_toNat_signed (t := .int16) (w := 16) rfl rfl, wrap_toNat_signed (t := .int8) (w := 8) rfl rfl]
  unfold sat8S
  have hiff := eq_signExtend_iff (t := .int8) (w := 8) rfl rfl (by decide : 8 ≤ 16) s
  by_cases hholds : IntType.int8.Holds s.toInt
  · rw [if_neg (not_not.2 (hiff.2 hholds)), clamp_of_holds hholds]
    exact ⟨(decide_eq_false (not_not.2 hholds)).symm, toInt_setWidth_of_holds (t := .int8) rfl rfl (by decide) hholds⟩
  · rw [if_pos (mt hiff.1 hholds), sshiftRight_15]
    refine ⟨(decide_eq_true hholds).symm, ?_⟩
    split_ifs with hneg
    · have hlow : s.toInt < IntType.int8.minValue := not_le.1 fun h => hholds ⟨h, hneg.le.trans (by decide)⟩
      rw [clamp_of_lt hlow]
      rfl
    · have hhigh : IntType.int8.maxValue < s.toInt :=
        not_le.1 fun h => hholds ⟨le_trans (by decide) (not_lt.1 hneg), h⟩
      rw [clamp_of_gt hhigh]
      rfl

theorem sat16U_clamps (v : Word) :
    (sat16U v).2 = decide (¬ IntType.uint16.Holds (v.toNat : ℤ)) ∧
      ∃ d : BitVec 16, (sat16U v).1 = d.setWidth 32 ∧ (d.toNat : ℤ) = IntType.uint16.clamp v.toNat := by
  unfold sat16U
  by_cases hlarge : v > 0xffff#32
  · have hgt : IntType.uint16.maxValue < (v.toNat : ℤ) := by
      have h : 0xffff < v.toNat := lt_def.1 hlarge
      change 2 ^ 16 - 1 < (v.toNat : ℤ)
      omega
    have hover : ¬ IntType.uint16.Holds (v.toNat : ℤ) := fun h => absurd h.2 (not_le.2 hgt)
    rw [if_pos hlarge, clamp_of_gt hgt]
    exact ⟨(decide_eq_true hover).symm, 0xffff#16, rfl, rfl⟩
  · have hle : v.toNat ≤ 0xffff := not_lt.1 fun h => hlarge (lt_def.2 h)
    have hholds : IntType.uint16.Holds (v.toNat : ℤ) := by
      refine ⟨Int.natCast_nonneg _, ?_⟩
      change (v.toNat : ℤ) ≤ 2 ^ 16 - 1
      omega
    rw [if_neg hlarge, clamp_of_holds hholds]
    refine ⟨(decide_eq_false (not_not.2 hholds)).symm, v.setWidth 16, ?_, ?_⟩
    · apply eq_of_toNat_eq
      rw [toNat_setWidth, toNat_setWidth]
      change v.toNat = v.toNat % 2 ^ 16 % 2 ^ 32
      omega
    · rw [toNat_setWidth, Nat.mod_eq_of_lt (by omega)]

theorem sat16S_clamps (v : Word) :
    (sat16S v).2 = decide (¬ IntType.int16.Holds v.toInt) ∧
      ((sat16S v).1.setWidth 16).toInt = IntType.int16.clamp v.toInt := by
  unfold sat16S
  have hiff := eq_signExtend_iff (t := .int16) (w := 16) rfl rfl (by decide : 16 ≤ 32) v
  by_cases hholds : IntType.int16.Holds v.toInt
  · rw [if_neg (not_not.2 (hiff.2 hholds)), clamp_of_holds hholds]
    exact ⟨(decide_eq_false (not_not.2 hholds)).symm, toInt_setWidth_of_holds (t := .int16) rfl rfl (by decide) hholds⟩
  · rw [if_pos (mt hiff.1 hholds), sshiftRight_sign v (by decide)]
    refine ⟨(decide_eq_true hholds).symm, ?_⟩
    split_ifs with hneg
    · have hlow : v.toInt < IntType.int16.minValue := not_le.1 fun h => hholds ⟨h, hneg.le.trans (by decide)⟩
      rw [clamp_of_lt hlow]
      rfl
    · have hhigh : IntType.int16.maxValue < v.toInt :=
        not_le.1 fun h => hholds ⟨le_trans (by decide) (not_lt.1 hneg), h⟩
      rw [clamp_of_gt hhigh]
      rfl

theorem narrowSatU16_laneWise :
    LaneWise .uint32 .uint16 2 (fun x _ => x) (fun x _ => IntType.uint16.clamp x) NeonState.setQc
      (fun env (x : BitVec 64) (_ : BitVec 64) => some (neonNarrowSatU16 env x)) := by
  refine laneWise_two fun env x _ => ?_
  have h0 : lane .uint32 x 0 = (x.setWidth 32 : Word).toNat :=
    (lane_of_extract (w := 32) rfl rfl).trans (wrap_toNat_unsigned rfl rfl _)
  have h1 : lane .uint32 x 1 = ((x >>> 32).setWidth 32 : Word).toNat :=
    (lane_of_extract (w := 32) rfl rfl).trans (wrap_toNat_unsigned rfl rfl _)
  obtain ⟨hsat, d, hd, hlow⟩ := sat16U_clamps (x.setWidth 32)
  obtain ⟨hsat', e, he, hhigh⟩ := sat16U_clamps ((x >>> 32).setWidth 32)
  rw [h0, h1, ← hsat, ← hsat', ← hlow, ← hhigh]
  have hres : (neonNarrowSatU16 env x).2 = d.setWidth 32 ||| e.setWidth 32 <<< 16 := by
    rw [← hd, ← he]
    rfl
  have hhalves := extract_halves (W := 32) (w := 16) (d := d) (e := e) (by decide)
  rw [hres]
  refine ⟨rfl, ?_, ?_⟩
  · exact (lane_of_extract (w := 16) rfl hhalves.1).trans (wrap_toNat_unsigned rfl rfl _)
  · exact (lane_of_extract (w := 16) rfl hhalves.2).trans (wrap_toNat_unsigned rfl rfl _)

theorem narrowSatS16_laneWise :
    LaneWise .int32 .int16 2 (fun x _ => x) (fun x _ => IntType.int16.clamp x) NeonState.setQc
      (fun env (x : BitVec 64) (_ : BitVec 64) => some (neonNarrowSatS16 env x)) := by
  refine laneWise_two fun env x _ => ?_
  obtain ⟨h0, h1⟩ := lane_halves (t := .int32) rfl rfl x
  obtain ⟨hsat, hlow⟩ := sat16S_clamps (x.setWidth 32)
  obtain ⟨hsat', hhigh⟩ := sat16S_clamps ((x >>> 32).setWidth 32)
  have hdrop : ∀ v : Word, v <<< 16 = (v.setWidth 16).setWidth 32 <<< 16 := by
    intro v
    ext j hj
    by_cases hlow : j < 16
    · simp [hlow]
    · simp [hlow, show j - 16 < 16 by omega, getLsbD_eq_getElem (show j - 16 < 32 by omega)]
  have hres : (neonNarrowSatS16 env x).2 = ((sat16S (x.setWidth 32)).1.setWidth 16).setWidth 32 |||
      ((sat16S ((x >>> 32).setWidth 32)).1.setWidth 16).setWidth 32 <<< 16 := by
    rw [← hdrop]
    rfl
  rw [h0, h1, ← hsat, ← hsat', ← hlow, ← hhigh, hres]
  have hhalves := extract_halves (W := 32) (w := 16) (d := (sat16S (x.setWidth 32)).1.setWidth 16)
    (e := (sat16S ((x >>> 32).setWidth 32)).1.setWidth 16) (by decide)
  refine ⟨rfl, ?_, ?_⟩
  · exact (lane_of_extract (w := 16) rfl hhalves.1).trans (wrap_toNat_signed rfl rfl _)
  · exact (lane_of_extract (w := 16) rfl hhalves.2).trans (wrap_toNat_signed rfl rfl _)

/-! ## Signs of one lane -/

theorem qabsS32_laneWise :
    LaneWise .int32 .int32 1 (fun x _ => |x|) (fun x _ => IntType.int32.clamp |x|) NeonState.setQc
      (fun env (x : Word) (_ : Word) => some (neonQabsS32 env x)) := by
  refine laneWise_one fun env x _ => ?_
  rw [lane_int32, lane_int32]
  unfold neonQabsS32
  have hlow := le_toInt x
  have hhigh := toInt_lt (x := x)
  by_cases hleast : x = signBit
  · subst hleast
    rw [if_pos rfl]
    exact ⟨rfl, rfl⟩
  · have hne : x.toInt ≠ -2 ^ 31 := fun h => hleast (eq_of_toInt_eq h)
    have hholds : IntType.int32.Holds |x.toInt| := by
      refine (holds_signed_iff (w := 32) rfl rfl _).2 ⟨by have := abs_nonneg x.toInt; omega, abs_lt.2 ⟨by omega, hhigh⟩⟩
    rw [if_neg hleast, if_pos hholds, clamp_of_holds hholds]
    split_ifs with hneg
    · refine ⟨rfl, ?_⟩
      rw [toInt_neg_of_ne_intMin (signBit_eq ▸ hleast), abs_of_neg hneg]
    · exact ⟨rfl, (abs_of_nonneg (not_lt.1 hneg)).symm⟩

theorem qnegS32_laneWise :
    LaneWise .int32 .int32 1 (fun x _ => -x) (fun x _ => IntType.int32.clamp (-x)) NeonState.setQc
      (fun env (x : Word) (_ : Word) => some (neonQnegS32 env x)) := by
  refine laneWise_one fun env x _ => ?_
  rw [lane_int32, lane_int32]
  unfold neonQnegS32
  have hlow := le_toInt x
  have hhigh := toInt_lt (x := x)
  by_cases hleast : x = signBit
  · subst hleast
    rw [if_pos rfl]
    exact ⟨rfl, rfl⟩
  · have hne : x.toInt ≠ -2 ^ 31 := fun h => hleast (eq_of_toInt_eq h)
    have hholds : IntType.int32.Holds (-x.toInt) := (holds_signed_iff (w := 32) rfl rfl _).2 ⟨by omega, by omega⟩
    rw [if_neg hleast, if_pos hholds, clamp_of_holds hholds]
    exact ⟨rfl, toInt_neg_of_ne_intMin (signBit_eq ▸ hleast)⟩

/-! ## All helpers -/

namespace SatHelper

/-- A lane that no helper gets wrong. -/
theorem value_eq {helper : SatHelper} (hd : helper ≠ qdmulhS16) (hr : helper ≠ qrdmulhS16)
    (hn : helper ≠ narrowSatS32) :
    helper.value = fun x y => helper.dest.clamp (helper.exact x y) := by
  funext x y
  rw [value, if_neg]
  rintro (⟨h | h, -⟩ | ⟨h, -⟩)
  · exact hd h
  · exact hr h
  · exact hn h

end SatHelper

theorem usatAdd_laneWise {t : NeonType} (hsigned : t.int.signed = false) (hsmall : t.int.width < 32) :
    LaneWise t.int t.int t.lanes (fun x y => x + y) (fun x y => t.int.clamp (x + y)) NeonState.setQc
      (neonVopEnv t (neonUsatAdd t)) :=
  laneWise_vopEnv fun _ _ hx hy => usatAdd_clamps hsigned hsmall hx hy

theorem usatSub_laneWise {t : NeonType} (hsigned : t.int.signed = false) (hsmall : t.int.width < 32) :
    LaneWise t.int t.int t.lanes (fun x y => x - y) (fun x y => t.int.clamp (x - y)) NeonState.setQc
      (neonVopEnv t (neonUsatSub t)) :=
  laneWise_vopEnv fun _ _ hx hy => usatSub_clamps hsigned hsmall hx hy

theorem ssatAdd_laneWise {t : NeonType} (hsigned : t.int.signed = true) (hsmall : t.int.width < 32) :
    LaneWise t.int t.int t.lanes (fun x y => x + y) (fun x y => t.int.clamp (x + y)) NeonState.setQc
      (neonVopEnv t (neonSsatAdd t)) :=
  laneWise_vopEnv fun _ _ hx hy => ssatAdd_clamps hsigned hsmall hx hy

theorem ssatSub_laneWise {t : NeonType} (hsigned : t.int.signed = true) (hsmall : t.int.width < 32) :
    LaneWise t.int t.int t.lanes (fun x y => x - y) (fun x y => t.int.clamp (x - y)) NeonState.setQc
      (neonVopEnv t (neonSsatSub t)) :=
  laneWise_vopEnv fun _ _ hx hy => ssatSub_clamps hsigned hsmall hx hy

/-- The macros with one operand. -/
theorem laneWise_vop1Env {t : NeonType} {fn : ℤ → Option (ℤ × Bool)} {exact : ℤ → ℤ}
    (h : ∀ x, t.int.Holds x →
      ∃ v, fn x = some (v, decide (¬ t.int.Holds (exact x))) ∧ t.int.wrap v = t.int.clamp (exact x)) :
    LaneWise t.int t.int t.lanes (fun x _ => exact x) (fun x _ => t.int.clamp (exact x)) NeonState.setQc
      (fun env x (_ : BitVec t.word) => neonVopEnv t (fun x _ => fn x) env x x) :=
  fun env a _ => laneWise_vopEnv (fun x _ hx _ => h x hx) env a a

theorem qdmulh16_laneWise (round : Bool) :
    LaneWise .int16 .int16 2 (fun x y => (2 * x * y + half round 16) / 2 ^ 16)
      (fun x y => if x = -2 ^ 15 ∧ y = -2 ^ 15 then if round then 0 else -1
        else IntType.int16.clamp ((2 * x * y + half round 16) / 2 ^ 16))
      NeonState.setQc (neonVopEnv .s16 (neonQdmulh16 round)) :=
  laneWise_vopEnv (t := .s16) fun _ _ hx hy => qdmulh16_stores round hx hy

theorem qdmulh32_laneWise (round : Bool) :
    LaneWise .int32 .int32 1 (fun x y => (2 * x * y + half round 32) / 2 ^ 32)
      (fun x y => IntType.int32.clamp ((2 * x * y + half round 32) / 2 ^ 32))
      NeonState.setQc (neonVopEnv .s32 (neonQdmulh32 round)) :=
  laneWise_vopEnv (t := .s32) fun _ _ hx hy => qdmulh32_stores round hx hy

namespace SatHelper

theorem value_qdmulhS16 :
    qdmulhS16.value = fun x y => if x = -2 ^ 15 ∧
      y = -2 ^ 15 then -1 else IntType.int16.clamp (2 * x * y / 2 ^ 16) := by
  funext x y
  simp only [value, Corner, cornerValue, true_and, reduceCtorEq, false_and, or_false]
  rfl

theorem value_qrdmulhS16 :
    qrdmulhS16.value =
      fun x y => if x = -2 ^ 15 ∧ y = -2 ^ 15 then 0 else IntType.int16.clamp ((2 * x * y + 2 ^ 15) / 2 ^ 16) := by
  funext x y
  simp only [value, Corner, cornerValue, or_true, true_and, reduceCtorEq, false_and, or_false]
  rfl

theorem value_narrowSatS32 :
    narrowSatS32.value = fun x _ => if x < -2 ^ 31 then 0x7ffffffe else IntType.int32.clamp x := by
  funext x y
  simp only [value, Corner, cornerValue, reduceCtorEq, or_self, false_and, true_and, false_or]
  rfl

/-- The helpers that clamp every lane. -/
theorem computes_clamped {helper : SatHelper} (hd : helper ≠ qdmulhS16) (hr : helper ≠ qrdmulhS16)
    (hn : helper ≠ narrowSatS32) :
    LaneWise helper.src helper.dest helper.lanes helper.exact (fun x y => helper.dest.clamp (helper.exact x y))
      helper.setFlag helper.run := by
  cases helper with
  | qdmulhS16 => exact absurd rfl hd
  | qrdmulhS16 => exact absurd rfl hr
  | narrowSatS32 => exact absurd rfl hn
  | qaddU8 => exact usatAdd_laneWise (t := .u8) rfl (by decide)
  | qaddU16 => exact usatAdd_laneWise (t := .u16) rfl (by decide)
  | qaddS8 => exact ssatAdd_laneWise (t := .s8) rfl (by decide)
  | qaddS16 => exact ssatAdd_laneWise (t := .s16) rfl (by decide)
  | qsubU8 => exact usatSub_laneWise (t := .u8) rfl (by decide)
  | qsubU16 => exact usatSub_laneWise (t := .u16) rfl (by decide)
  | qsubS8 => exact ssatSub_laneWise (t := .s8) rfl (by decide)
  | qsubS16 => exact ssatSub_laneWise (t := .s16) rfl (by decide)
  | addSaturateU64 => exact addSaturateU64_laneWise
  | addSaturateS64 => exact addSaturateS64_laneWise
  | subSaturateU64 => exact subSaturateU64_laneWise
  | subSaturateS64 => exact subSaturateS64_laneWise
  | addlSaturateS32 => exact addlSaturateS32_laneWise
  | addlSaturateS64 => exact addlSaturateS64_laneWise
  | qdmulhS32 =>
    have h := qdmulh32_laneWise false
    simp only [half, Bool.false_eq_true, if_false, add_zero] at h
    exact h
  | qrdmulhS32 => exact qdmulh32_laneWise true
  | narrowSatU8 => exact narrowSat8_laneWise rfl rfl (fun s => (sat8U_clamps s).1) (fun s => (sat8U_clamps s).2)
  | narrowSatS8 => exact narrowSat8_laneWise rfl rfl (fun s => (sat8S_clamps s).1) (fun s => (sat8S_clamps s).2)
  | narrowSatU16 => exact narrowSatU16_laneWise
  | narrowSatS16 => exact narrowSatS16_laneWise
  | narrowSatU32 => exact narrowSatU32_laneWise
  | qabsS8 => exact laneWise_vop1Env (t := .s8) fun _ hx => doQabs_clamps (by decide) (by decide) rfl hx
  | qabsS16 => exact laneWise_vop1Env (t := .s16) fun _ hx => doQabs_clamps (by decide) (by decide) rfl hx
  | qabsS32 => exact qabsS32_laneWise
  | qnegS8 => exact laneWise_vop1Env (t := .s8) fun _ hx => doQneg_clamps (by decide) (by decide) rfl hx
  | qnegS16 => exact laneWise_vop1Env (t := .s16) fun _ hx => doQneg_clamps (by decide) (by decide) rfl hx
  | qnegS32 => exact qnegS32_laneWise

/-- **What a helper computes**: it sets its flag exactly if a lane is clamped. -/
theorem computes (helper : SatHelper) :
    LaneWise helper.src helper.dest helper.lanes helper.exact helper.value helper.setFlag helper.run := by
  by_cases hd : helper = qdmulhS16
  · subst hd
    rw [value_qdmulhS16]
    have h := qdmulh16_laneWise false
    simp only [half, Bool.false_eq_true, if_false, add_zero] at h
    exact h
  by_cases hr : helper = qrdmulhS16
  · subst hr
    rw [value_qrdmulhS16]
    exact qdmulh16_laneWise true
  by_cases hn : helper = narrowSatS32
  · subst hn
    rw [value_narrowSatS32]
    exact narrowSatS32_laneWise
  rw [value_eq hd hr hn]
  exact computes_clamped hd hr hn

/-- What is stored in a corner is not the clamped value. -/
theorem cornerValue_ne {helper : SatHelper} {x y : ℤ} (h : helper.Corner x y) :
    helper.cornerValue ≠ helper.dest.clamp (helper.exact x y) := by
  obtain ⟨rfl | rfl, rfl, rfl⟩ | ⟨rfl, hlow⟩ := h
  · decide
  · decide
  · change (0x7ffffffe : ℤ) ≠ IntType.int32.clamp x
    rw [clamp_of_lt hlow]
    decide

/-- **Which results are clamped exactly**: those without a corner. -/
theorem clamps_iff (helper : SatHelper) (env : NeonState) (arg1 arg2 : BitVec helper.srcWord) :
    (∃ env' res, helper.run env arg1 arg2 = some (env', res) ∧ ∀ i < helper.lanes,
        lane helper.dest res i =
          helper.dest.clamp (helper.exact (lane helper.src arg1 i) (lane helper.src arg2 i))) ↔
      ∀ i < helper.lanes, ¬ helper.Corner (lane helper.src arg1 i) (lane helper.src arg2 i) := by
  obtain ⟨res, hrun, hlanes⟩ := helper.computes env arg1 arg2
  rw [hrun]
  constructor
  · rintro ⟨env', res', hres, hclamp⟩ i hi hcorner
    obtain rfl := (Prod.mk.inj (Option.some.inj hres)).2
    have hvalue := (hlanes i hi).symm.trans (hclamp i hi)
    rw [value, if_pos hcorner] at hvalue
    exact cornerValue_ne hcorner hvalue
  · intro h
    refine ⟨_, res, rfl, fun i hi => ?_⟩
    rw [hlanes i hi, value, if_neg (h i hi)]

/-- A doubled product of the two least lanes, and a number below the range. -/
theorem clamps_corners :
    (∀ env, neonQdmulhS16 env 0x8000#32 0x8000#32 = some (env.setQc, 0xffff#32)) ∧
      (∀ env, neonQrdmulhS16 env 0x8000#32 0x8000#32 = some (env.setQc, 0#32)) ∧
      (∀ env, neonNarrowSatS32 env 0x8000000000000000#64 = (env.setQc, 0x7ffffffe#32)) ∧
      ¬ ∀ helper : SatHelper, ∀ env (arg1 arg2 : BitVec helper.srcWord),
        ∃ env' res, helper.run env arg1 arg2 = some (env', res) ∧ ∀ i < helper.lanes,
          lane helper.dest res i =
            helper.dest.clamp (helper.exact (lane helper.src arg1 i) (lane helper.src arg2 i)) := by
  refine ⟨fun _ => rfl, fun _ => rfl, fun _ => rfl, fun h => ?_⟩
  obtain ⟨env', res, hrun, hlanes⟩ := h narrowSatS32 default 0x8000000000000000#64 0#64
  have hres : some (NeonState.setQc default, 0x7ffffffe#32) = some (env', res) := hrun
  obtain rfl := (Prod.mk.inj (Option.some.inj hres)).2
  exact absurd (hlanes 0 (by decide)) (by decide)

end SatHelper

end Emulator.Arm
