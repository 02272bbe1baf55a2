import Mathlib.Tactic.SplitIfs
import Emulator.Arm.FlagHelpers

/-!
# Shifts by a register (`shl`, `shr`, `sar` and `ror` of `target-arm/op_helper.c`)

Every shift is written twice, for instructions that set the flags and for those that do not. Only
the low byte of the shift operand counts, and a C shift by 32 or more is an error (`none`).

* `registerShift_iff`: the two forms agree with the architecture, except that `ror` does not reduce
  its amount to five bits, as `ror_cc` does.
-/

namespace Emulator.Arm

open BitVec

/-- A shift of C on 32 bits. -/
def cShift (op : Word → ℕ → Word) (x : Word) (shift : ℤ) : Option Word :=
  if 0 ≤ shift ∧ shift < 32 then some (op x shift.toNat) else none

def shl (x i : Word) : Option Word :=
  let shift : ℤ := (i &&& 0xff#32).toNat
  if shift ≥ 32 then some 0 else cShift (· <<< ·) x shift

def shr (x i : Word) : Option Word :=
  let shift : ℤ := (i &&& 0xff#32).toNat
  if shift ≥ 32 then some 0 else cShift (· >>> ·) x shift

def sar (x i : Word) : Option Word :=
  let shift : ℤ := (i &&& 0xff#32).toNat
  let shift := if shift ≥ 32 then 31 else shift
  cShift BitVec.sshiftRight x shift

def ror (x i : Word) : Option Word := do
  let shift : ℤ := (i &&& 0xff#32).toNat
  if shift = 0 then return x
  return (← cShift (· >>> ·) x shift) ||| (← cShift (· <<< ·) x (32 - shift))

/-- The helper that leaves the flags. -/
def plainShift : Shift → Word → Word → Option Word
  | .lsl => shl
  | .lsr => shr
  | .asr => sar
  | .ror => ror

/-- The helper that sets the carry. -/
def ccShift : Shift → CPUARMState → Word → Word → CPUARMState × Word
  | .lsl => CPUARMState.shlCc
  | .lsr => CPUARMState.shrCc
  | .asr => CPUARMState.sarCc
  | .ror => CPUARMState.rorCc

/-- The two forms of a shift are the architecture's: the plain one is no error, and the other one sets `CF` to the
last bit that is shifted out, unless the amount is 0. -/
structure RegisterShift (kind : Shift) (x i : Word) : Prop where
  plain : ∀ carry, plainShift kind x i = some (shiftC kind x (i.toNat % 256) carry).1
  cc : ∀ env, (ccShift kind env x i).2 = (shiftC kind x (i.toNat % 256) (env.cf.getLsbD 0)).1
  cf : ∀ env, (ccShift kind env x i).1 =
    if i.toNat % 256 = 0 then env
    else { env with cf := if (shiftC kind x (i.toNat % 256) (env.cf.getLsbD 0)).2 then 1 else 0 }

variable {x i : Word}

theorem cShift_of_lt (op : Word → ℕ → Word) (x : Word) {shift : ℕ} (h : shift < 32) :
    cShift op x shift = some (op x shift) := by
  rw [cShift, if_pos (by omega)]
  rfl

theorem ccShift_eq (kind : Shift) (env : CPUARMState) (x i : Word) :
    ccShift kind env x i = env.shifted kind x (i.toNat % 256) := by
  cases kind with
  | lsl => exact CPUARMState.shlCc_eq env x i
  | lsr => exact CPUARMState.shrCc_eq env x i
  | asr => exact CPUARMState.sarCc_eq env x i
  | ror => exact CPUARMState.rorCc_eq env x i

theorem shl_eq (x i : Word) : shl x i = some (x <<< (i.toNat % 256)) := by
  unfold shl
  rw [CPUARMState.amount_toNat]
  dsimp only
  split_ifs with hlong
  · rw [shiftLeft_eq_zero (by omega)]
    rfl
  · exact cShift_of_lt _ x (by omega)

theorem shr_eq (x i : Word) : shr x i = some (x >>> (i.toNat % 256)) := by
  unfold shr
  rw [CPUARMState.amount_toNat]
  dsimp only
  split_ifs with hlong
  · rw [ushiftRight_eq_zero (by omega)]
    rfl
  · exact cShift_of_lt _ x (by omega)

theorem sar_eq (x i : Word) : sar x i = some (x.sshiftRight (i.toNat % 256)) := by
  unfold sar
  rw [CPUARMState.amount_toNat]
  dsimp only
  split_ifs with hlong
  · rw [← CPUARMState.sshiftRight_long x (by omega)]
    rfl
  · exact cShift_of_lt _ x (by omega)

theorem rotateRight_zero (x : Word) : x.rotateRight 0 = x := by
  apply eq_of_getLsbD_eq
  intro j hj
  rw [getLsbD_rotateRight]
  simp [-getLsbD_eq_getElem, hj]

theorem ror_eq (h : i.toNat % 256 < 32) : ror x i = some (x.rotateRight (i.toNat % 256)) := by
  unfold ror
  rw [CPUARMState.amount_toNat]
  dsimp only
  by_cases hzero : i.toNat % 256 = 0
  · rw [hzero, rotateRight_zero]
    rfl
  · have hsub : (32 : ℤ) - (i.toNat % 256 : ℕ) = (32 - i.toNat % 256 : ℕ) := by omega
    rw [if_neg (by omega), cShift_of_lt _ x h, hsub, cShift_of_lt _ x (by omega), rotateRight_def,
      Nat.mod_eq_of_lt h]
    rfl

/-- `ror` by 32 or more shifts by 32 or more. -/
theorem ror_error (h : ¬ i.toNat % 256 < 32) : ror x i = none := by
  unfold ror
  rw [CPUARMState.amount_toNat]
  dsimp only
  rw [if_neg (by omega), cShift, if_neg (by omega)]
  rfl

theorem shiftC_fst (kind : Shift) (x : Word) (amount : ℕ) (carry : Bool) :
    (shiftC kind x amount carry).1 =
      match kind with
      | .lsl => x <<< amount
      | .lsr => x >>> amount
      | .asr => x.sshiftRight amount
      | .ror => x.rotateRight amount := by
  unfold shiftC
  split_ifs with hzero
  · subst hzero
    cases kind <;> simp [rotateRight_zero]
  · cases kind <;> rfl

/-- **Which shifts by a register are right.** -/
theorem registerShift_iff (kind : Shift) (x i : Word) :
    RegisterShift kind x i ↔ (kind = .ror → i.toNat % 256 < 32) := by
  have hplain : (∀ carry, plainShift kind x i = some (shiftC kind x (i.toNat % 256) carry).1) ↔
      (kind = .ror → i.toNat % 256 < 32) := by
    simp only [shiftC_fst]
    cases kind with
    | lsl => exact iff_of_true (fun _ => shl_eq x i) (by simp)
    | lsr => exact iff_of_true (fun _ => shr_eq x i) (by simp)
    | asr => exact iff_of_true (fun _ => sar_eq x i) (by simp)
    | ror =>
      by_cases hshort : i.toNat % 256 < 32
      · exact iff_of_true (fun _ => ror_eq hshort) (fun _ => hshort)
      · refine iff_of_false (fun h => ?_) (fun h => hshort (h rfl))
        exact absurd ((ror_error hshort).symm.trans (h false)) (by simp)
  rw [← hplain]
  refine ⟨fun h => h.plain, fun h => ⟨h, fun env => ?_, fun env => ?_⟩⟩
  · rw [ccShift_eq]
    rfl
  · rw [ccShift_eq]
    rfl

/-- A rotation by 32. -/
theorem ror_by_32 : ror 1 32 = none ∧ (shiftC .ror 1 32 false).1 = 1 ∧ ¬ RegisterShift .ror 1 32 := by
  refine ⟨rfl, by decide, fun h => ?_⟩
  exact absurd (h.plain false) (by decide)

end Emulator.Arm
