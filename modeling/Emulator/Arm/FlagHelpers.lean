import Emulator.Arm.Cpsr

/-!
# The helpers that set flags (`target-arm/op_helper.c`)

`addCc` to `rorCc` write the fields of the flags. The architecture has one addition with carry and
one shift with carry for all of them, on the whole register.

* `FlagHelper.run_arch`: the result and the register of every helper are the architecture's.
* `setQ` and `setGe` are the stores of the saturating helpers and of the media helpers.
-/

namespace Emulator.Arm

open BitVec hiding not_not xor_assoc xor_zero

namespace CPUARMState

def addCc (env : CPUARMState) (a b : Word) : CPUARMState × Word :=
  let result := a + b
  ({ env with
      nf := result, zf := result, cf := if result < a then 1 else 0
      vf := (a ^^^ b ^^^ 0xffffffff#32) &&& (a ^^^ result) }, result)

def adcCc (env : CPUARMState) (a b : Word) : CPUARMState × Word :=
  let result := if env.cf = 0 then a + b else a + b + 1
  ({ env with
      nf := result, zf := result
      cf := if env.cf = 0 then (if result < a then 1 else 0) else (if result ≤ a then 1 else 0)
      vf := (a ^^^ b ^^^ 0xffffffff#32) &&& (a ^^^ result) }, result)

def subCc (env : CPUARMState) (a b : Word) : CPUARMState × Word :=
  let result := a - b
  ({ env with
      nf := result, zf := result, cf := if b ≤ a then 1 else 0
      vf := (a ^^^ b) &&& (a ^^^ result) }, result)

def sbcCc (env : CPUARMState) (a b : Word) : CPUARMState × Word :=
  let result := if env.cf = 0 then a - b - 1 else a - b
  ({ env with
      nf := result, zf := result
      cf := if env.cf = 0 then (if b < a then 1 else 0) else (if b ≤ a then 1 else 0)
      vf := (a ^^^ b) &&& (a ^^^ result) }, result)

def shlCc (env : CPUARMState) (x i : Word) : CPUARMState × Word :=
  let shift := (i &&& 0xff#32).toNat
  if 32 ≤ shift then ({ env with cf := if shift = 32 then x &&& 1#32 else 0 }, 0)
  else if shift ≠ 0 then ({ env with cf := (x >>> (32 - shift)) &&& 1#32 }, x <<< shift)
  else (env, x)

def shrCc (env : CPUARMState) (x i : Word) : CPUARMState × Word :=
  let shift := (i &&& 0xff#32).toNat
  if 32 ≤ shift then ({ env with cf := if shift = 32 then (x >>> 31) &&& 1#32 else 0 }, 0)
  else if shift ≠ 0 then ({ env with cf := (x >>> (shift - 1)) &&& 1#32 }, x >>> shift)
  else (env, x)

def sarCc (env : CPUARMState) (x i : Word) : CPUARMState × Word :=
  let shift := (i &&& 0xff#32).toNat
  if 32 ≤ shift then ({ env with cf := (x >>> 31) &&& 1#32 }, x.sshiftRight 31)
  else if shift ≠ 0 then ({ env with cf := (x >>> (shift - 1)) &&& 1#32 }, x.sshiftRight shift)
  else (env, x)

def rorCc (env : CPUARMState) (x i : Word) : CPUARMState × Word :=
  let shift1 := (i &&& 0xff#32).toNat
  let shift := shift1 % 32
  if shift = 0 then (if shift1 ≠ 0 then { env with cf := (x >>> 31) &&& 1#32 } else env, x)
  else ({ env with cf := (x >>> (shift - 1)) &&& 1#32 }, (x >>> shift) ||| (x <<< (32 - shift)))

/-- `env->QF = 1` of the saturating helpers. -/
def setQ (env : CPUARMState) : CPUARMState := { env with qf := 1 }

/-- `SET_GE`: the media helpers collect four bits. -/
def setGe (env : CPUARMState) (ge : BitVec 4) : CPUARMState := { env with ge := ge.setWidth 32 }

end CPUARMState

structure Nzcv where
  n : Bool
  z : Bool
  c : Bool
  v : Bool

/-- The flags of a status register. -/
def nzcvOf (cpsr : Word) : Nzcv :=
  ⟨cpsr.getLsbD 31, cpsr.getLsbD 30, cpsr.getLsbD 29, cpsr.getLsbD 28⟩

/-- A bit of the register at the place `i`. -/
def bitAt (b : Bool) (i : ℕ) : Word := if b then BitVec.twoPow 32 i else 0

/-- The register with other flags. -/
def setNzcv (cpsr : Word) (flags : Nzcv) : Word :=
  (cpsr &&& ~~~ cpsrNzcv) |||
    (bitAt flags.n 31 ||| bitAt flags.z 30 ||| bitAt flags.c 29 ||| bitAt flags.v 28)

/-- The addition with carry: the carry and the overflow are where the result is not the sum. -/
def addWithCarry (x y : Word) (carry : Bool) : Word × Nzcv :=
  let unsignedSum := x.toNat + y.toNat + carry.toNat
  let signedSum := x.toInt + y.toInt + carry.toNat
  let result := BitVec.ofNat 32 unsignedSum
  (result, ⟨result.getLsbD 31, result = 0, result.toNat ≠ unsignedSum, result.toInt ≠ signedSum⟩)

inductive Shift
  | lsl
  | lsr
  | asr
  | ror
deriving DecidableEq

/-- The shift with carry: the carry is the last bit that is shifted out. -/
def shiftC (kind : Shift) (x : Word) (amount : ℕ) (carry : Bool) : Word × Bool :=
  if amount = 0 then (x, carry)
  else
    match kind with
    | .lsl => (x <<< amount, ((x.setWidth 33) <<< amount).getLsbD 32)
    | .lsr => (x >>> amount, x.getLsbD (amount - 1))
    | .asr => (x.sshiftRight amount, (x.signExtend (32 + amount)).getLsbD (amount - 1))
    | .ror => (x.rotateRight amount, (x.rotateRight amount).getLsbD 31)

/-- A call of a helper. -/
inductive FlagHelper
  | addCc (a b : Word)
  | adcCc (a b : Word)
  | subCc (a b : Word)
  | sbcCc (a b : Word)
  | shlCc (x i : Word)
  | shrCc (x i : Word)
  | sarCc (x i : Word)
  | rorCc (x i : Word)

/-- What the call does. -/
def FlagHelper.run (env : CPUARMState) : FlagHelper → CPUARMState × Word
  | .addCc a b => env.addCc a b
  | .adcCc a b => env.adcCc a b
  | .subCc a b => env.subCc a b
  | .sbcCc a b => env.sbcCc a b
  | .shlCc x i => env.shlCc x i
  | .shrCc x i => env.shrCc x i
  | .sarCc x i => env.sarCc x i
  | .rorCc x i => env.rorCc x i

/-- The register and the result of the shift by the low byte of `i`. -/
def archShift (cpsr : Word) (kind : Shift) (x i : Word) : Word × Word :=
  let flags := nzcvOf cpsr
  let (result, carry) := shiftC kind x (i.toNat % 256) flags.c
  (setNzcv cpsr { flags with c := carry }, result)

/-- The register and the result of the addition. -/
def archAdd (cpsr x y : Word) (carry : Bool) : Word × Word :=
  let (result, flags) := addWithCarry x y carry
  (setNzcv cpsr flags, result)

/-- What the call is for. -/
def FlagHelper.arch (cpsr : Word) : FlagHelper → Word × Word
  | .addCc a b => archAdd cpsr a b false
  | .adcCc a b => archAdd cpsr a b (nzcvOf cpsr).c
  | .subCc a b => archAdd cpsr a (~~~ b) true
  | .sbcCc a b => archAdd cpsr a (~~~ b) (nzcvOf cpsr).c
  | .shlCc x i => archShift cpsr .lsl x i
  | .shrCc x i => archShift cpsr .lsr x i
  | .sarCc x i => archShift cpsr .asr x i
  | .rorCc x i => archShift cpsr .ror x i

namespace CPUARMState

variable {env : CPUARMState}

theorem bitAt_getLsbD (b : Bool) {i j : ℕ} (hi : i < 32) : (bitAt b i).getLsbD j = (b && decide (i = j)) := by
  unfold bitAt
  cases b
  · simp
  · simp [-getLsbD_eq_getElem, getLsbD_twoPow, hi]

theorem nzcvOf_cpsrRead (hvalid : env.FlagsValid) :
    nzcvOf env.cpsrRead = ⟨env.nf.getLsbD 31, env.zf = 0, env.cf.getLsbD 0, env.vf.getLsbD 31⟩ := by
  rw [nzcvOf, cpsrRead_n hvalid, cpsrRead_z hvalid, cpsrRead_c hvalid, cpsrRead_v hvalid]

/-- **The flags that the fields hold.** -/
theorem cpsrRead_flags (hvalid : env.FlagsValid) (nf zf cf vf : Word) (hcf : cf = 0 ∨ cf = 1) :
    ({ env with nf := nf, zf := zf, cf := cf, vf := vf }).cpsrRead =
      setNzcv env.cpsrRead ⟨nf.getLsbD 31, zf = 0, cf.getLsbD 0, vf.getLsbD 31⟩ := by
  have hnew : ({ env with nf := nf, zf := zf, cf := cf, vf := vf }).FlagsValid := { hvalid with cf := hcf }
  apply eq_of_getLsbD_eq
  intro i hi
  simp only [setNzcv, getLsbD_or, getLsbD_and, getLsbD_not, hi, decide_true, Bool.true_and,
    bitAt_getLsbD _ (show 31 < 32 by omega), bitAt_getLsbD _ (show 30 < 32 by omega),
    bitAt_getLsbD _ (show 29 < 32 by omega), bitAt_getLsbD _ (show 28 < 32 by omega)]
  by_cases hlow : i < 28
  · have hmask : ∀ i < 28, cpsrNzcv.getLsbD i = false := by decide
    rw [hmask i hlow, cpsrRead_getLsbD hnew hi, cpsrRead_getLsbD hvalid hi]
    have hne : 31 ≠ i ∧ 30 ≠ i ∧ 29 ≠ i ∧ 28 ≠ i := by omega
    simp [-getLsbD_eq_getElem, hne, hne.1.symm, hne.2.1.symm, hne.2.2.1.symm, hne.2.2.2.symm]
  · have hhigh : i = 31 ∨ i = 30 ∨ i = 29 ∨ i = 28 := by omega
    rcases hhigh with rfl | rfl | rfl | rfl
    · rw [cpsrRead_n hnew]
      simp [-getLsbD_eq_getElem, cpsrNzcv]
    · rw [cpsrRead_z hnew]
      simp [-getLsbD_eq_getElem, cpsrNzcv]
    · rw [cpsrRead_c hnew]
      simp [-getLsbD_eq_getElem, cpsrNzcv]
    · rw [cpsrRead_v hnew]
      simp [-getLsbD_eq_getElem, cpsrNzcv]

theorem getLsbD_31 (x : Word) : x.getLsbD 31 = decide (2 ^ 31 ≤ x.toNat) := by
  exact (msb_eq_getLsbD_last x).symm.trans (msb_eq_decide x)

theorem toInt_eq (x : Word) : x.toInt = if 2 ^ 31 ≤ x.toNat then (x.toNat : ℤ) - 2 ^ 32 else (x.toNat : ℤ) := by
  have hx := x.isLt
  rw [toInt_eq_toNat_cond]
  split_ifs <;> omega

/-- The overflow of an addition by the signs of the operands and the result. -/
theorem overflow_add (a b : Word) (carry : Bool) (result : Word)
    (hresult : result.toNat = (a.toNat + b.toNat + carry.toNat) % 2 ^ 32) :
    ((a ^^^ b ^^^ 0xffffffff#32) &&& (a ^^^ result)).getLsbD 31 =
      decide (result.toInt ≠ a.toInt + b.toInt + carry.toNat) := by
  have ha := a.isLt
  have hb := b.isLt
  have hc : carry.toNat ≤ 1 := by cases carry <;> decide
  have hones : (0xffffffff#32).getLsbD 31 = true := rfl
  rw [toInt_eq, toInt_eq, toInt_eq, getLsbD_and, getLsbD_xor, getLsbD_xor, getLsbD_xor,
    hones, getLsbD_31, getLsbD_31, getLsbD_31]
  by_cases hA : 2 ^ 31 ≤ a.toNat <;> by_cases hB : 2 ^ 31 ≤ b.toNat <;> by_cases hR : 2 ^ 31 ≤ result.toNat
  all_goals
    simp only [hA, hB, hR, if_true, if_false]
    simp only [decide_true, decide_false, Bool.xor_true, Bool.xor_false, Bool.not_true, Bool.not_false, Bool.and_true,
      Bool.and_false, Bool.false_eq, Bool.true_eq, decide_eq_false_iff_not, decide_eq_true_iff]
    omega

/-- An addition with carry on the fields. -/
def added (env : CPUARMState) (a b : Word) (carry : Bool) : CPUARMState × Word :=
  let sum := a.toNat + b.toNat + carry.toNat
  let result := BitVec.ofNat 32 sum
  ({ env with
      nf := result, zf := result, cf := if 2 ^ 32 ≤ sum then 1 else 0
      vf := (a ^^^ b ^^^ 0xffffffff#32) &&& (a ^^^ result) }, result)

theorem added_of_toNat (env : CPUARMState) {a b result cf : Word} {carry : Bool}
    (hresult : result.toNat = (a.toNat + b.toNat + carry.toNat) % 2 ^ 32)
    (hcf : cf = if 2 ^ 32 ≤ a.toNat + b.toNat + carry.toNat then 1 else 0) :
    ({ env with
        nf := result, zf := result, cf := cf
        vf := (a ^^^ b ^^^ 0xffffffff#32) &&& (a ^^^ result) }, result) = env.added a b carry := by
  have hword : result = BitVec.ofNat 32 (a.toNat + b.toNat + carry.toNat) := by
    apply eq_of_toNat_eq
    rw [hresult, toNat_ofNat]
  subst hword hcf
  rfl

theorem xor_ones (a b : Word) : a ^^^ b = a ^^^ ~~~ b ^^^ 0xffffffff#32 := by
  have hnot : ~~~ b = b ^^^ 0xffffffff#32 := (xor_allOnes).symm
  rw [hnot, ← BitVec.xor_assoc, BitVec.xor_assoc, BitVec.xor_self, BitVec.xor_zero]

theorem addCc_eq (env : CPUARMState) (a b : Word) : env.addCc a b = env.added a b false := by
  apply added_of_toNat
  · exact toNat_add a b
  · apply if_congr _ rfl rfl
    rw [lt_def, toNat_add]
    simp only [Bool.toNat_false]
    omega

theorem adcCc_eq (env : CPUARMState) (a b : Word) : env.adcCc a b = env.added a b (env.cf ≠ 0) := by
  by_cases hcf : env.cf = 0
  · have hadd : env.adcCc a b = env.addCc a b := by simp [adcCc, addCc, hcf]
    rw [hadd, addCc_eq, hcf]
    rfl
  · have hsum : (a + b + 1).toNat = (a.toNat + b.toNat + 1) % 2 ^ 32 := by
      simp [toNat_add]
    unfold adcCc
    dsimp only
    rw [if_neg hcf, if_neg hcf, decide_eq_true hcf]
    apply added_of_toNat
    · exact hsum
    · apply if_congr _ rfl rfl
      rw [le_def, hsum]
      simp only [Bool.toNat_true]
      omega

/-- A subtraction is an addition of the complement. -/
theorem subCc_eq (env : CPUARMState) (a b : Word) : env.subCc a b = env.added a (~~~ b) true := by
  have hb := b.isLt
  unfold subCc
  rw [xor_ones a b]
  apply added_of_toNat
  · rw [toNat_sub, toNat_not]
    simp only [Bool.toNat_true]
    omega
  · apply if_congr _ rfl rfl
    rw [le_def, toNat_not]
    simp only [Bool.toNat_true]
    omega

theorem sbcCc_eq (env : CPUARMState) (a b : Word) : env.sbcCc a b = env.added a (~~~ b) (env.cf ≠ 0) := by
  have hb := b.isLt
  by_cases hcf : env.cf = 0
  · have hone : (1 : Word).toNat = 1 := rfl
    unfold sbcCc
    dsimp only
    rw [if_pos hcf, if_pos hcf, xor_ones a b, decide_eq_false (not_not.2 hcf)]
    apply added_of_toNat
    · rw [toNat_sub, toNat_sub, toNat_not, hone]
      simp only [Bool.toNat_false]
      omega
    · apply if_congr _ rfl rfl
      rw [lt_def, toNat_not]
      simp only [Bool.toNat_false]
      omega
  · have hsub : env.sbcCc a b = env.subCc a b := by simp only [sbcCc, subCc, if_neg hcf]
    rw [hsub, subCc_eq, decide_eq_true hcf]

/-- The addition on the fields is the addition on the register. -/
theorem added_arch (hvalid : env.FlagsValid) (a b : Word) (carry : Bool) :
    ((env.added a b carry).1.cpsrRead, (env.added a b carry).2) = archAdd env.cpsrRead a b carry := by
  have hcarry : (if 2 ^ 32 ≤ a.toNat + b.toNat + carry.toNat then (1 : Word) else 0).getLsbD 0 =
      decide ((BitVec.ofNat 32 (a.toNat + b.toNat + carry.toNat)).toNat ≠ a.toNat + b.toNat + carry.toNat) := by
    rw [flag_getLsbD, toNat_ofNat]
    congr 1
    apply propext
    omega
  unfold added
  dsimp only
  rw [cpsrRead_flags hvalid _ _ _ _ (bit_ite _), overflow_add a b carry _ (toNat_ofNat _ _), hcarry]
  rfl

theorem carry_eq (hvalid : env.FlagsValid) : (nzcvOf env.cpsrRead).c = decide (env.cf ≠ 0) := by
  rw [nzcvOf_cpsrRead hvalid]
  rcases hvalid.cf with hcf | hcf <;> rw [hcf] <;> rfl

/-- The field of the carry after a shift. -/
theorem shiftFlags_arch (hvalid : env.FlagsValid) (kind : Shift) (x i result cf : Word) (hcf : cf = 0 ∨ cf = 1)
    (hshift : shiftC kind x (i.toNat % 256) (nzcvOf env.cpsrRead).c = (result, cf.getLsbD 0)) :
    (({ env with cf := cf } : CPUARMState).cpsrRead, result) = archShift env.cpsrRead kind x i := by
  have hflags := cpsrRead_flags hvalid env.nf env.zf cf env.vf hcf
  simp only [archShift, hshift]
  rw [nzcvOf_cpsrRead hvalid]
  exact congrArg (·, result) hflags

theorem amount_toNat (i : Word) : (i &&& 0xff#32).toNat = i.toNat % 256 := by
  rw [toNat_and]
  exact Nat.and_two_pow_sub_one_eq_mod i.toNat 8

theorem and_one_getLsbD (x : Word) : (x &&& 1#32).getLsbD 0 = x.getLsbD 0 := by
  rw [getLsbD_and]
  simp

/-- A shift by zero leaves the word and the flags. -/
theorem shiftZero_arch (hvalid : env.FlagsValid) (kind : Shift) (x : Word) {i : Word} (hi : i.toNat % 256 = 0) :
    (env.cpsrRead, x) = archShift env.cpsrRead kind x i := by
  apply shiftFlags_arch hvalid kind x i x env.cf hvalid.cf
  rw [nzcvOf_cpsrRead hvalid]
  unfold shiftC
  rw [if_pos hi]

variable {amount : ℕ}

theorem shiftC_lsl {x : Word} (hne : amount ≠ 0) (carry : Bool) :
    shiftC .lsl x amount carry = (x <<< amount, decide (amount ≤ 32) && x.getLsbD (32 - amount)) := by
  simp only [shiftC, if_neg hne]
  congr 1
  rw [getLsbD_shiftLeft, getLsbD_setWidth]
  by_cases hle : amount ≤ 32
  · have hlt : ¬ 32 < amount := by omega
    have hin : 32 - amount < 33 := by omega
    simp [-getLsbD_eq_getElem, hle, hlt, hin]
  · have hlt : 32 < amount := by omega
    simp [-getLsbD_eq_getElem, hle, hlt]

theorem shiftC_lsr {x : Word} (hne : amount ≠ 0) (carry : Bool) :
    shiftC .lsr x amount carry = (x >>> amount, x.getLsbD (amount - 1)) := by
  simp only [shiftC, if_neg hne]

theorem shiftC_asr {x : Word} (hne : amount ≠ 0) (carry : Bool) :
    shiftC .asr x amount carry =
      (x.sshiftRight amount, if amount ≤ 32 then x.getLsbD (amount - 1) else x.getLsbD 31) := by
  simp only [shiftC, if_neg hne]
  congr 1
  rw [getLsbD_signExtend, msb_eq_getLsbD_last]
  have hin : amount - 1 < 32 + amount := by omega
  have hle : amount - 1 < 32 ↔ amount ≤ 32 := by omega
  simp [-getLsbD_eq_getElem, hin, hle]

theorem shiftC_ror {x : Word} (hne : amount ≠ 0) (carry : Bool) :
    shiftC .ror x amount carry =
      (x >>> (amount % 32) ||| x <<< (32 - amount % 32), x.getLsbD ((amount + 31) % 32)) := by
  simp only [shiftC, if_neg hne]
  congr 1
  rw [getLsbD_rotateRight]
  by_cases hzero : amount % 32 = 0
  · have hlast : (amount + 31) % 32 = 31 := by omega
    simp [-getLsbD_eq_getElem, hzero, hlast]
  · have hin : ¬ 31 < 32 - amount % 32 := by omega
    have hlast : (amount + 31) % 32 = 31 - (32 - amount % 32) := by omega
    simp [-getLsbD_eq_getElem, hin, hlast]

/-- A shift on the fields: a shift by zero leaves `CF`. -/
def shifted (env : CPUARMState) (kind : Shift) (x : Word) (amount : ℕ) : CPUARMState × Word :=
  let (result, carry) := shiftC kind x amount (env.cf.getLsbD 0)
  (if amount = 0 then env else { env with cf := if carry then 1 else 0 }, result)

theorem and_one_eq (x : Word) : x &&& 1#32 = if x.getLsbD 0 then 1 else 0 := by
  have hbit := and_one_getLsbD x
  rcases and_one_cases x with h | h
  · rw [h] at hbit ⊢
    rw [← hbit]
    rfl
  · rw [h] at hbit ⊢
    rw [← hbit]
    rfl

theorem shifted_zero (env : CPUARMState) (kind : Shift) (x : Word) : env.shifted kind x 0 = (env, x) := rfl

theorem shifted_of_ne {kind : Shift} {x result : Word} {carry : Bool} (hne : amount ≠ 0)
    (hshift : shiftC kind x amount (env.cf.getLsbD 0) = (result, carry)) :
    env.shifted kind x amount = ({ env with cf := if carry then 1 else 0 }, result) := by
  rw [shifted, hshift]
  dsimp only
  rw [if_neg hne]

theorem shlCc_eq (env : CPUARMState) (x i : Word) : env.shlCc x i = env.shifted .lsl x (i.toNat % 256) := by
  unfold shlCc
  rw [amount_toNat]
  dsimp only
  split_ifs with hlong heq hne
  · rw [shifted_of_ne (by omega) (shiftC_lsl (by omega) _), shiftLeft_eq_zero hlong, heq, and_one_eq]
    simp
  · have hgt : ¬ i.toNat % 256 ≤ 32 := by omega
    rw [shifted_of_ne (by omega) (shiftC_lsl (by omega) _), shiftLeft_eq_zero hlong]
    simp [hgt]
  · have hle : i.toNat % 256 ≤ 32 := by omega
    rw [shifted_of_ne hne (shiftC_lsl hne _), and_one_eq, getLsbD_ushiftRight]
    simp [-getLsbD_eq_getElem, hle]
  · rw [not_not.1 hne, shifted_zero]

theorem shrCc_eq (env : CPUARMState) (x i : Word) : env.shrCc x i = env.shifted .lsr x (i.toNat % 256) := by
  unfold shrCc
  rw [amount_toNat]
  dsimp only
  split_ifs with hlong heq hne
  · rw [shifted_of_ne (by omega) (shiftC_lsr (by omega) _), ushiftRight_eq_zero hlong, heq, and_one_eq,
      getLsbD_ushiftRight]
    rfl
  · rw [shifted_of_ne (by omega) (shiftC_lsr (by omega) _), ushiftRight_eq_zero hlong,
      getLsbD_of_ge _ _ (by omega)]
    rfl
  · rw [shifted_of_ne hne (shiftC_lsr hne _), and_one_eq, getLsbD_ushiftRight, Nat.add_zero]
  · rw [not_not.1 hne, shifted_zero]

/-- A shift by 32 or more leaves the sign only. -/
theorem sshiftRight_long (x : Word) (hlong : 32 ≤ amount) :
    x.sshiftRight 31 = x.sshiftRight amount := by
  apply eq_of_getLsbD_eq
  intro j hj
  have hout : ¬ amount + j < 32 := by omega
  rw [getLsbD_sshiftRight, getLsbD_sshiftRight, if_neg hout]
  split_ifs with hfirst
  · obtain rfl : j = 0 := by omega
    rw [msb_eq_getLsbD_last]
  · rfl

theorem sarCc_eq (env : CPUARMState) (x i : Word) : env.sarCc x i = env.shifted .asr x (i.toNat % 256) := by
  unfold sarCc
  rw [amount_toNat]
  dsimp only
  split_ifs with hlong hne
  · rw [shifted_of_ne (by omega) (shiftC_asr (by omega) _), ← sshiftRight_long x hlong, and_one_eq,
      getLsbD_ushiftRight]
    congr 3
    split_ifs
    · have heq : i.toNat % 256 = 32 := by omega
      rw [heq]
    · rfl
  · have hle : i.toNat % 256 ≤ 32 := by omega
    rw [shifted_of_ne hne (shiftC_asr hne _), and_one_eq, getLsbD_ushiftRight, Nat.add_zero, if_pos hle]
  · rw [not_not.1 hne, shifted_zero]

theorem rorCc_eq (env : CPUARMState) (x i : Word) : env.rorCc x i = env.shifted .ror x (i.toNat % 256) := by
  unfold rorCc
  rw [amount_toNat]
  dsimp only
  split_ifs with hzero hne
  · have hlast : (i.toNat % 256 + 31) % 32 = 31 := by omega
    rw [shifted_of_ne hne (shiftC_ror hne _), and_one_eq, getLsbD_ushiftRight, hzero, hlast]
    simp [-getLsbD_eq_getElem]
  · rw [not_not.1 hne, shifted_zero]
  · have hne : i.toNat % 256 ≠ 0 := by omega
    have hlast : (i.toNat % 256 + 31) % 32 = i.toNat % 256 % 32 - 1 := by omega
    rw [shifted_of_ne hne (shiftC_ror hne _), and_one_eq, getLsbD_ushiftRight, hlast, Nat.add_zero]

/-- The shift on the fields is the shift on the register. -/
theorem shifted_arch (hvalid : env.FlagsValid) (kind : Shift) (x i : Word) :
    ((env.shifted kind x (i.toNat % 256)).1.cpsrRead, (env.shifted kind x (i.toNat % 256)).2) =
      archShift env.cpsrRead kind x i := by
  by_cases hzero : i.toNat % 256 = 0
  · rw [hzero, shifted_zero]
    exact shiftZero_arch hvalid kind x hzero
  · obtain ⟨⟨result, carry⟩, hshift⟩ : ∃ p, shiftC kind x (i.toNat % 256) (env.cf.getLsbD 0) = p := ⟨_, rfl⟩
    rw [shifted_of_ne hzero hshift]
    apply shiftFlags_arch hvalid kind x i
    · exact bit_ite _
    · have hcarry : (nzcvOf env.cpsrRead).c = env.cf.getLsbD 0 := by rw [nzcvOf_cpsrRead hvalid]
      rw [hcarry, hshift, flag_getLsbD, Bool.decide_eq_true]

/-- **Every helper does on the fields what the architecture does on the register.** -/
theorem FlagHelper.run_arch (hvalid : env.FlagsValid) (helper : FlagHelper) :
    ((helper.run env).1.cpsrRead, (helper.run env).2) = helper.arch env.cpsrRead := by
  cases helper with
  | addCc a b =>
    rw [FlagHelper.run, addCc_eq]
    exact added_arch hvalid a b _
  | adcCc a b =>
    rw [FlagHelper.run, adcCc_eq, FlagHelper.arch, carry_eq hvalid]
    exact added_arch hvalid a b _
  | subCc a b =>
    rw [FlagHelper.run, subCc_eq]
    exact added_arch hvalid a (~~~ b) _
  | sbcCc a b =>
    rw [FlagHelper.run, sbcCc_eq, FlagHelper.arch, carry_eq hvalid]
    exact added_arch hvalid a (~~~ b) _
  | shlCc x i =>
    rw [FlagHelper.run, shlCc_eq]
    exact shifted_arch hvalid .lsl x i
  | shrCc x i =>
    rw [FlagHelper.run, shrCc_eq]
    exact shifted_arch hvalid .lsr x i
  | sarCc x i =>
    rw [FlagHelper.run, sarCc_eq]
    exact shifted_arch hvalid .asr x i
  | rorCc x i =>
    rw [FlagHelper.run, rorCc_eq]
    exact shifted_arch hvalid .ror x i

/-- A helper writes the flags only. -/
theorem FlagHelper.run_frame (env : CPUARMState) (helper : FlagHelper) :
    (helper.run env).1 =
      { env with
        nf := (helper.run env).1.nf, zf := (helper.run env).1.zf
        cf := (helper.run env).1.cf, vf := (helper.run env).1.vf } := by
  cases helper with
  | addCc a b => rfl
  | adcCc a b => rfl
  | subCc a b => rfl
  | sbcCc a b => rfl
  | shlCc x i =>
    simp only [FlagHelper.run, shlCc]
    split_ifs <;> rfl
  | shrCc x i =>
    simp only [FlagHelper.run, shrCc]
    split_ifs <;> rfl
  | sarCc x i =>
    simp only [FlagHelper.run, sarCc]
    split_ifs <;> rfl
  | rorCc x i =>
    simp only [FlagHelper.run, rorCc]
    split_ifs <;> rfl

theorem FlagHelper.run_cf (hvalid : env.FlagsValid) (helper : FlagHelper) :
    (helper.run env).1.cf = 0 ∨ (helper.run env).1.cf = 1 := by
  cases helper with
  | addCc a b => exact bit_ite _
  | adcCc a b =>
    simp only [FlagHelper.run, adcCc]
    split_ifs <;> simp
  | subCc a b => exact bit_ite _
  | sbcCc a b =>
    simp only [FlagHelper.run, sbcCc]
    split_ifs <;> simp
  | shlCc x i =>
    simp only [FlagHelper.run, shlCc]
    split_ifs
    exacts [and_one_cases _, .inl rfl, and_one_cases _, hvalid.cf]
  | shrCc x i =>
    simp only [FlagHelper.run, shrCc]
    split_ifs
    exacts [and_one_cases _, .inl rfl, and_one_cases _, hvalid.cf]
  | sarCc x i =>
    simp only [FlagHelper.run, sarCc]
    split_ifs
    exacts [and_one_cases _, and_one_cases _, hvalid.cf]
  | rorCc x i =>
    simp only [FlagHelper.run, rorCc]
    split_ifs
    exacts [and_one_cases _, hvalid.cf, and_one_cases _]

theorem FlagsValid.run (hvalid : env.FlagsValid) (helper : FlagHelper) : (helper.run env).1.FlagsValid := by
  rw [FlagHelper.run_frame]
  exact { hvalid with cf := FlagHelper.run_cf hvalid helper }

theorem FlagsValid.setQ (hvalid : env.FlagsValid) : env.setQ.FlagsValid := { hvalid with qf := .inr rfl }

theorem cpsrRead_setQ (hvalid : env.FlagsValid) : env.setQ.cpsrRead = env.cpsrRead ||| cpsrQ := by
  apply eq_of_getLsbD_eq
  intro i hi
  rw [getLsbD_or]
  have hmask : ∀ i < 32, cpsrQ.getLsbD i = decide (i = 27) := by decide
  rw [hmask i hi]
  by_cases hq : i = 27
  · subst hq
    rw [cpsrRead_q hvalid.setQ]
    simp [CPUARMState.setQ]
  · rw [cpsrRead_getLsbD hvalid.setQ hi, cpsrRead_getLsbD hvalid hi]
    simp only [hq, if_false, decide_false, Bool.or_false]
    rfl

theorem FlagsValid.setGe (hvalid : env.FlagsValid) (ge : BitVec 4) : (env.setGe ge).FlagsValid := by
  have hwithin : ∀ ge : BitVec 4, ge.setWidth 32 &&& 0xf#32 = ge.setWidth 32 := by decide
  exact { hvalid with ge := hwithin ge }

theorem cpsrRead_setGe (hvalid : env.FlagsValid) (ge : BitVec 4) :
    (env.setGe ge).cpsrRead = (env.cpsrRead &&& ~~~ cpsrGe) ||| (ge.setWidth 32 <<< 16) := by
  apply eq_of_getLsbD_eq
  intro i hi
  rw [getLsbD_or, getLsbD_and, getLsbD_not, getLsbD_shiftLeft]
  have hmask : ∀ i < 32, cpsrGe.getLsbD i = decide (16 ≤ i ∧ i < 20) := by decide
  rw [hmask i hi]
  by_cases hge : 16 ≤ i ∧ i < 20
  · obtain ⟨j, rfl⟩ : ∃ j, i = 16 + j := ⟨i - 16, by omega⟩
    rw [cpsrRead_ge (hvalid.setGe ge) (by omega)]
    simp [-getLsbD_eq_getElem, CPUARMState.setGe, hge, hi]
  · have hout : (!decide (i < 16) && (ge.setWidth 32).getLsbD (i - 16)) = false := by
      by_cases hlow : i < 16
      · simp [hlow]
      · rw [getLsbD_setWidth, getLsbD_of_ge ge _ (by omega)]
        simp
    rw [cpsrRead_getLsbD (hvalid.setGe ge) hi, cpsrRead_getLsbD hvalid hi]
    simp only [hge, if_false, decide_false, Bool.not_false, hi, decide_true, Bool.true_and, Bool.and_true, hout,
      Bool.or_false]
    rfl

end CPUARMState

end Emulator.Arm
