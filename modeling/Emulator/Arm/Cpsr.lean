import Mathlib.Logic.Function.Basic
import Mathlib.Tactic.IntervalCases
import Emulator.Arm.Mmu

/-!
# The CPSR and its cache (`target-arm/helper.c`, `op_helper.c`)

The status register is split: the flags, the bits for saturation, Thumb, IT and GE have fields of
their own, with their own encodings, and `uncached_cpsr` has the rest.

* `cpsrRead_getLsbD`: where each bit of the register is.
* `cpsrRead_write`: a write of whole bytes changes exactly the bits in the mask.
* `switchMode_frame`: a switch of the mode moves registers only.
-/

namespace Emulator.Arm

open Function BitVec

/-! The numbers of the banks and of the registers have numerals. -/

scoped instance neZero_banks : NeZero 6 := ⟨by decide⟩

scoped instance neZero_registers : NeZero 16 := ⟨by decide⟩

def cpsrM : Word := 0x1f
def cpsrT : Word := 0x20
def cpsrF : Word := 0x40
def cpsrI : Word := 0x80
def cpsrA : Word := 0x100
def cpsrIt27 : Word := 0xfc00
def cpsrGe : Word := 0xf0000
def cpsrIt01 : Word := 0x06000000
def cpsrQ : Word := 0x08000000
def cpsrZ : Word := 0x40000000
def cpsrNzcv : Word := 0xf0000000

/-- `CACHED_CPSR_BITS`. -/
def cachedCpsrBits : Word := cpsrT ||| cpsrGe ||| (cpsrIt01 ||| cpsrIt27) ||| cpsrQ ||| cpsrNzcv

def armCpuModeUsr : Word := 0x10
def armCpuModeFiq : Word := 0x11
def armCpuModeIrq : Word := 0x12
def armCpuModeSvc : Word := 0x13
def armCpuModeAbt : Word := 0x17
def armCpuModeUnd : Word := 0x1b
def armCpuModeSys : Word := 0x1f

/-- The registers of `CPUARMState`. -/
structure CPUARMState where
  regs : Fin 16 → Word
  uncachedCpsr : Word
  spsr : Word
  bankedSpsr : Fin 6 → Word
  bankedR13 : Fin 6 → Word
  bankedR14 : Fin 6 → Word
  usrRegs : Fin 5 → Word
  fiqRegs : Fin 5 → Word
  /-- 0 or 1. -/
  cf : Word
  /-- V is the bit 31. -/
  vf : Word
  /-- N is the bit 31. -/
  nf : Word
  /-- Z is set if this is zero. -/
  zf : Word
  /-- 0 or 1. -/
  qf : Word
  ge : Word
  thumb : Word
  condexecBits : Word
  /-- `cp15.c1_sys`. -/
  c1Sys : Word

namespace CPUARMState

/-- `cpsr_read`. -/
def cpsrRead (env : CPUARMState) : Word :=
  let zf : Word := if env.zf = 0 then 1 else 0
  env.uncachedCpsr ||| (env.nf &&& 0x80000000#32) ||| (zf <<< 30) |||
    (env.cf <<< 29) ||| ((env.vf &&& 0x80000000#32) >>> 3) ||| (env.qf <<< 27) |||
    (env.thumb <<< 5) ||| ((env.condexecBits &&& 3#32) <<< 25) |||
    ((env.condexecBits &&& 0xfc#32) <<< 8) |||
    (env.ge <<< 16)

/-- `bank_number`, `none` for the bad modes that end in `cpu_abort`. -/
def bankNumber (mode : Word) : Option (Fin 6) :=
  if mode = armCpuModeUsr ∨ mode = armCpuModeSys then some 0
  else if mode = armCpuModeSvc then some 1
  else if mode = armCpuModeAbt then some 2
  else if mode = armCpuModeUnd then some 3
  else if mode = armCpuModeIrq then some 4
  else if mode = armCpuModeFiq then some 5
  else none

/-- `regs` with r8 to r12 copied from `bank`. -/
def copyHigh (regs : Fin 16 → Word) (bank : Fin 5 → Word) : Fin 16 → Word := fun n =>
  if h : 8 ≤ n.val ∧ n.val < 13 then bank ⟨n.val - 8, by omega⟩ else regs n

/-- r8 to r12. -/
def highRegs (regs : Fin 16 → Word) : Fin 5 → Word := fun i => regs ⟨i.val + 8, by omega⟩

/-- `switch_mode`. -/
def switchMode (env : CPUARMState) (mode : Word) : Option CPUARMState :=
  let oldMode := env.uncachedCpsr &&& cpsrM
  if mode = oldMode then some env
  else
    let env :=
      if oldMode = armCpuModeFiq then
        { env with fiqRegs := highRegs env.regs, regs := copyHigh env.regs env.usrRegs }
      else if mode = armCpuModeFiq then
        { env with usrRegs := highRegs env.regs, regs := copyHigh env.regs env.fiqRegs }
      else env
    match bankNumber oldMode, bankNumber mode with
    | some i, some j =>
      let env := { env with
        bankedR13 := update env.bankedR13 i (env.regs 13)
        bankedR14 := update env.bankedR14 i (env.regs 14)
        bankedSpsr := update env.bankedSpsr i env.spsr }
      some { env with
        regs := update (update env.regs 13 (env.bankedR13 j)) 14 (env.bankedR14 j)
        spsr := env.bankedSpsr j }
    | _, _ => none

/-- The first half of `cpsr_write`: the bits with fields of their own. -/
def writeCached (env : CPUARMState) (val mask : Word) : CPUARMState :=
  let condexecBits :=
    if mask &&& cpsrIt01 ≠ 0 then (env.condexecBits &&& ~~~ 3#32) ||| ((val >>> 25) &&& 3#32)
    else env.condexecBits
  { env with
    zf := if mask &&& cpsrNzcv ≠ 0 then ~~~ val &&& cpsrZ else env.zf
    nf := if mask &&& cpsrNzcv ≠ 0 then val else env.nf
    cf := if mask &&& cpsrNzcv ≠ 0 then (val >>> 29) &&& 1#32 else env.cf
    vf := if mask &&& cpsrNzcv ≠ 0 then (val <<< 3) &&& 0x80000000#32 else env.vf
    qf := if mask &&& cpsrQ ≠ 0 then (if val &&& cpsrQ ≠ 0 then 1 else 0) else env.qf
    thumb := if mask &&& cpsrT ≠ 0 then (if val &&& cpsrT ≠ 0 then 1 else 0) else env.thumb
    condexecBits :=
      if mask &&& cpsrIt27 ≠ 0 then (condexecBits &&& 3#32) ||| ((val >>> 8) &&& 0xfc#32) else condexecBits
    ge := if mask &&& cpsrGe ≠ 0 then (val >>> 16) &&& 0xf#32 else env.ge }

/-- The last lines of `cpsr_write`: the bits that have no field of their own. -/
def writeUncached (env : CPUARMState) (val mask : Word) : CPUARMState :=
  let mask := mask &&& ~~~ cachedCpsrBits
  { env with uncachedCpsr := (env.uncachedCpsr &&& ~~~ mask) ||| (val &&& mask) }

/-- `cpsr_write`. -/
def cpsrWrite (env : CPUARMState) (val mask : Word) : Option CPUARMState := do
  let env := env.writeCached val mask
  let env ←
    if (env.uncachedCpsr ^^^ val) &&& mask &&& cpsrM ≠ 0 then env.switchMode (val &&& cpsrM) else some env
  return env.writeUncached val mask

/-- The fields have the values that the comments of the source give. -/
structure FlagsValid (env : CPUARMState) : Prop where
  uncached : env.uncachedCpsr &&& cachedCpsrBits = 0
  cf : env.cf = 0 ∨ env.cf = 1
  qf : env.qf = 0 ∨ env.qf = 1
  thumb : env.thumb = 0 ∨ env.thumb = 1
  ge : env.ge &&& 0xf#32 = env.ge
  condexecBits : env.condexecBits &&& 0xff#32 = env.condexecBits

variable {env : CPUARMState}

theorem getLsbD_bit {x : Word} (h : x = 0 ∨ x = 1) {i : ℕ} (hi : 1 ≤ i) : x.getLsbD i = false := by
  rcases h with rfl | rfl
  · simp
  · simp
    omega

theorem getLsbD_of_and {x m : Word} (h : x &&& m = x) {i : ℕ} (hi : m.getLsbD i = false) : x.getLsbD i = false := by
  rw [← h, getLsbD_and, hi, Bool.and_false]

theorem getLsbD_uncached (h : env.FlagsValid) {i : ℕ} (hi : cachedCpsrBits.getLsbD i = true) :
    env.uncachedCpsr.getLsbD i = false := by
  have hbit := congrArg (BitVec.getLsbD · i) h.uncached
  simpa [hi] using hbit

/-- **Where the bits of the register are.** -/
theorem cpsrRead_getLsbD (h : env.FlagsValid) {i : ℕ} (hi : i < 32) :
    env.cpsrRead.getLsbD i =
      if i = 31 then env.nf.getLsbD 31
      else if i = 30 then decide (env.zf = 0)
      else if i = 29 then env.cf.getLsbD 0
      else if i = 28 then env.vf.getLsbD 31
      else if i = 27 then env.qf.getLsbD 0
      else if i = 26 ∨ i = 25 then env.condexecBits.getLsbD (i - 25)
      else if 16 ≤ i ∧ i < 20 then env.ge.getLsbD (i - 16)
      else if 10 ≤ i ∧ i < 16 then env.condexecBits.getLsbD (i - 8)
      else if i = 5 then env.thumb.getLsbD 0
      else env.uncachedCpsr.getLsbD i := by
  have hcf : ∀ j, 1 ≤ j → env.cf.getLsbD j = false := fun _ => getLsbD_bit h.cf
  have hqf : ∀ j, 1 ≤ j → env.qf.getLsbD j = false := fun _ => getLsbD_bit h.qf
  have hthumb : ∀ j, 1 ≤ j → env.thumb.getLsbD j = false := fun _ => getLsbD_bit h.thumb
  have hge : ∀ j, (0xf#32).getLsbD j = false → env.ge.getLsbD j = false := fun _ => getLsbD_of_and h.ge
  have hcached : ∀ j, (0xfe0ffc20#32).getLsbD j = true → env.uncachedCpsr.getLsbD j = false :=
    fun _ => getLsbD_uncached h
  have hzf : ∀ j, (if env.zf = 0 then (1 : Word) else 0).getLsbD j = (decide (j = 0) && decide (env.zf = 0)) := by
    intro j
    split_ifs with hz
    · rw [decide_eq_true hz, Bool.and_true]
      simp [getLsbD_one]
    · rw [decide_eq_false hz, Bool.and_false]
      simp
  simp only [cpsrRead, getLsbD_or, getLsbD_and, getLsbD_shiftLeft, getLsbD_ushiftRight, hzf]
  interval_cases i
  all_goals simp [-getLsbD_eq_getElem, hcf, hqf, hthumb, hge, hcached]

section Bits

variable (h : env.FlagsValid)
include h

theorem cpsrRead_n : env.cpsrRead.getLsbD 31 = env.nf.getLsbD 31 := by
  rw [cpsrRead_getLsbD h (by omega)]
  rfl

theorem cpsrRead_z : env.cpsrRead.getLsbD 30 = decide (env.zf = 0) := by
  rw [cpsrRead_getLsbD h (by omega)]
  rfl

theorem cpsrRead_c : env.cpsrRead.getLsbD 29 = env.cf.getLsbD 0 := by
  rw [cpsrRead_getLsbD h (by omega)]
  rfl

theorem cpsrRead_v : env.cpsrRead.getLsbD 28 = env.vf.getLsbD 31 := by
  rw [cpsrRead_getLsbD h (by omega)]
  rfl

theorem cpsrRead_q : env.cpsrRead.getLsbD 27 = env.qf.getLsbD 0 := by
  rw [cpsrRead_getLsbD h (by omega)]
  rfl

theorem cpsrRead_t : env.cpsrRead.getLsbD 5 = env.thumb.getLsbD 0 := by
  rw [cpsrRead_getLsbD h (by omega)]
  rfl

theorem cpsrRead_it01 {j : ℕ} (hj : j < 2) : env.cpsrRead.getLsbD (25 + j) = env.condexecBits.getLsbD j := by
  rw [cpsrRead_getLsbD h (by omega)]
  interval_cases j <;> rfl

theorem cpsrRead_ge {j : ℕ} (hj : j < 4) : env.cpsrRead.getLsbD (16 + j) = env.ge.getLsbD j := by
  rw [cpsrRead_getLsbD h (by omega)]
  interval_cases j <;> rfl

theorem cpsrRead_it27 {j : ℕ} (hj : j < 6) : env.cpsrRead.getLsbD (10 + j) = env.condexecBits.getLsbD (2 + j) := by
  rw [cpsrRead_getLsbD h (by omega)]
  interval_cases j <;> rfl

theorem cpsrRead_uncached {i : ℕ} (hi : i < 32) (huncached : cachedCpsrBits.getLsbD i = false) :
    env.cpsrRead.getLsbD i = env.uncachedCpsr.getLsbD i := by
  rw [cpsrRead_getLsbD h hi]
  have hcase : ∀ i < 32, cachedCpsrBits.getLsbD i = false →
      i < 5 ∨ (5 < i ∧ i < 10) ∨ (20 ≤ i ∧ i < 25) := by decide
  have hrange := hcase i hi huncached
  rw [if_neg (by omega), if_neg (by omega), if_neg (by omega), if_neg (by omega), if_neg (by omega),
    if_neg (by omega), if_neg (by omega), if_neg (by omega), if_neg (by omega)]

end Bits

/-- The bit of the mask for the byte `j` of the register. -/
def byteOf (mask : Word) (j : ℕ) : Bool := mask.getLsbD (j * 8)

/-- Every byte of the mask is 0x00 or 0xff. -/
def WholeBytes (mask : Word) : Prop := ∀ i < 32, mask.getLsbD i = byteOf mask (i / 8)

instance (mask : Word) : Decidable (WholeBytes mask) := inferInstanceAs (Decidable (∀ i < 32, _))

/-- A field within a byte is in the mask as the byte is. -/
theorem WholeBytes.and_ne_zero {mask : Word} (h : WholeBytes mask) (field : Word) (j : ℕ)
    (hfield : ∀ i < 32, field.getLsbD i = true → i / 8 = j) (hne : ∃ i < 32, field.getLsbD i = true) :
    mask &&& field ≠ 0 ↔ byteOf mask j = true := by
  constructor
  · intro hand
    by_contra hbyte
    apply hand
    apply eq_of_getLsbD_eq
    intro i hi
    rw [getLsbD_and, h i hi]
    by_cases hbit : field.getLsbD i = true
    · rw [hfield i hi hbit, Bool.not_eq_true _ |>.mp hbyte]
      simp
    · rw [Bool.not_eq_true _ |>.mp hbit]
      simp
  · intro hbyte hand
    obtain ⟨i, hi, hbit⟩ := hne
    have hzero := congrArg (BitVec.getLsbD · i) hand
    simp only [getLsbD_and, hbit, h i hi, hfield i hi hbit, hbyte] at hzero
    simp at hzero

/-- The fields after a write of whole bytes, each by the byte that it is in. -/
theorem writeCached_eq {val mask : Word} (h : WholeBytes mask) :
    env.writeCached val mask =
      let condexecBits :=
        if byteOf mask 3 then (env.condexecBits &&& ~~~ 3#32) ||| ((val >>> 25) &&& 3#32) else env.condexecBits
      { env with
        zf := if byteOf mask 3 then ~~~ val &&& cpsrZ else env.zf
        nf := if byteOf mask 3 then val else env.nf
        cf := if byteOf mask 3 then (val >>> 29) &&& 1#32 else env.cf
        vf := if byteOf mask 3 then (val <<< 3) &&& 0x80000000#32 else env.vf
        qf := if byteOf mask 3 then (if val &&& cpsrQ ≠ 0 then 1 else 0) else env.qf
        thumb := if byteOf mask 0 then (if val &&& cpsrT ≠ 0 then 1 else 0) else env.thumb
        condexecBits :=
          if byteOf mask 1 then (condexecBits &&& 3#32) ||| ((val >>> 8) &&& 0xfc#32) else condexecBits
        ge := if byteOf mask 2 then (val >>> 16) &&& 0xf#32 else env.ge } := by
  simp only [writeCached, h.and_ne_zero cpsrNzcv 3 (by decide) (by decide),
    h.and_ne_zero cpsrQ 3 (by decide) (by decide),
    h.and_ne_zero cpsrT 0 (by decide) (by decide), h.and_ne_zero cpsrIt01 3 (by decide) (by decide),
    h.and_ne_zero cpsrIt27 1 (by decide) (by decide), h.and_ne_zero cpsrGe 2 (by decide) (by decide)]

theorem and_one_cases (x : Word) : x &&& 1#32 = 0 ∨ x &&& 1#32 = 1 := by
  have hbit : x &&& 1#32 = if x.getLsbD 0 then 1#32 else 0#32 := by
    apply eq_of_getLsbD_eq
    intro i hi
    rw [getLsbD_and, getLsbD_one]
    by_cases h0 : i = 0
    · subst h0
      split_ifs with hx <;> simp [-getLsbD_eq_getElem, hx]
    · split_ifs <;> simp [h0, getLsbD_one]
  rw [hbit]
  split_ifs
  · exact .inr rfl
  · exact .inl rfl

theorem or_within {x y m : Word} (hx : x &&& m = x) (hy : y &&& m = y) : (x ||| y) &&& m = x ||| y := by
  apply eq_of_getLsbD_eq
  intro i _
  have hxi := congrArg (BitVec.getLsbD · i) hx
  have hyi := congrArg (BitVec.getLsbD · i) hy
  simp only [getLsbD_and, getLsbD_or] at hxi hyi ⊢
  rw [Bool.and_or_distrib_right, hxi, hyi]

theorem and_within {x c m : Word} (hc : c &&& m = c) : (x &&& c) &&& m = x &&& c := by
  rw [BitVec.and_assoc, hc]

theorem and_within_left {x c m : Word} (hx : x &&& m = x) : (x &&& c) &&& m = x &&& c := by
  rw [BitVec.and_assoc, BitVec.and_comm c m, ← BitVec.and_assoc, hx]

theorem bit_ite (p : Prop) [Decidable p] : (if p then (1 : Word) else 0) = 0 ∨ (if p then (1 : Word) else 0) = 1 := by
  split_ifs
  · exact .inr rfl
  · exact .inl rfl

/-- The writes keep the fields valid. -/
theorem FlagsValid.writeCached (hvalid : env.FlagsValid) {val mask : Word} (h : WholeBytes mask) :
    (env.writeCached val mask).FlagsValid := by
  rw [writeCached_eq h]
  have hbits : ((if byteOf mask 3 then (env.condexecBits &&& ~~~ 3#32) ||| ((val >>> 25) &&& 3#32)
      else env.condexecBits) &&& 0xff#32) = if byteOf mask 3 then
        (env.condexecBits &&& ~~~ 3#32) ||| ((val >>> 25) &&& 3#32) else env.condexecBits := by
    split_ifs
    · exact or_within (and_within_left hvalid.condexecBits) (and_within (by decide))
    · exact hvalid.condexecBits
  constructor
  · exact hvalid.uncached
  · dsimp only
    split_ifs
    · exact and_one_cases _
    · exact hvalid.cf
  · dsimp only
    cases byteOf mask 3
    · exact hvalid.qf
    · exact bit_ite _
  · dsimp only
    cases byteOf mask 0
    · exact hvalid.thumb
    · exact bit_ite _
  · dsimp only
    split_ifs
    · exact and_within (by decide)
    · exact hvalid.ge
  · dsimp only
    cases byteOf mask 1
    · exact hbits
    · exact or_within (and_within (by decide)) (and_within (by decide))

theorem FlagsValid.writeUncached (hvalid : env.FlagsValid) (val mask : Word) :
    (env.writeUncached val mask).FlagsValid := by
  refine { hvalid with uncached := ?_ }
  apply eq_of_getLsbD_eq
  intro i hi
  have hbit := congrArg (BitVec.getLsbD · i) hvalid.uncached
  simp only [getLsbD_and] at hbit
  simp only [CPUARMState.writeUncached, getLsbD_and, getLsbD_or, getLsbD_not, hi,
    decide_true, Bool.true_and]
  cases hcached : cachedCpsrBits.getLsbD i
  · simp
  · rw [hcached, Bool.and_true] at hbit
    simp [hbit]

/-- A test of one bit. -/
theorem and_twoPow_ne_zero {x m : Word} {i : ℕ} (hi : i < 32) (hm : m = BitVec.twoPow 32 i) :
    decide (x &&& m ≠ 0) = x.getLsbD i := by
  subst hm
  rw [and_twoPow]
  cases x.getLsbD i
  · simp
  · have hne : BitVec.twoPow 32 i ≠ 0 := by
      intro hzero
      have hbit := congrArg (BitVec.getLsbD · i) hzero
      simp [-getLsbD_eq_getElem, getLsbD_twoPow, hi] at hbit
    simpa using hne

theorem flag_getLsbD (p : Prop) [Decidable p] : (if p then (1 : Word) else 0).getLsbD 0 = decide p := by
  split_ifs with hp <;> simp [hp]

/-- The bit of a field that the byte `b` of a mask selects. -/
theorem select_getLsbD (b : Bool) (x y : Word) (j : ℕ) :
    (if b = true then x else y).getLsbD j = ((y.getLsbD j && !b) || (x.getLsbD j && b)) := by
  cases b <;> simp

/-- **A write of whole bytes changes exactly the bits in the mask.** -/
theorem cpsrRead_write (hvalid : env.FlagsValid) {val mask : Word} (h : WholeBytes mask) :
    ((env.writeCached val mask).writeUncached val mask).cpsrRead =
      (env.cpsrRead &&& ~~~ mask) ||| (val &&& mask) := by
  have hnew : ((env.writeCached val mask).writeUncached val mask).FlagsValid :=
    (hvalid.writeCached h).writeUncached val mask
  apply eq_of_getLsbD_eq
  intro i hi
  simp only [getLsbD_or, getLsbD_and, getLsbD_not, hi, decide_true, Bool.true_and, h i hi]
  have hcase : ∀ i < 32, i = 31 ∨ i = 30 ∨ i = 29 ∨ i = 28 ∨ i = 27 ∨ (∃ j < 2, i = 25 + j) ∨ (∃ j < 4, i = 16 + j) ∨
      (∃ j < 6, i = 10 + j) ∨ i = 5 ∨ cachedCpsrBits.getLsbD i = false := by decide
  rcases hcase i hi with rfl | rfl | rfl | rfl | rfl | ⟨j, hj, rfl⟩ | ⟨j, hj, rfl⟩ | ⟨j, hj, rfl⟩ | rfl | huncached
  · rw [cpsrRead_n hnew, cpsrRead_n hvalid, writeCached_eq h]
    exact select_getLsbD _ _ _ _
  · rw [cpsrRead_z hnew, cpsrRead_z hvalid, writeCached_eq h]
    dsimp only [writeUncached]
    have hval : decide (~~~ val &&& cpsrZ ≠ 0) = (~~~ val).getLsbD 30 :=
      and_twoPow_ne_zero (by omega) rfl
    rw [decide_not, getLsbD_not] at hval
    cases byteOf mask 3
    · simp
    · simpa [-getLsbD_eq_getElem] using congrArg not hval
  · rw [cpsrRead_c hnew, cpsrRead_c hvalid, writeCached_eq h]
    refine (select_getLsbD _ _ _ _).trans ?_
    simp [-getLsbD_eq_getElem]
  · rw [cpsrRead_v hnew, cpsrRead_v hvalid, writeCached_eq h]
    refine (select_getLsbD _ _ _ _).trans ?_
    simp [-getLsbD_eq_getElem]
  · rw [cpsrRead_q hnew, cpsrRead_q hvalid, writeCached_eq h]
    have hval : decide (val &&& cpsrQ ≠ 0) = val.getLsbD 27 := and_twoPow_ne_zero (by omega) rfl
    refine (select_getLsbD _ _ _ _).trans ?_
    rw [flag_getLsbD, hval]
  · rw [cpsrRead_it01 hnew hj, cpsrRead_it01 hvalid hj, writeCached_eq h]
    have hbyte : (25 + j) / 8 = 3 := by omega
    dsimp only [writeUncached]
    rw [hbyte]
    interval_cases j
    all_goals cases byteOf mask 1 <;> cases byteOf mask 3 <;> simp [-getLsbD_eq_getElem]
  · rw [cpsrRead_ge hnew hj, cpsrRead_ge hvalid hj, writeCached_eq h]
    have hbyte : (16 + j) / 8 = 2 := by omega
    refine (select_getLsbD _ _ _ _).trans ?_
    rw [hbyte]
    interval_cases j
    all_goals simp [-getLsbD_eq_getElem]
  · rw [cpsrRead_it27 hnew hj, cpsrRead_it27 hvalid hj, writeCached_eq h]
    have hbyte : (10 + j) / 8 = 1 := by omega
    dsimp only [writeUncached]
    rw [hbyte]
    interval_cases j
    all_goals cases byteOf mask 1 <;> cases byteOf mask 3 <;> simp [-getLsbD_eq_getElem]
  · rw [cpsrRead_t hnew, cpsrRead_t hvalid, writeCached_eq h]
    have hval : decide (val &&& cpsrT ≠ 0) = val.getLsbD 5 := and_twoPow_ne_zero (by omega) rfl
    refine (select_getLsbD _ _ _ _).trans ?_
    rw [flag_getLsbD, hval]
  · rw [cpsrRead_uncached hnew hi huncached, cpsrRead_uncached hvalid hi huncached]
    simp [-getLsbD_eq_getElem, writeUncached, writeCached, huncached, hi, h i hi]

variable {env' : CPUARMState}

/-- A switch of the mode moves registers only. -/
theorem switchMode_frame {mode : Word} (hswitch : env.switchMode mode = some env') :
    env' = { env with
      regs := env'.regs, spsr := env'.spsr, bankedSpsr := env'.bankedSpsr, bankedR13 := env'.bankedR13
      bankedR14 := env'.bankedR14, usrRegs := env'.usrRegs, fiqRegs := env'.fiqRegs } := by
  unfold switchMode at hswitch
  dsimp only at hswitch
  split at hswitch
  · rw [← Option.some.inj hswitch]
  · split at hswitch
    · rw [← Option.some.inj hswitch]
      split_ifs <;> rfl
    · simp at hswitch

theorem switchMode_cpsrRead {mode : Word} (hswitch : env.switchMode mode = some env') :
    env'.cpsrRead = env.cpsrRead := by
  rw [switchMode_frame hswitch]
  rfl

theorem FlagsValid.switchMode {mode : Word} (hvalid : env.FlagsValid)
    (hswitch : env.switchMode mode = some env') : env'.FlagsValid := by
  rw [switchMode_frame hswitch]
  exact { hvalid with }

end CPUARMState

end Emulator.Arm
