import Emulator.Arm.FlagHelpers

/-!
# The banks of the registers and exceptions (`target-arm/helper.c`, `op_helper.c`)

The code has one set of visible registers, and copies at each switch of the mode. The architecture
has a register for each bank, and a whole status register.

* `CPUARMState.arch`: the machine of the architecture that a state stands for.
* `switchMode_registers`: a switch of the mode loses no register of any bank.
* `run_arch`: every sequence of operations does on it what the architecture does.
* `run_agrees`: so what the code reads is what the architecture has.
-/

namespace Emulator.Arm

open Function Option
open BitVec hiding and_zero not_not zero_and

/-! ## Exceptions and user registers in the code -/

/-- The values of `exception_index` that `do_interrupt` knows; all others end in `cpu_abort`. -/
inductive Exception
  | udef
  | swi
  | prefetchAbort
  | dataAbort
  | irq
  | fiq
  | bkpt
deriving DecidableEq

/-- What `do_interrupt` looks up for an exception. -/
structure Entry where
  newMode : Word
  addr : Word
  mask : Word
  offset : Word

namespace CPUARMState

def exceptionEntry (thumb : Bool) : Exception → Entry
  | .udef => ⟨armCpuModeUnd, 0x04, cpsrI, if thumb then 2 else 4⟩
  | .swi => ⟨armCpuModeSvc, 0x08, cpsrI, 0⟩
  | .bkpt | .prefetchAbort => ⟨armCpuModeAbt, 0x0c, cpsrA ||| cpsrI, 4⟩
  | .dataAbort => ⟨armCpuModeAbt, 0x10, cpsrA ||| cpsrI, 8⟩
  | .irq => ⟨armCpuModeIrq, 0x18, cpsrA ||| cpsrI, 4⟩
  | .fiq => ⟨armCpuModeFiq, 0x1c, cpsrA ||| cpsrI ||| cpsrF, 4⟩

/-- `do_interrupt`, without semihosting and not on the M profile. -/
def doInterrupt (env : CPUARMState) (exceptionIndex : Exception) : Option CPUARMState := do
  let entry := exceptionEntry (env.thumb ≠ 0) exceptionIndex
  let addr := if env.c1Sys &&& 0x2000#32 ≠ 0 then entry.addr + 0xffff0000#32 else entry.addr
  let env ← env.switchMode entry.newMode
  return { env with
    spsr := env.cpsrRead
    condexecBits := 0
    uncachedCpsr := ((env.uncachedCpsr &&& ~~~ cpsrM) ||| entry.newMode) ||| entry.mask
    thumb := 0
    regs := update (update env.regs 14 (env.regs 15 + entry.offset)) 15 addr }

/-- `get_user_reg`, `none` where it reads beyond `usr_regs`. -/
def getUserReg (env : CPUARMState) (regno : Fin 16) : Option Word :=
  if regno = 13 then some (env.bankedR13 0)
  else if regno = 14 then some (env.bankedR14 0)
  else if 8 ≤ regno ∧ env.uncachedCpsr &&& 0x1f#32 = armCpuModeFiq then
    if h : regno.val - 8 < 5 then some (env.usrRegs ⟨regno.val - 8, h⟩) else none
  else some (env.regs regno)

/-- `set_user_reg`. -/
def setUserReg (env : CPUARMState) (regno : Fin 16) (val : Word) : Option CPUARMState :=
  if regno = 13 then some { env with bankedR13 := update env.bankedR13 0 val }
  else if regno = 14 then some { env with bankedR14 := update env.bankedR14 0 val }
  else if 8 ≤ regno ∧ env.uncachedCpsr &&& 0x1f#32 = armCpuModeFiq then
    if h : regno.val - 8 < 5 then
      some { env with usrRegs := update env.usrRegs ⟨regno.val - 8, h⟩ val }
    else none
  else some { env with regs := update env.regs regno val }

end CPUARMState

/-! ## The registers of the architecture -/

inductive Bank
  | usr
  | svc
  | abt
  | und
  | irq
  | fiq
deriving DecidableEq

/-- The index in the arrays of the code. -/
def Bank.index : Bank → Fin 6
  | .usr => 0
  | .svc => 1
  | .abt => 2
  | .und => 3
  | .irq => 4
  | .fiq => 5

theorem Bank.index_injective : Injective Bank.index := by
  intro b c hbc
  cases b <;> cases c <;> first | rfl | simp [Bank.index] at hbc

/-- The bank of a mode. -/
def modeBank (mode : Word) : Option Bank :=
  if mode = armCpuModeUsr ∨ mode = armCpuModeSys then some .usr
  else if mode = armCpuModeSvc then some .svc
  else if mode = armCpuModeAbt then some .abt
  else if mode = armCpuModeUnd then some .und
  else if mode = armCpuModeIrq then some .irq
  else if mode = armCpuModeFiq then some .fiq
  else none

/-- All registers: r8 to r12 for FIQ and for the other modes, r13, r14 and SPSR for each bank. -/
@[ext]
structure Registers where
  low : Fin 8 → Word
  high : Bool → Fin 5 → Word
  r13 : Bank → Word
  r14 : Bank → Word
  spsr : Bank → Word
  pc : Word

namespace Registers

/-- The register `n` as a mode of the bank sees it. -/
def reg (r : Registers) (bank : Bank) (n : Fin 16) : Word :=
  if hlow : n.val < 8 then r.low ⟨n.val, hlow⟩
  else if hhigh : n.val < 13 then r.high (bank = .fiq) ⟨n.val - 8, by omega⟩
  else if n = 13 then r.r13 bank
  else if n = 14 then r.r14 bank
  else r.pc

def setReg (r : Registers) (bank : Bank) (n : Fin 16) (val : Word) : Registers :=
  if hlow : n.val < 8 then { r with low := update r.low ⟨n.val, hlow⟩ val }
  else if hhigh : n.val < 13 then
    { r with
      high := update r.high (bank = .fiq)
        (update (r.high (bank = .fiq)) ⟨n.val - 8, by omega⟩ val) }
  else if n = 13 then { r with r13 := update r.r13 bank val }
  else if n = 14 then { r with r14 := update r.r14 bank val }
  else { r with pc := val }

def setSpsr (r : Registers) (bank : Bank) (val : Word) : Registers :=
  { r with spsr := update r.spsr bank val }

end Registers

/-- The machine of the architecture. -/
structure ArchState where
  cpsr : Word
  regs : Registers
  highVectors : Bool

inductive Op
  | setReg (n : Fin 16) (val : Word)
  | setSpsr (val : Word)
  | cpsrWrite (val mask : Word)
  | interrupt (exceptionIndex : Exception)
  | setUserReg (n : Fin 16) (val : Word)
  | flags (helper : FlagHelper)
  | setQ
  | setGe (ge : BitVec 4)

namespace ArchState

def bank (a : ArchState) : Bank := (modeBank (a.cpsr &&& cpsrM)).getD .usr

/-- An exception: SPSR and r14 of the new mode keep the status and the way back. -/
def interrupt (a : ArchState) (exceptionIndex : Exception) : ArchState :=
  let entry := CPUARMState.exceptionEntry (a.cpsr.getLsbD 5) exceptionIndex
  let bank := (modeBank entry.newMode).getD .usr
  let vector := if a.highVectors then entry.addr + 0xffff0000#32 else entry.addr
  { a with
    cpsr := (a.cpsr &&& ~~~ (cpsrM ||| cpsrT ||| (cpsrIt01 ||| cpsrIt27))) ||| (entry.newMode ||| entry.mask)
    regs := ((a.regs.setSpsr bank a.cpsr).setReg bank 14 (a.regs.pc + entry.offset)).setReg bank 15 vector }

def step (a : ArchState) : Op → ArchState
  | .setReg n val => { a with regs := a.regs.setReg a.bank n val }
  | .setSpsr val => { a with regs := a.regs.setSpsr a.bank val }
  | .cpsrWrite val mask => { a with cpsr := (a.cpsr &&& ~~~ mask) ||| (val &&& mask) }
  | .interrupt exceptionIndex => a.interrupt exceptionIndex
  | .setUserReg n val => { a with regs := a.regs.setReg .usr n val }
  | .flags helper => { a with cpsr := (helper.arch a.cpsr).1 }
  | .setQ => { a with cpsr := a.cpsr ||| cpsrQ }
  | .setGe ge => { a with cpsr := (a.cpsr &&& ~~~ cpsrGe) ||| (ge.setWidth 32 <<< 16) }

/-- Masks of whole bytes, modes that exist, and r0 to r14 of the user from a privileged mode with
other registers (not SYS). -/
def Legal (a : ArchState) : Op → Prop
  | .cpsrWrite val mask =>
      CPUARMState.WholeBytes mask ∧ (CPUARMState.byteOf mask 0 = true → modeBank (val &&& cpsrM) ≠ none)
  | .setUserReg n _ => n ≠ 15 ∧ a.bank ≠ .usr
  | _ => True

def run (a : ArchState) : List Op → ArchState
  | [] => a
  | op :: ops => (a.step op).run ops

/-- Every operation is legal where it is done. -/
def LegalRun (a : ArchState) : List Op → Prop
  | [] => True
  | op :: ops => a.Legal op ∧ (a.step op).LegalRun ops

end ArchState

namespace CPUARMState

/-! ## The machine that a state stands for -/

def step (env : CPUARMState) : Op → Option CPUARMState
  | .setReg n val => some { env with regs := update env.regs n val }
  | .setSpsr val => some { env with spsr := val }
  | .cpsrWrite val mask => env.cpsrWrite val mask
  | .interrupt exceptionIndex => env.doInterrupt exceptionIndex
  | .setUserReg n val => env.setUserReg n val
  | .flags helper => some (helper.run env).1
  | .setQ => some env.setQ
  | .setGe ge => some (env.setGe ge)

def run (env : CPUARMState) : List Op → Option CPUARMState
  | [] => some env
  | op :: ops => (env.step op).bind (·.run ops)

/-- The registers of a state in a mode of the bank. -/
def registers (env : CPUARMState) (bank : Bank) : Registers where
  low := fun n => env.regs ⟨n.val, by omega⟩
  high := update (fun fiq => if fiq then env.fiqRegs else env.usrRegs) (decide (bank = .fiq))
    (highRegs env.regs)
  r13 := update (fun b => env.bankedR13 b.index) bank (env.regs 13)
  r14 := update (fun b => env.bankedR14 b.index) bank (env.regs 14)
  spsr := update (fun b => env.bankedSpsr b.index) bank env.spsr
  pc := env.regs 15

def bank (env : CPUARMState) : Bank := (modeBank (env.uncachedCpsr &&& cpsrM)).getD .usr

/-- **The machine of the architecture.** -/
def arch (env : CPUARMState) : ArchState where
  cpsr := env.cpsrRead
  regs := env.registers env.bank
  highVectors := env.c1Sys &&& 0x2000#32 ≠ 0

/-- The mode exists and the fields have the values of their encodings. -/
structure Valid (env : CPUARMState) : Prop where
  flags : env.FlagsValid
  mode : modeBank (env.uncachedCpsr &&& cpsrM) ≠ none

variable {env : CPUARMState}

theorem bankNumber_eq (mode : Word) : bankNumber mode = (modeBank mode).map Bank.index := by
  unfold bankNumber modeBank
  split_ifs <;> rfl

theorem modeBank_fiq (mode : Word) : modeBank mode = some .fiq ↔ mode = armCpuModeFiq := by
  constructor
  · intro hbank
    unfold modeBank at hbank
    split_ifs at hbank with husr hsvc habt hund hirq hfiq
    · simp at hbank
    · simp at hbank
    · simp at hbank
    · simp at hbank
    · simp at hbank
    · exact hfiq
  · intro hmode
    subst hmode
    decide

/-! ## Registers -/

theorem registers_reg (env : CPUARMState) (bank : Bank) (n : Fin 16) :
    (env.registers bank).reg bank n = env.regs n := by
  unfold Registers.reg registers
  dsimp only
  split_ifs with hlow hhigh h13 h14
  · rfl
  · rw [update_self]
    show env.regs ⟨n.val - 8 + 8, _⟩ = env.regs n
    congr 1
    apply Fin.ext
    dsimp only
    omega
  · rw [update_self, h13]
  · rw [update_self, h14]
  · have h15 : n = 15 := by
      apply Fin.ext
      have h13' : n.val ≠ 13 := fun h => h13 (Fin.ext h)
      have h14' : n.val ≠ 14 := fun h => h14 (Fin.ext h)
      have hlt := n.isLt
      show n.val = 15
      omega
    rw [h15]

variable {n : Fin 16}

theorem highRegs_of_ne (regs : Fin 16 → Word) (hn : ¬ (8 ≤ n.val ∧ n.val < 13)) (val : Word) :
    highRegs (update regs n val) = highRegs regs := by
  funext i
  apply update_of_ne
  intro heq
  have hval : i.val + 8 = n.val := congrArg Fin.val heq
  omega

theorem highRegs_update (regs : Fin 16 → Word) (hlow : 8 ≤ n.val) (hhigh : n.val < 13) (val : Word) :
    highRegs (update regs n val) = update (highRegs regs) ⟨n.val - 8, by omega⟩ val := by
  funext i
  unfold highRegs
  by_cases hi : i.val + 8 = n.val
  · have hin : (⟨i.val + 8, by omega⟩ : Fin 16) = n := Fin.ext hi
    have hii : i = ⟨n.val - 8, by omega⟩ := Fin.ext (show i.val = n.val - 8 by omega)
    rw [hin, ← hii, update_self, update_self]
  · have hin : (⟨i.val + 8, by omega⟩ : Fin 16) ≠ n := fun heq => hi (congrArg Fin.val heq)
    have hii : i ≠ ⟨n.val - 8, by omega⟩ := by
      intro heq
      have hval : i.val = n.val - 8 := congrArg Fin.val heq
      omega
    rw [update_of_ne hin, update_of_ne hii]

theorem low_update (regs : Fin 16 → Word) (hlow : n.val < 8) (val : Word) :
    (fun i : Fin 8 => update regs n val ⟨i.val, by omega⟩) =
      update (fun i : Fin 8 => regs ⟨i.val, by omega⟩) ⟨n.val, hlow⟩ val := by
  funext i
  by_cases hi : i.val = n.val
  · have hin : (⟨i.val, by omega⟩ : Fin 16) = n := Fin.ext hi
    have hii : i = ⟨n.val, hlow⟩ := Fin.ext hi
    rw [hin, ← hii, update_self, update_self]
  · have hin : (⟨i.val, by omega⟩ : Fin 16) ≠ n := fun heq => hi (congrArg Fin.val heq)
    have hii : i ≠ ⟨n.val, hlow⟩ := fun heq => hi (congrArg Fin.val heq)
    rw [update_of_ne hin, update_of_ne hii]

theorem low_of_ne (regs : Fin 16 → Word) (hn : ¬ n.val < 8) (val : Word) :
    (fun i : Fin 8 => update regs n val ⟨i.val, by omega⟩) = fun i : Fin 8 => regs ⟨i.val, by omega⟩ := by
  funext i
  apply update_of_ne
  intro heq
  have hval : i.val = n.val := congrArg Fin.val heq
  omega

theorem registers_setReg (env : CPUARMState) (bank : Bank) (n : Fin 16) (val : Word) :
    ({ env with regs := update env.regs n val } : CPUARMState).registers bank =
      (env.registers bank).setReg bank n val := by
  have hne : ∀ m : Fin 16, n ≠ m → update env.regs n val m = env.regs m :=
    fun m hm => update_of_ne hm.symm _ _
  have hbelow : n.val < 13 → n ≠ 13 ∧ n ≠ 14 ∧ n ≠ 15 := by
    intro hn
    refine ⟨?_, ?_, ?_⟩
    all_goals
      rintro rfl
      exact absurd hn (by decide)
  unfold Registers.setReg registers
  dsimp only
  split_ifs with hlow hhigh h13 h14
  · obtain ⟨h13, h14, h15⟩ := hbelow (by omega)
    rw [low_update _ hlow, highRegs_of_ne _ (by omega), hne 13 h13, hne 14 h14, hne 15 h15]
  · obtain ⟨h13, h14, h15⟩ := hbelow hhigh
    rw [low_of_ne _ hlow, highRegs_update _ (by omega) hhigh, hne 13 h13, hne 14 h14, hne 15 h15]
    simp only [update_self, update_idem]
  · subst h13
    rw [low_of_ne _ hlow, highRegs_of_ne _ (by omega), hne 14 (by decide), hne 15 (by decide), update_self]
    simp only [update_idem]
  · subst h14
    rw [low_of_ne _ hlow, highRegs_of_ne _ (by omega), hne 13 (by decide), hne 15 (by decide), update_self]
    simp only [update_idem]
  · have h15 : n = 15 := by
      apply Fin.ext
      have h13' : n.val ≠ 13 := fun h => h13 (Fin.ext h)
      have h14' : n.val ≠ 14 := fun h => h14 (Fin.ext h)
      have hlt := n.isLt
      show n.val = 15
      omega
    subst h15
    rw [low_of_ne _ hlow, highRegs_of_ne _ (by omega), hne 13 (by decide), hne 14 (by decide), update_self]

theorem registers_setSpsr (env : CPUARMState) (bank : Bank) (val : Word) :
    ({ env with spsr := val } : CPUARMState).registers bank = (env.registers bank).setSpsr bank val := by
  unfold Registers.setSpsr registers
  simp only [update_idem]

theorem copyHigh_highRegs (regs : Fin 16 → Word) (bank : Fin 5 → Word) : highRegs (copyHigh regs bank) = bank := by
  funext i
  have hin : 8 ≤ i.val + 8 ∧ i.val + 8 < 13 := by omega
  simp only [highRegs, copyHigh, dif_pos hin, Nat.add_sub_cancel]

theorem copyHigh_of_ne (regs : Fin 16 → Word) (bank : Fin 5 → Word) (hn : ¬ (8 ≤ n.val ∧ n.val < 13)) :
    copyHigh regs bank n = regs n := by
  simp only [copyHigh, dif_neg hn]

theorem copyHigh_low (regs : Fin 16 → Word) (bank : Fin 5 → Word) :
    (fun i : Fin 8 => copyHigh regs bank ⟨i.val, by omega⟩) = fun i : Fin 8 => regs ⟨i.val, by omega⟩ := by
  funext i
  apply copyHigh_of_ne
  dsimp only
  omega

/-- The banks of a pair of modes after the registers r13, r14 and SPSR went to one and came from the other. -/
theorem update_bank {α : Type} (banked : Fin 6 → α) (old new : Bank) (val : α) :
    update (fun b : Bank => update banked old.index val b.index) new
        (update banked old.index val new.index) =
      update (fun b : Bank => banked b.index) old val := by
  have hinner : ∀ c : Bank, update banked old.index val c.index =
      update (fun b : Bank => banked b.index) old val c := by
    intro c
    by_cases hc : c = old
    · rw [hc, update_self, update_self]
    · rw [update_of_ne hc, update_of_ne (fun heq => hc (Bank.index_injective heq))]
  funext b
  by_cases hb : b = new
  · rw [hb, update_self, hinner]
  · rw [update_of_ne hb, hinner]

/-- The registers after r13, r14 and SPSR went to the bank `old` and came from the bank `new`. -/
theorem moved_registers (old new : Bank) :
    ({ env with
        bankedR13 := update env.bankedR13 old.index (env.regs 13)
        bankedR14 := update env.bankedR14 old.index (env.regs 14)
        bankedSpsr := update env.bankedSpsr old.index env.spsr
        regs := update
          (update env.regs 13 (update env.bankedR13 old.index (env.regs 13) new.index))
          14 (update env.bankedR14 old.index (env.regs 14) new.index)
        spsr := update env.bankedSpsr old.index env.spsr new.index } : CPUARMState).registers new =
      { env.registers old with
        high := update (fun fiq => if fiq then env.fiqRegs else env.usrRegs) (decide (new = .fiq))
          (highRegs env.regs) } := by
  have hne : ¬ (8 ≤ (14 : Fin 16).val ∧ (14 : Fin 16).val < 13) := by decide
  have hne' : ¬ (8 ≤ (13 : Fin 16).val ∧ (13 : Fin 16).val < 13) := by decide
  unfold registers
  dsimp only
  rw [low_of_ne _ (by decide), low_of_ne _ (by decide), highRegs_of_ne _ hne, highRegs_of_ne _ hne',
    update_self, update_of_ne (show (13 : Fin 16) ≠ 14 by decide), update_self,
    update_of_ne (show (15 : Fin 16) ≠ 14 by decide),
      update_of_ne (show (15 : Fin 16) ≠ 13 by decide),
    update_bank, update_bank, update_bank]

/-- **A switch of the mode loses no register of any bank.** -/
theorem switchMode_registers {mode : Word} {old new : Bank} (hold : modeBank (env.uncachedCpsr &&& cpsrM) = some old)
    (hnew : modeBank mode = some new) :
    ∃ env', env.switchMode mode = some env' ∧ env'.registers new = env.registers old := by
  have hold' := bankNumber_eq (env.uncachedCpsr &&& cpsrM)
  have hnew' := bankNumber_eq mode
  rw [hold] at hold'
  rw [hnew] at hnew'
  unfold switchMode
  dsimp only
  rw [hold', hnew']
  split_ifs with hsame hfromFiq htoFiq
  · rw [← hsame, hnew] at hold
    exact ⟨env, rfl, by rw [Option.some.inj hold]⟩
  · -- FIQ is left: its high registers go to `fiq_regs`
    rw [(modeBank_fiq _).mpr hfromFiq] at hold
    obtain rfl := Option.some.inj hold
    have hne : new ≠ .fiq := by
      intro heq
      rw [heq, modeBank_fiq] at hnew
      exact hsame (hnew.trans hfromFiq.symm)
    refine ⟨_, rfl, ?_⟩
    refine (moved_registers .fiq new).trans ?_
    rw [decide_eq_false hne, copyHigh_highRegs]
    unfold registers
    dsimp only
    rw [copyHigh_low, copyHigh_of_ne _ _ (by decide), copyHigh_of_ne _ _ (by decide), copyHigh_of_ne _ _ (by decide)]
    congr 1
    funext fiq
    cases fiq <;> rfl
  · -- FIQ is entered: the high registers of the other modes go to `usr_regs`
    rw [(modeBank_fiq _).mpr htoFiq] at hnew
    obtain rfl := Option.some.inj hnew
    have hne : old ≠ .fiq := by
      intro heq
      rw [heq, modeBank_fiq] at hold
      exact hfromFiq hold
    refine ⟨_, rfl, ?_⟩
    refine (moved_registers old .fiq).trans ?_
    rw [copyHigh_highRegs]
    unfold registers
    dsimp only
    rw [copyHigh_low, copyHigh_of_ne _ _ (by decide), copyHigh_of_ne _ _ (by decide), copyHigh_of_ne _ _ (by decide),
      decide_eq_false hne]
    congr 1
    funext fiq
    cases fiq <;> rfl
  · have hne : old ≠ .fiq := by
      intro heq
      rw [heq, modeBank_fiq] at hold
      exact hfromFiq hold
    have hne' : new ≠ .fiq := by
      intro heq
      rw [heq, modeBank_fiq] at hnew
      exact htoFiq hnew
    refine ⟨_, rfl, ?_⟩
    refine (moved_registers old new).trans ?_
    rw [decide_eq_false hne']
    unfold registers
    rw [decide_eq_false hne]

/-! ## Operations -/

theorem cpsrRead_mode (hvalid : env.FlagsValid) : env.cpsrRead &&& cpsrM = env.uncachedCpsr &&& cpsrM := by
  apply eq_of_getLsbD_eq
  intro i hi
  rw [getLsbD_and, getLsbD_and]
  have hmask : ∀ i < 32, cpsrM.getLsbD i = true → cachedCpsrBits.getLsbD i = false := by decide
  cases hbit : cpsrM.getLsbD i
  · simp
  · rw [cpsrRead_uncached hvalid hi (hmask i hi hbit)]

theorem Valid.modeBank_eq (hvalid : env.Valid) : modeBank (env.uncachedCpsr &&& cpsrM) = some env.bank := by
  obtain ⟨bank, hbank⟩ := ne_none_iff_exists'.mp hvalid.mode
  unfold CPUARMState.bank
  rw [hbank]
  rfl

theorem Valid.arch_bank (hvalid : env.Valid) : env.arch.bank = env.bank := by
  unfold ArchState.bank arch bank
  rw [cpsrRead_mode hvalid.flags]

variable {bank : Bank}

/-- A state stands for what its register and its bank say. -/
theorem arch_of_mode (hvalid : env.FlagsValid) (hmode : modeBank (env.cpsrRead &&& cpsrM) = some bank) :
    env.Valid ∧ env.arch = ⟨env.cpsrRead, env.registers bank, decide (env.c1Sys &&& 0x2000#32 ≠ 0)⟩ := by
  rw [cpsrRead_mode hvalid] at hmode
  have hbank : env.bank = bank := by
    unfold CPUARMState.bank
    rw [hmode]
    rfl
  refine ⟨⟨hvalid, ?_⟩, ?_⟩
  · rw [hmode]
    simp
  · unfold arch
    rw [hbank]

theorem step_setReg (hvalid : env.Valid) (n : Fin 16) (val : Word) :
    ∃ env', env.step (.setReg n val) = some env' ∧ env'.Valid ∧ env'.arch = env.arch.step (.setReg n val) := by
  refine ⟨{ env with regs := update env.regs n val }, rfl, ⟨{ hvalid.flags with }, hvalid.mode⟩, ?_⟩
  have hregs := registers_setReg env env.bank n val
  simp only [ArchState.step, hvalid.arch_bank]
  unfold arch
  exact congrArg (ArchState.mk _ · _) hregs

theorem step_setSpsr (hvalid : env.Valid) (val : Word) :
    ∃ env', env.step (.setSpsr val) = some env' ∧ env'.Valid ∧ env'.arch = env.arch.step (.setSpsr val) := by
  refine ⟨{ env with spsr := val }, rfl, ⟨{ hvalid.flags with }, hvalid.mode⟩, ?_⟩
  have hregs := registers_setSpsr env env.bank val
  simp only [ArchState.step, hvalid.arch_bank]
  unfold arch
  exact congrArg (ArchState.mk _ · _) hregs

/-- A write of fields of the status that leaves the mode. -/
theorem step_status {env' : CPUARMState} {cpsr : Word} (hvalid : env.Valid) (hflags : env'.FlagsValid)
    (hregs : ∀ bank, env'.registers bank = env.registers bank) (hmode : env'.uncachedCpsr = env.uncachedCpsr)
    (hc1 : env'.c1Sys = env.c1Sys) (hread : env'.cpsrRead = cpsr) :
    env'.Valid ∧ env'.arch = { env.arch with cpsr := cpsr } := by
  refine ⟨⟨hflags, ?_⟩, ?_⟩
  · rw [hmode]
    exact hvalid.mode
  · unfold arch bank
    rw [hmode, hregs, hc1, hread]

theorem step_flags (hvalid : env.Valid) (helper : FlagHelper) :
    ∃ env', env.step (.flags helper) = some env' ∧ env'.Valid ∧ env'.arch = env.arch.step (.flags helper) := by
  refine ⟨_, rfl, ?_⟩
  have hframe := FlagHelper.run_frame env helper
  apply step_status hvalid (hvalid.flags.run helper)
  · intro bank
    rw [hframe]
    rfl
  · rw [hframe]
  · rw [hframe]
  · exact congrArg Prod.fst (FlagHelper.run_arch hvalid.flags helper)

theorem step_setQ (hvalid : env.Valid) :
    ∃ env', env.step .setQ = some env' ∧ env'.Valid ∧ env'.arch = env.arch.step .setQ := by
  refine ⟨_, rfl, ?_⟩
  exact step_status hvalid hvalid.flags.setQ (fun _ => rfl) rfl rfl (cpsrRead_setQ hvalid.flags)

theorem step_setGe (hvalid : env.Valid) (ge : BitVec 4) :
    ∃ env', env.step (.setGe ge) = some env' ∧ env'.Valid ∧ env'.arch = env.arch.step (.setGe ge) := by
  refine ⟨_, rfl, ?_⟩
  exact step_status hvalid (hvalid.flags.setGe ge) (fun _ => rfl) rfl rfl (cpsrRead_setGe hvalid.flags ge)

/-- The mode bits of a mask of whole bytes are the bits of its first byte. -/
theorem WholeBytes.and_mode {mask : Word} (h : WholeBytes mask) :
    mask &&& cpsrM = if byteOf mask 0 then cpsrM else 0 := by
  apply eq_of_getLsbD_eq
  intro i hi
  have hmode : ∀ i < 32, cpsrM.getLsbD i = true → i / 8 = 0 := by decide
  rw [getLsbD_and, h i hi]
  cases hbit : cpsrM.getLsbD i
  · cases byteOf mask 0 <;> simp [hbit]
  · rw [hmode i hi hbit]
    cases byteOf mask 0 <;> simp [hbit]

theorem WholeBytes.mode {mask : Word} (h : WholeBytes mask) (cpsr val : Word) :
    ((cpsr &&& ~~~ mask) ||| (val &&& mask)) &&& cpsrM =
      if byteOf mask 0 then val &&& cpsrM else cpsr &&& cpsrM := by
  apply eq_of_getLsbD_eq
  intro i hi
  have hmode : ∀ i < 32, cpsrM.getLsbD i = true → i / 8 = 0 := by decide
  simp only [getLsbD_and, getLsbD_or, getLsbD_not, hi, decide_true, Bool.true_and, h i hi]
  cases hbit : cpsrM.getLsbD i
  · cases byteOf mask 0 <;> simp [hbit]
  · rw [hmode i hi hbit]
    cases byteOf mask 0 <;> simp [hbit]

theorem xor_and_eq_zero {x y m : Word} (h : (x ^^^ y) &&& m = 0) : x &&& m = y &&& m := by
  apply eq_of_getLsbD_eq
  intro i hi
  have hbit := congrArg (BitVec.getLsbD · i) h
  simp only [getLsbD_and, getLsbD_xor] at hbit ⊢
  cases hx : x.getLsbD i <;> cases hy : y.getLsbD i <;> cases hm : m.getLsbD i <;> simp [hx, hy, hm] at hbit ⊢

/-- **`cpsr_write`.** -/
theorem cpsrWrite_arch (hvalid : env.Valid) {val mask : Word} (h : WholeBytes mask)
    (hmode : byteOf mask 0 = true → modeBank (val &&& cpsrM) ≠ none) :
    ∃ env', env.cpsrWrite val mask = some env' ∧ env'.Valid ∧
      env'.arch = { env.arch with cpsr := (env.arch.cpsr &&& ~~~ mask) ||| (val &&& mask) } := by
  have hcached := @FlagsValid.writeCached _ hvalid.flags val _ h
  have hwritten := @cpsrRead_write _ hvalid.flags val _ h
  have hmask := h.and_mode
  have hnewMode := h.mode env.cpsrRead val
  unfold cpsrWrite
  simp only [bind_eq_bind, pure_def]
  by_cases hswitch : ((env.writeCached val mask).uncachedCpsr ^^^ val) &&& mask &&& cpsrM ≠ 0
  · -- the mode changes: its byte is in the mask
    have hbyte : byteOf mask 0 = true := by
      by_contra hbyte
      rw [if_neg hbyte] at hmask
      apply hswitch
      rw [BitVec.and_assoc, hmask]
      exact BitVec.and_zero
    rw [if_pos hbyte] at hnewMode
    obtain ⟨new, hnew⟩ := ne_none_iff_exists'.mp (hmode hbyte)
    obtain ⟨env1, henv1, hregs⟩ := @switchMode_registers (env.writeCached val mask) _ _ _ hvalid.modeBank_eq hnew
    rw [if_pos hswitch, henv1]
    have hframe := switchMode_frame henv1
    have hread : (env1.writeUncached val mask).cpsrRead = (env.cpsrRead &&& ~~~ mask) ||| (val &&& mask) := by
      rw [← hwritten, hframe]
      rfl
    have hc1 : env1.c1Sys = env.c1Sys := by
      rw [hframe]
      rfl
    have hbank : modeBank ((env1.writeUncached val mask).cpsrRead &&& cpsrM) = some new := by
      rw [hread, hnewMode, hnew]
    obtain ⟨hvalid', harch⟩ := arch_of_mode ((hcached.switchMode henv1).writeUncached val mask) hbank
    refine ⟨_, rfl, hvalid', ?_⟩
    rw [harch, hread]
    unfold arch
    refine congrArg₂ (ArchState.mk _) hregs ?_
    show decide (env1.c1Sys &&& _ ≠ 0) = _
    rw [hc1]
  · -- the mode stays
    rw [not_not] at hswitch
    have hsame : ((env.cpsrRead &&& ~~~ mask) ||| (val &&& mask)) &&& cpsrM = env.uncachedCpsr &&& cpsrM := by
      rw [hnewMode]
      split_ifs with hbyte
      · rw [if_pos hbyte] at hmask
        rw [BitVec.and_assoc, hmask] at hswitch
        exact (xor_and_eq_zero hswitch).symm
      · exact cpsrRead_mode hvalid.flags
    rw [if_neg (not_not_intro hswitch)]
    have hbank : modeBank (((env.writeCached val mask).writeUncached val mask).cpsrRead &&& cpsrM) = some env.bank := by
      rw [hwritten, hsame]
      exact hvalid.modeBank_eq
    obtain ⟨hvalid', harch⟩ := arch_of_mode (hcached.writeUncached val mask) hbank
    refine ⟨_, rfl, hvalid', ?_⟩
    rw [harch, hwritten]
    rfl

theorem cpsrRead_enter (hvalid : env.FlagsValid) {bits : Word} (hbits : bits &&& cachedCpsrBits = 0) :
    let env' : CPUARMState := { env with
      condexecBits := 0, uncachedCpsr := (env.uncachedCpsr &&& ~~~ cpsrM) ||| bits, thumb := 0 }
    env'.FlagsValid ∧
      env'.cpsrRead = (env.cpsrRead &&& ~~~ (cpsrM ||| cpsrT ||| (cpsrIt01 ||| cpsrIt27))) ||| bits := by
  intro env'
  have hout : ∀ i, cachedCpsrBits.getLsbD i = true → bits.getLsbD i = false := by
    intro i hi
    have hbit := congrArg (BitVec.getLsbD · i) hbits
    simpa [-getLsbD_eq_getElem, hi] using hbit
  have hvalid' : env'.FlagsValid := by
    refine { hvalid with uncached := ?_, thumb := .inl rfl, condexecBits := BitVec.zero_and }
    apply eq_of_getLsbD_eq
    intro i hi
    cases hcached : cachedCpsrBits.getLsbD i
    · simp [-getLsbD_eq_getElem, hcached]
    · simp [-getLsbD_eq_getElem, env', hcached, getLsbD_uncached hvalid hcached, hout i hcached]
  refine ⟨hvalid', ?_⟩
  apply eq_of_getLsbD_eq
  intro i hi
  simp only [getLsbD_or, getLsbD_and, getLsbD_not, hi, decide_true, Bool.true_and]
  have hcase : ∀ i < 32, i = 31 ∨ i = 30 ∨ i = 29 ∨ i = 28 ∨ i = 27 ∨ (∃ j < 2, i = 25 + j) ∨ (∃ j < 4, i = 16 + j) ∨
      (∃ j < 6, i = 10 + j) ∨ i = 5 ∨ cachedCpsrBits.getLsbD i = false := by decide
  -- the bits that the entry clears
  have hclear : ∀ i < 32, (cpsrM.getLsbD i || cpsrT.getLsbD i || (cpsrIt01.getLsbD i || cpsrIt27.getLsbD i)) =
      decide (i < 6 ∨ (10 ≤ i ∧ i < 16) ∨ i = 25 ∨ i = 26) := by decide
  rw [hclear i hi]
  rcases hcase i hi with rfl | rfl | rfl | rfl | rfl | ⟨j, hj, rfl⟩ | ⟨j, hj, rfl⟩ | ⟨j, hj, rfl⟩ | rfl | huncached
  · rw [cpsrRead_n hvalid', cpsrRead_n hvalid, hout 31 rfl]
    simp [-getLsbD_eq_getElem, env']
  · rw [cpsrRead_z hvalid', cpsrRead_z hvalid, hout 30 rfl]
    simp [env']
  · rw [cpsrRead_c hvalid', cpsrRead_c hvalid, hout 29 rfl]
    simp [-getLsbD_eq_getElem, env']
  · rw [cpsrRead_v hvalid', cpsrRead_v hvalid, hout 28 rfl]
    simp [-getLsbD_eq_getElem, env']
  · rw [cpsrRead_q hvalid', cpsrRead_q hvalid, hout 27 rfl]
    simp [-getLsbD_eq_getElem, env']
  · have hbits' : ∀ j < 2, cachedCpsrBits.getLsbD (25 + j) = true := by decide
    have hrange : 25 + j < 6 ∨ (10 ≤ 25 + j ∧ 25 + j < 16) ∨ 25 + j = 25 ∨ 25 + j = 26 := by omega
    rw [cpsrRead_it01 hvalid' hj, hout _ (hbits' j hj), decide_eq_true hrange]
    simp [env']
  · have hbits' : ∀ j < 4, cachedCpsrBits.getLsbD (16 + j) = true := by decide
    have hrange : ¬ (16 + j < 6 ∨ (10 ≤ 16 + j ∧ 16 + j < 16) ∨ 16 + j = 25 ∨ 16 + j = 26) := by omega
    rw [cpsrRead_ge hvalid' hj, cpsrRead_ge hvalid hj, hout _ (hbits' j hj), decide_eq_false hrange]
    simp [-getLsbD_eq_getElem, env']
  · have hbits' : ∀ j < 6, cachedCpsrBits.getLsbD (10 + j) = true := by decide
    have hrange : 10 + j < 6 ∨ (10 ≤ 10 + j ∧ 10 + j < 16) ∨ 10 + j = 25 ∨ 10 + j = 26 := by omega
    rw [cpsrRead_it27 hvalid' hj, hout _ (hbits' j hj), decide_eq_true hrange]
    simp [env']
  · rw [cpsrRead_t hvalid', hout 5 rfl]
    simp [env']
  · have hmode : ∀ i < 32, cachedCpsrBits.getLsbD i = false →
        cpsrM.getLsbD i = decide (i < 6 ∨ (10 ≤ i ∧ i < 16) ∨ i = 25 ∨ i = 26) := by decide
    rw [cpsrRead_uncached hvalid' hi huncached, cpsrRead_uncached hvalid hi huncached, ← hmode i hi huncached]
    simp [-getLsbD_eq_getElem, env', hi]

theorem thumb_ne_zero (hvalid : env.FlagsValid) : decide (env.thumb ≠ 0) = env.cpsrRead.getLsbD 5 := by
  rw [cpsrRead_t hvalid]
  rcases hvalid.thumb with hthumb | hthumb
  · rw [hthumb]
    rfl
  · rw [hthumb]
    rfl

/-- The mode of an exception is in its bits, and they are none of the cached ones. -/
theorem exceptionEntry_mode (thumb : Bool) (exceptionIndex : Exception) :
    let entry := exceptionEntry thumb exceptionIndex
    modeBank entry.newMode ≠ none ∧ (entry.newMode ||| entry.mask) &&& cachedCpsrBits = 0 ∧
      (entry.newMode ||| entry.mask) &&& cpsrM = entry.newMode := by
  cases thumb <;> cases exceptionIndex <;> decide

/-- The registers after an exception into the bank. -/
theorem registers_enter (bank : Bank) (cpsr pc vector : Word) :
    ({ env with
        spsr := cpsr
        regs := update (update env.regs 14 pc) 15 vector } : CPUARMState).registers bank =
      (((env.registers bank).setSpsr bank cpsr).setReg bank 14 pc).setReg bank 15 vector := by
  rw [← registers_setSpsr, ← registers_setReg, ← registers_setReg]

theorem enter_mode (cpsr other bits : Word) :
    ((cpsr &&& ~~~ (cpsrM ||| other ||| (cpsrIt01 ||| cpsrIt27))) ||| bits) &&& cpsrM = bits &&& cpsrM := by
  apply eq_of_getLsbD_eq
  intro i hi
  simp only [getLsbD_and, getLsbD_or, getLsbD_not]
  cases cpsrM.getLsbD i <;> simp [-getLsbD_eq_getElem]

/-- **`do_interrupt`.** -/
theorem doInterrupt_arch (hvalid : env.Valid) (exceptionIndex : Exception) :
    ∃ env', env.doInterrupt exceptionIndex = some env' ∧ env'.Valid ∧
      env'.arch = env.arch.interrupt exceptionIndex ∧ env'.spsr = env.cpsrRead ∧
      env'.uncachedCpsr &&& cpsrM = (exceptionEntry (env.thumb ≠ 0) exceptionIndex).newMode := by
  have hthumb := thumb_ne_zero hvalid.flags
  unfold doInterrupt ArchState.interrupt
  rw [hthumb]
  have hread : env.arch.cpsr = env.cpsrRead := rfl
  rw [hread]
  obtain ⟨hne, hcached, hmode⟩ := exceptionEntry_mode (env.cpsrRead.getLsbD 5) exceptionIndex
  set entry := exceptionEntry (env.cpsrRead.getLsbD 5) exceptionIndex
  obtain ⟨new, hnew⟩ := ne_none_iff_exists'.mp hne
  obtain ⟨env1, henv1, hregs⟩ := switchMode_registers hvalid.modeBank_eq hnew
  have hframe := switchMode_frame henv1
  have hread1 := switchMode_cpsrRead henv1
  have hflags1 := hvalid.flags.switchMode henv1
  obtain ⟨hflags2, hread2⟩ := cpsrRead_enter hflags1 hcached
  have hc1 : env1.c1Sys = env.c1Sys := by
    rw [hframe]
  have hpc : env1.regs 15 = env.arch.regs.pc := congrArg Registers.pc hregs
  simp only [bind_eq_bind, pure_def, henv1, bind_some, hnew, getD_some]
  rw [BitVec.or_assoc, hread1, hpc]
  set vector := if env.c1Sys &&& 0x2000#32 ≠ 0 then entry.addr + 0xffff0000#32 else entry.addr with hvector
  have hregs2 := @registers_enter env1 new env.cpsrRead (env.arch.regs.pc + entry.offset) vector
  set env' : CPUARMState := { env1 with
    spsr := env.cpsrRead
    condexecBits := 0
    uncachedCpsr := (env1.uncachedCpsr &&& ~~~ cpsrM) ||| (entry.newMode ||| entry.mask)
    thumb := 0
    regs := update (update env1.regs 14 (env.arch.regs.pc + entry.offset)) 15 vector } with henv'
  have hflags' : env'.FlagsValid := { hflags2 with }
  have hread' : env'.cpsrRead =
      (env.cpsrRead &&& ~~~ (cpsrM ||| cpsrT ||| (cpsrIt01 ||| cpsrIt27))) ||| (entry.newMode ||| entry.mask) := by
    rw [← hread1]
    exact hread2
  have hbank : modeBank (env'.cpsrRead &&& cpsrM) = some new := by
    rw [hread', enter_mode, hmode, hnew]
  obtain ⟨hvalid', harch⟩ := arch_of_mode hflags' hbank
  refine ⟨env', rfl, hvalid', ?_, rfl, ?_⟩
  swap
  · rw [← cpsrRead_mode hflags', hread', enter_mode, hmode]
  have hhigh : env.arch.highVectors = decide (env.c1Sys &&& 0x2000#32 ≠ 0) := rfl
  have hvector' : (if env.arch.highVectors = true then entry.addr + 0xffff0000#32 else entry.addr) = vector := by
    rw [hhigh, hvector]
    simp only [decide_eq_true_eq]
  have hregs' : env'.registers new =
      ((env.arch.regs.setSpsr new env.cpsrRead).setReg new 14 (env.arch.regs.pc + entry.offset)).setReg new 15 vector :=
    hregs2.trans (by rw [hregs]; rfl)
  have hc1' : decide (env'.c1Sys &&& 0x2000#32 ≠ 0) = env.arch.highVectors := by
    rw [hhigh, ← hc1]
  rw [harch, hread', hregs', hc1', hvector']

theorem mode_fiq (hvalid : env.Valid) : env.uncachedCpsr &&& 0x1f#32 = armCpuModeFiq ↔ env.bank = .fiq := by
  have hbank := hvalid.modeBank_eq
  constructor
  · intro hmode
    rw [show env.uncachedCpsr &&& cpsrM = armCpuModeFiq from hmode, (modeBank_fiq _).mpr rfl] at hbank
    exact (Option.some.inj hbank).symm
  · intro hfiq
    rw [hfiq] at hbank
    exact (modeBank_fiq _).mp hbank

/-- A register of the user that is kept in its bank, from another bank. -/
theorem update_usr {α : Type} (banked : Fin 6 → α) (hbank : bank ≠ .usr) (x val : α) :
    update (fun b : Bank => update banked 0 val b.index) bank x =
      update (update (fun b : Bank => banked b.index) bank x) .usr val := by
  rw [update_comm hbank]
  congr 1
  funext b
  by_cases hb : b = .usr
  · rw [hb, update_self]
    exact update_self _ _ _
  · rw [update_of_ne hb]
    exact update_of_ne (fun heq => hb (Bank.index_injective heq)) _ _

theorem setReg_usr {r : Registers} (hn : n.val < 13) (hbank : n.val < 8 ∨ bank ≠ .fiq)
    (val : Word) : r.setReg bank n val = r.setReg .usr n val := by
  by_cases hlow : n.val < 8
  · simp only [Registers.setReg, dif_pos hlow]
  · have hfiq : decide (bank = .fiq) = decide (Bank.usr = .fiq) := by
      rw [decide_eq_false (hbank.resolve_left hlow), decide_eq_false (by decide)]
    simp only [Registers.setReg, dif_neg hlow, dif_pos hn, hfiq]

theorem reg_usr {r : Registers} (hn : n.val < 13) (hbank : n.val < 8 ∨ bank ≠ .fiq) :
    r.reg bank n = r.reg .usr n := by
  by_cases hlow : n.val < 8
  · simp only [Registers.reg, dif_pos hlow]
  · have hfiq : decide (bank = .fiq) = decide (Bank.usr = .fiq) := by
      rw [decide_eq_false (hbank.resolve_left hlow), decide_eq_false (by decide)]
    simp only [Registers.reg, dif_neg hlow, dif_pos hn, hfiq]

theorem below_13 (h13 : n ≠ 13) (h14 : n ≠ 14) (h15 : n ≠ 15) : n.val < 13 := by
  have hlt := n.isLt
  have h13' : n.val ≠ 13 := fun h => h13 (Fin.ext h)
  have h14' : n.val ≠ 14 := fun h => h14 (Fin.ext h)
  have h15' : n.val ≠ 15 := fun h => h15 (Fin.ext h)
  omega

theorem notFiq_or_low (hvalid : env.Valid)
    (hfiq : ¬ (8 ≤ n ∧ env.uncachedCpsr &&& 0x1f#32 = armCpuModeFiq)) : n.val < 8 ∨ env.bank ≠ .fiq := by
  rw [mode_fiq hvalid, not_and_or] at hfiq
  exact hfiq.imp_left fun h => not_le.mp h

theorem high_usr (hbank : env.bank = .fiq) : env.arch.regs.high (decide (Bank.usr = .fiq)) = env.usrRegs := by
  unfold arch registers
  dsimp only
  rw [hbank]
  rfl

/-- **`set_user_reg`.** -/
theorem setUserReg_arch (hvalid : env.Valid) (hn : n ≠ 15) (hbank : env.bank ≠ .usr) (val : Word) :
    ∃ env', env.setUserReg n val = some env' ∧ env'.Valid ∧
      env'.arch = { env.arch with regs := env.arch.regs.setReg .usr n val } := by
  unfold setUserReg
  split_ifs with h13 h14 hfiq hin
  · refine ⟨_, rfl, ⟨{ hvalid.flags with }, hvalid.mode⟩, ?_⟩
    subst h13
    refine congrArg (ArchState.mk _ · _) ?_
    refine Registers.ext rfl rfl ?_ rfl rfl rfl
    exact update_usr env.bankedR13 hbank (env.regs 13) val
  · refine ⟨_, rfl, ⟨{ hvalid.flags with }, hvalid.mode⟩, ?_⟩
    subst h14
    refine congrArg (ArchState.mk _ · _) ?_
    refine Registers.ext rfl rfl rfl ?_ rfl rfl
    exact update_usr env.bankedR14 hbank (env.regs 14) val
  · refine ⟨_, rfl, ⟨{ hvalid.flags with }, hvalid.mode⟩, ?_⟩
    have hbankFiq : env.bank = .fiq := (mode_fiq hvalid).mp hfiq.2
    refine congrArg (ArchState.mk _ · _) ?_
    have hlow : ¬ n.val < 8 := not_lt.mpr hfiq.1
    unfold Registers.setReg
    rw [dif_neg hlow, dif_pos (below_13 h13 h14 hn)]
    refine Registers.ext rfl ?_ rfl rfl rfl rfl
    dsimp only
    rw [high_usr hbankFiq]
    show update _ (decide (env.bank = .fiq)) _ =
      update (update _ (decide (env.bank = .fiq)) _) _ _
    rw [hbankFiq]
    funext fiq
    cases fiq <;> rfl
  · exact absurd (below_13 h13 h14 hn) (by omega)
  · refine ⟨_, rfl, ⟨{ hvalid.flags with }, hvalid.mode⟩, ?_⟩
    refine congrArg (ArchState.mk _ · _) ?_
    refine (registers_setReg env env.bank n val).trans ?_
    exact setReg_usr (below_13 h13 h14 hn) (notFiq_or_low hvalid hfiq) val

/-- **`get_user_reg`.** -/
theorem getUserReg_arch (hvalid : env.Valid) (hn : n ≠ 15) (hbank : env.bank ≠ .usr) :
    env.getUserReg n = some (env.arch.regs.reg .usr n) := by
  unfold getUserReg
  split_ifs with h13 h14 hfiq hin
  · subst h13
    have hbanked : env.arch.regs.r13 .usr = env.bankedR13 0 := by
      unfold arch registers
      dsimp only
      rw [update_of_ne hbank.symm]
      rfl
    exact congrArg some hbanked.symm
  · subst h14
    have hbanked : env.arch.regs.r14 .usr = env.bankedR14 0 := by
      unfold arch registers
      dsimp only
      rw [update_of_ne hbank.symm]
      rfl
    exact congrArg some hbanked.symm
  · have hbankFiq : env.bank = .fiq := (mode_fiq hvalid).mp hfiq.2
    have hlow : ¬ n.val < 8 := not_lt.mpr hfiq.1
    unfold Registers.reg
    rw [dif_neg hlow, dif_pos (below_13 h13 h14 hn), high_usr hbankFiq]
  · exact absurd (below_13 h13 h14 hn) (by omega)
  · rw [← reg_usr (below_13 h13 h14 hn) (notFiq_or_low hvalid hfiq)]
    exact congrArg some (registers_reg env env.bank n).symm

/-- **One operation.** -/
theorem step_arch (hvalid : env.Valid) {op : Op} (hlegal : env.arch.Legal op) :
    ∃ env', env.step op = some env' ∧ env'.Valid ∧ env'.arch = env.arch.step op := by
  cases op with
  | setReg n val => exact step_setReg hvalid n val
  | setSpsr val => exact step_setSpsr hvalid val
  | cpsrWrite val mask => exact cpsrWrite_arch hvalid hlegal.1 hlegal.2
  | interrupt exceptionIndex =>
    obtain ⟨env', henv', hvalid', harch, -, -⟩ := doInterrupt_arch hvalid exceptionIndex
    exact ⟨env', henv', hvalid', harch⟩
  | setUserReg n val =>
    have hbank := hlegal.2
    rw [hvalid.arch_bank] at hbank
    exact setUserReg_arch hvalid hlegal.1 hbank val
  | flags helper => exact step_flags hvalid helper
  | setQ => exact step_setQ hvalid
  | setGe ge => exact step_setGe hvalid ge

/-- **Every sequence of operations.** -/
theorem run_arch (hvalid : env.Valid) {ops : List Op} (hlegal : env.arch.LegalRun ops) :
    ∃ env', env.run ops = some env' ∧ env'.Valid ∧ env'.arch = env.arch.run ops := by
  induction ops generalizing env with
  | nil => exact ⟨env, rfl, hvalid, rfl⟩
  | cons op ops ih =>
    obtain ⟨env1, hstep, hvalid1, harch1⟩ := step_arch hvalid hlegal.1
    have hlegal1 : env1.arch.LegalRun ops := by
      rw [harch1]
      exact hlegal.2
    obtain ⟨env2, hrun, hvalid2, harch2⟩ := ih hvalid1 hlegal1
    refine ⟨env2, ?_, hvalid2, ?_⟩
    · rw [run, hstep]
      exact hrun
    · rw [harch2, harch1]
      rfl

/-! ## What the code reads -/

/-- All that can be read of a state is what the machine of the architecture has, writes of the
status change the bits in the mask only, and an exception saves the status. -/
structure Agrees (env : CPUARMState) (a : ArchState) : Prop where
  regs : ∀ n, env.regs n = a.regs.reg a.bank n
  spsr : env.spsr = a.regs.spsr a.bank
  cpsr : env.cpsrRead = a.cpsr
  userReg : a.bank ≠ .usr → ∀ n, n ≠ 15 → env.getUserReg n = some (a.regs.reg .usr n)
  helper : ∀ helper : FlagHelper, (helper.run env).2 = (helper.arch a.cpsr).2
  cpsrWrite : ∀ val mask, a.Legal (.cpsrWrite val mask) →
    ∃ env', env.cpsrWrite val mask = some env' ∧ env'.cpsrRead = (env.cpsrRead &&& ~~~ mask) ||| (val &&& mask)
  interrupt : ∀ exceptionIndex, ∃ env', env.doInterrupt exceptionIndex = some env' ∧ env'.spsr = env.cpsrRead ∧
    env'.uncachedCpsr &&& cpsrM = (exceptionEntry (env.thumb ≠ 0) exceptionIndex).newMode

theorem Valid.agrees (hvalid : env.Valid) : env.Agrees env.arch where
  regs := by
    intro n
    rw [hvalid.arch_bank]
    exact (registers_reg env env.bank n).symm
  spsr := by
    rw [hvalid.arch_bank]
    exact (update_self (f := fun b : Bank => env.bankedSpsr b.index) env.bank env.spsr).symm
  cpsr := rfl
  userReg := by
    intro hbank n hn
    rw [hvalid.arch_bank] at hbank
    exact getUserReg_arch hvalid hn hbank
  helper := fun helper => congrArg Prod.snd (FlagHelper.run_arch hvalid.flags helper)
  cpsrWrite := by
    intro val mask hlegal
    obtain ⟨env', henv', -, harch⟩ := cpsrWrite_arch hvalid hlegal.1 hlegal.2
    exact ⟨env', henv', congrArg ArchState.cpsr harch⟩
  interrupt := by
    intro exceptionIndex
    obtain ⟨env', henv', -, -, hspsr, hmode⟩ := doInterrupt_arch hvalid exceptionIndex
    exact ⟨env', henv', hspsr, hmode⟩

/-- **The code refines the architecture**, from every state with a mode that exists and after every
sequence of operations. -/
theorem run_agrees (hvalid : env.Valid) {ops : List Op} (hlegal : env.arch.LegalRun ops) :
    ∃ env', env.run ops = some env' ∧ env'.Agrees (env.arch.run ops) := by
  obtain ⟨env', hrun, hvalid', harch⟩ := run_arch hvalid hlegal
  refine ⟨env', hrun, ?_⟩
  rw [← harch]
  exact hvalid'.agrees

/-- The processor after a reset: SVC, with interrupts off. -/
def reset : CPUARMState where
  regs := fun _ => 0
  uncachedCpsr := armCpuModeSvc ||| cpsrA ||| cpsrF ||| cpsrI
  spsr := 0
  bankedSpsr := fun _ => 0
  bankedR13 := fun _ => 0
  bankedR14 := fun _ => 0
  usrRegs := fun _ => 0
  fiqRegs := fun _ => 0
  cf := 0
  vf := 0
  nf := 0
  zf := 0
  qf := 0
  ge := 0
  thumb := 0
  condexecBits := 0
  c1Sys := 0

theorem reset_valid : reset.Valid := ⟨⟨by decide, by decide, by decide, by decide, by decide, by decide⟩, by decide⟩

/-- A fast interrupt with other flags, and a register of the user in it. -/
theorem run_agrees_fiq :
    ∃ env', reset.run [.setReg 13 0x1000, .flags (.subCc 1 2), .interrupt .fiq, .setUserReg 8 7] = some env' ∧
      env'.Agrees
        (reset.arch.run [.setReg 13 0x1000, .flags (.subCc 1 2), .interrupt .fiq, .setUserReg 8 7]) :=
  run_agrees reset_valid (by
    refine ⟨trivial, trivial, trivial, ⟨by decide, ?_⟩, trivial⟩
    decide)

end CPUARMState

end Emulator.Arm
