import Emulator.Exec.CodeWrites
import Emulator.Exec.HostPc

/-!
# Looking up the block to execute

How `cpu_exec` gets from one block to the next: `tb_find_fast` asks the jump cache of the CPU, `tb_find_slow` searches
the hash chain of the physical address, `tb_gen_code` translates what is not there, and the jump that led here is
chained to the block that has been found.

The jump cache goes by virtual addresses. A block that is in it, or that a jump is chained to, is executed without a
look at the page tables. `codePage` is what `get_phys_addr_code` makes of them for a CPU and an MMU mode: the page, or
none if the fetch raises an exception. What `cpu_gen_code` makes is an argument of a lookup.
-/

namespace Emulator.Exec

open Function

/-- `~TARGET_PAGE_MASK` is `pageOffset`. -/
def pageBase (addr : TargetUlong) : TargetUlong := addr &&& ~~~ 0x3ff#32

/-- What a block is looked up for, which is what `cpu_get_tb_cpu_state` gives. -/
structure TbCpuState where
  pc : TargetUlong
  csBase : TargetUlong
  flags : BitVec 32
  deriving DecidableEq

/-- `cpu_mmu_index`: bit 6 of the flags is set outside of the user mode. -/
def TbCpuState.mmuIdx (cpu : TbCpuState) : Fin 2 := if cpu.flags.getLsbD 6 then 0 else 1

/-- What `cpu_gen_code` makes of a block. A jump of the code leaves with the CPU in the state `exits n`. -/
structure GenCode where
  size : ℕ
  codeGenSize : ℕ
  tbNextOffset : Fin 2 → ℕ
  exits : Fin 2 → Option TbCpuState

structure ExecState where
  tbs : TbState
  csBase : ℕ → TargetUlong
  flags : ℕ → BitVec 32
  exits : ℕ → Fin 2 → Option TbCpuState
  nbTbs : ℕ
  codeGenPtr : ℕ
  codePage : ℕ → Fin 2 → TargetUlong → Option TargetUlong

/-- The end of a search, which may meet an exception. -/
inductive TbLookup
  | fault
  | notFound
  | found (tb : ℕ)

namespace ExecState

variable (c : CodeBuffer) (s : ExecState)

/-- The CPU state that a block has been translated for. -/
def cpuState (tb : ℕ) : TbCpuState := ⟨(s.tbs.tb tb).pc, s.csBase tb, s.flags tb⟩

def getPhysAddrCode (env : ℕ) (mmuIdx : Fin 2) (addr : TargetUlong) : Option TargetUlong :=
  (s.codePage env mmuIdx (pageBase addr)).map fun page => pageBase page + pageOffset addr

/-- The index of the new block, `none` if there is no room. -/
def tbAlloc (pc : TargetUlong) : Option (ExecState × ℕ) :=
  if c.codeGenMaxBlocks ≤ s.nbTbs ∨ c.codeGenBufferMaxSize ≤ s.codeGenPtr - c.codeGenBuffer then none
  else
    let b := update s.tbs.tb s.nbTbs { s.tbs.tb s.nbTbs with pc }
    some ({ s with tbs := { s.tbs with tb := b }, nbTbs := s.nbTbs + 1 }, s.nbTbs)

/-- `none` for `cpu_abort`. -/
def tbFlush : Option ExecState :=
  if c.codeGenBufferSize < s.codeGenPtr - c.codeGenBuffer then none
  else some { s with tbs := s.tbs.tbFlush, nbTbs := 0, codeGenPtr := c.codeGenBuffer }

/-- A new block, for which all others may have to go. -/
def tbAllocOrFlush (pc : TargetUlong) : Option (ExecState × ℕ) :=
  match s.tbAlloc c pc with
  | some r => some r
  | none => do
    let s ← s.tbFlush c
    let (s, tb) ← s.tbAlloc c pc
    return ({ s with tbs := { s.tbs with tbInvalidatedFlag := true } }, tb)

/-- What `tb_gen_code` sets of a block before it calls `cpu_gen_code`. -/
def startCode (tb : ℕ) (cpu : TbCpuState) : ExecState :=
  let b := update s.tbs.tb tb { s.tbs.tb tb with tcPtr := s.codeGenPtr }
  { s with
    tbs := { s.tbs with tb := b }
    csBase := update s.csBase tb cpu.csBase
    flags := update s.flags tb cpu.flags }

/-- The block has its code. -/
def endCode (tb : ℕ) (code : GenCode) : ExecState :=
  let b := update s.tbs.tb tb { s.tbs.tb tb with size := code.size, tbNextOffset := code.tbNextOffset }
  { s with
    tbs := { s.tbs with tb := b }
    exits := update s.exits tb code.exits
    codeGenPtr := CodeBuffer.alignCode (s.codeGenPtr + code.codeGenSize) }

/-- `phys_page2`, where -1 is for code on one page. -/
def physPage2 (env : ℕ) (cpu : TbCpuState) (size : ℕ) : Option TargetUlong :=
  let virtPage2 := pageBase (cpu.pc + .ofNat 32 size - 1)
  if pageBase cpu.pc ≠ virtPage2 then s.getPhysAddrCode env cpu.mmuIdx virtPage2 else some (-1)

/-- There is no block if the code can not be read: then an exception ends the translation. -/
def tbGenCode (env : ℕ) (cpu : TbCpuState) (code : Option GenCode) : Option (ExecState × Option ℕ) :=
  match s.getPhysAddrCode env cpu.mmuIdx cpu.pc with
  | none => some (s, none)
  | some physPc => do
    let (s, tb) ← s.tbAllocOrFlush c cpu.pc
    let s := s.startCode tb cpu
    match code with
    | none => some (s, none)
    | some code =>
      let s := s.endCode tb code
      match s.physPage2 env cpu code.size with
      | none => some (s, none)
      | some physPage2 => do
        let tbs ← s.tbs.tbLinkPhys tb physPc physPage2
        return ({ s with tbs }, some tb)

def tbFree (tb : ℕ) : ExecState :=
  if 0 < s.nbTbs ∧ tb = s.nbTbs - 1 then { s with codeGenPtr := (s.tbs.tb tb).tcPtr, nbTbs := s.nbTbs - 1 } else s

/-- The blocks of a hash chain, from the pointer on. -/
def searchChain (env : ℕ) (cpu : TbCpuState) (physPage1 : TargetUlong) : ℕ → Option ℕ → Option TbLookup
  | 0, _ => none
  | _ + 1, none => some .notFound
  | fuel + 1, some tb =>
    if s.cpuState tb = cpu ∧ (s.tbs.tb tb).pageAddr 0 = physPage1 then
      -- check next page if needed
      if (s.tbs.tb tb).pageAddr 1 ≠ -1 then
        match s.getPhysAddrCode env cpu.mmuIdx (pageBase cpu.pc + 0x400) with
        | none => some .fault
        | some physPage2 =>
          if (s.tbs.tb tb).pageAddr 1 = physPage2 then some (.found tb)
          else searchChain env cpu physPage1 fuel (s.tbs.tb tb).physHashNext
      else some (.found tb)
    else searchChain env cpu physPage1 fuel (s.tbs.tb tb).physHashNext

def jmpCacheSlot (pc : TargetUlong) : ℕ := (tbJmpCacheHashFunc 10 pc).toNat

/-- `env->tb_jmp_cache[tb_jmp_cache_hash_func(pc)] = tb`. -/
def cacheTb (env : ℕ) (pc : TargetUlong) (tb : ℕ) : ExecState :=
  let cache := update (s.tbs.cpus env).tbJmpCache (jmpCacheSlot pc) (some tb)
  { s with tbs := { s.tbs with cpus := update s.tbs.cpus env { s.tbs.cpus env with tbJmpCache := cache } } }

/-- The labels `not_found` and `found` of `tb_find_slow`. -/
def endSearch (env : ℕ) (cpu : TbCpuState) (code : Option GenCode) : TbLookup → Option (ExecState × Option ℕ)
  | .fault => some (s, none)
  | .found tb => some (s.cacheTb env cpu.pc tb, some tb)
  | .notFound => do
    let (s, tb) ← s.tbGenCode c env cpu code
    return (tb.elim s (s.cacheTb env cpu.pc), tb)

def tbFindSlow (fuel : ℕ) (env : ℕ) (cpu : TbCpuState) (code : Option GenCode) : Option (ExecState × Option ℕ) :=
  let s := { s with tbs := { s.tbs with tbInvalidatedFlag := false } }
  match s.getPhysAddrCode env cpu.mmuIdx cpu.pc with
  | none => some (s, none)
  | some physPc => do
    let found ← s.searchChain env cpu (pageBase physPc) fuel (s.tbs.tbPhysHash (tbPhysHashFunc physPc))
    s.endSearch c env cpu code found

def tbFindFast (fuel : ℕ) (env : ℕ) (cpu : TbCpuState) (code : Option GenCode) : Option (ExecState × Option ℕ) :=
  match (s.tbs.cpus env).tbJmpCache (jmpCacheSlot cpu.pc) with
  | none => s.tbFindSlow c fuel env cpu code
  | some tb => if s.cpuState tb = cpu then some (s, some tb) else s.tbFindSlow c fuel env cpu code

/-- The end of the round of `cpu_exec` that looks a block up: `last` is the jump that led here, `next_tb` in the
source. -/
def chainLast (env : ℕ) (last : Option (ℕ × Fin 2)) (tb : ℕ) : ExecState :=
  let last := if s.tbs.tbInvalidatedFlag then none else last
  let b := match last with
    | some (t, n) => if (s.tbs.tb tb).pageAddr 1 = -1 then s.tbs.tb.tbAddJump t n tb else s.tbs.tb
    | none => s.tbs.tb
  { s with tbs := { s.tbs with tb := b, tbInvalidatedFlag := false }.setCurrentTb env (some tb) }

/-- One round of `cpu_exec`, up to the code of the block. An exception leaves the round. -/
def cpuExecRound (fuel : ℕ) (env : ℕ) (last : Option (ℕ × Fin 2)) (cpu : TbCpuState) (code : Option GenCode) :
    Option (ExecState × Option ℕ) := do
  let (s, tb) ← s.tbFindFast c fuel env cpu code
  return (tb.elim s (s.chainLast env last), tb)

/-- `tlb_flush`: from then on the mapping is a new one. -/
def tlbFlush (env : ℕ) (mapping : Fin 2 → TargetUlong → Option TargetUlong) : ExecState :=
  let cpu := { s.tbs.cpus env with currentTb := none, tbJmpCache := fun _ => none }
  { s with
    tbs := { s.tbs with cpus := update s.tbs.cpus env cpu }
    codePage := update s.codePage env mapping }

/-- `memset (&env->tb_jmp_cache[i], 0, TB_JMP_PAGE_SIZE * sizeof(TranslationBlock *))`. -/
def clearRun (cache : ℕ → Option ℕ) (i : ℕ) : ℕ → Option ℕ :=
  fun j => if i ≤ j ∧ j < i + tbJmpPageSize then none else cache j

/-- `tlb_flush_page`: from then on the mapping of the page is a new one. -/
def tlbFlushPage (env : ℕ) (addr : TargetUlong) (page : Fin 2 → Option TargetUlong) : ExecState :=
  let addr := pageBase addr
  let cache := clearRun (s.tbs.cpus env).tbJmpCache (tbJmpCacheHashPage 10 (addr - targetPageSize 10)).toNat
  let cache := clearRun cache (tbJmpCacheHashPage 10 addr).toNat
  let cpu := { s.tbs.cpus env with currentTb := none, tbJmpCache := cache }
  { s with
    tbs := { s.tbs with cpus := update s.tbs.cpus env cpu }
    codePage := update s.codePage env fun mmuIdx =>
      update (s.codePage env mmuIdx) addr (page mmuIdx) }

end ExecState
end Emulator.Exec
