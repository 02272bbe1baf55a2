import Emulator.Exec.TranslationBlock
import Emulator.Lib.Linked

/-!
# The lists of the physical pages

What `exec.c` keeps of the translated code: the blocks, the hash table of their physical addresses, and for each
physical page the list of the blocks that have code on it, with a bitmap of the octets of that code. A block on two
pages is in two lists, once under the tag 0 and once under the tag 1; both may be pages of the same address.

A page has 1024 octets. A function gives `none` if it follows a null pointer, or if its fuel is too small.
-/

namespace Emulator.Exec

open Function

/-- A pointer in the list of a page: the block, and which of its pages it is. -/
abbrev PageLink := ℕ × Fin 2

structure PageDesc where
  firstTb : Option PageLink
  codeWriteCount : BitVec 32
  codeBitmap : Option (ℕ → BitVec 8)

structure Cpu where
  tbJmpCache : ℕ → Option ℕ
  currentTb : Option ℕ
  interruptRequest : BitVec 32
  icountDecrHigh : BitVec 16
  canDoIo : Bool

/-- The slot of the jump cache is cleared if it has the block. -/
def Cpu.forgetTb (env : Cpu) (h : ℕ) (tb : ℕ) : Cpu :=
  if env.tbJmpCache h = some tb then { env with tbJmpCache := update env.tbJmpCache h none } else env

structure TbState where
  tb : Blocks
  tbPhysHash : ℕ → Option ℕ
  l1Map : ℕ → Option (ℕ → PageDesc)
  physRamDirty : ℕ → BitVec 8
  cpus : ℕ → Cpu
  cpuSingleEnv : Option ℕ
  useIcount : Bool
  tbInvalidatedFlag : Bool

def pageIndex (addr : TargetUlong) : ℕ := (addr >>> 10).toNat

/-- `addr & ~TARGET_PAGE_MASK`. -/
def pageOffset (addr : TargetUlong) : TargetUlong := addr &&& 0x3ff#32

def tbPhysHashFunc (pc : TargetUlong) : ℕ := (pc &&& 0x7fff#32).toNat

def codeDirtyFlag : BitVec 8 := 2

def smcBitmapUseThreshold : BitVec 32 := 10

namespace TbState

variable (s : TbState)

def pageFind (index : ℕ) : Option PageDesc := (s.l1Map (index / 1024)).map (· (index % 1024))

/-- The page is written, if it is there. -/
def setPage (index : ℕ) (p : PageDesc) : TbState :=
  let lp := (s.l1Map (index / 1024)).map fun table => update table (index % 1024) p
  { s with l1Map := update s.l1Map (index / 1024) lp }

def pageFindAlloc (index : ℕ) : TbState :=
  match s.l1Map (index / 1024) with
  | some _ => s
  | none => { s with l1Map := update s.l1Map (index / 1024) (some fun _ => ⟨none, 0, none⟩) }

end TbState

def invalidatePageBitmap (p : PageDesc) : PageDesc := { p with codeBitmap := none, codeWriteCount := 0 }

def Blocks.setPageNext (b : Blocks) (e : PageLink) (v : Option PageLink) : Blocks :=
  update b e.1 { b e.1 with pageNext := update (b e.1).pageNext e.2 v }

def Blocks.setPhysHashNext (b : Blocks) (tb : ℕ) (v : Option ℕ) : Blocks :=
  update b tb { b tb with physHashNext := v }

namespace TbState

variable (s : TbState)

/-- The pointers of the hash chains: the buckets, and the fields of the blocks. -/
def hashRead : ℕ ⊕ ℕ → Option (Option ℕ)
  | .inl h => some (s.tbPhysHash h)
  | .inr tb => some (s.tb tb).physHashNext

def setHashLink (ptb : ℕ ⊕ ℕ) (v : Option ℕ) : TbState :=
  match ptb with
  | .inl h => { s with tbPhysHash := update s.tbPhysHash h v }
  | .inr tb => { s with tb := s.tb.setPhysHashNext tb v }

/-- The pointers of the page lists: the fields of the pages, if they are there, and the fields of the blocks. -/
def pageRead : ℕ ⊕ PageLink → Option (Option PageLink)
  | .inl index => (s.pageFind index).map (·.firstTb)
  | .inr e => some ((s.tb e.1).pageNext e.2)

def setPageLink (ptb : ℕ ⊕ PageLink) (v : Option PageLink) : TbState :=
  match ptb with
  | .inl index =>
    match s.pageFind index with
    | none => s
    | some p => s.setPage index { p with firstTb := v }
  | .inr e => { s with tb := s.tb.setPageNext e v }

/-- `tb_remove`, for the chain of the hash value. -/
def tbRemove (fuel : ℕ) (h : ℕ) (tb : ℕ) : Option TbState := do
  let found ← walk s.hashRead .inr (fun tb1 => some (tb1 == tb)) fuel (.inl h)
  let (ptb, tb1) ← found
  return s.setHashLink ptb (s.tb tb1).physHashNext

/-- The block is taken out of the list of the page `index`, where it is found first. -/
def tbPageRemove (fuel : ℕ) (index : ℕ) (tb : ℕ) : Option TbState := do
  let found ← walk s.pageRead .inr (fun e => some (e.1 == tb)) fuel (.inl index)
  let (ptb, e) ← found
  return s.setPageLink ptb ((s.tb e.1).pageNext e.2)

def dropBitmap (index : ℕ) : Option TbState := do
  let p ← s.pageFind index
  return s.setPage index (invalidatePageBitmap p)

/-- The `n`-th page of the block, in `tb_phys_invalidate`. -/
def tbLeavePage (fuel : ℕ) (tb : ℕ) (n : Fin 2) : Option TbState := do
  let s ← s.tbPageRemove fuel (pageIndex ((s.tb tb).pageAddr n)) tb
  s.dropBitmap (pageIndex ((s.tb tb).pageAddr n))

def physPc (tb : ℕ) : TargetUlong := (s.tb tb).pageAddr 0 + pageOffset (s.tb tb).pc

/-- The page lists, in `tb_phys_invalidate`: a page of the address `pageAddr` is left to the caller. -/
def tbLeavePages (fuel : ℕ) (tb : ℕ) (pageAddr : TargetUlong) : Option TbState :=
  (if (s.tb tb).pageAddr 0 ≠ pageAddr then s.tbLeavePage fuel tb 0 else some s).bind fun s =>
    if (s.tb tb).pageAddr 1 ≠ -1 ∧ (s.tb tb).pageAddr 1 ≠ pageAddr then s.tbLeavePage fuel tb 1 else some s

/-- The jump caches and the jump lists, in `tb_phys_invalidate`. -/
def tbLeaveJumps (fuel : ℕ) (tb : ℕ) : Option TbState := do
  let s : TbState := { s with tbInvalidatedFlag := true }
  let h := (tbJmpCacheHashFunc 10 (s.tb tb).pc).toNat
  let s : TbState := { s with cpus := fun env => (s.cpus env).forgetTb h tb }
  let b ← s.tb.tbJmpRemove fuel tb 0
  let b ← b.tbJmpRemove fuel tb 1
  let b ← b.suppressJumps fuel (b tb).jmpFirst
  return { s with tb := b.setJmp (tb, .first) (some (tb, .first)) }

def tbPhysInvalidate (fuel : ℕ) (tb : ℕ) (pageAddr : TargetUlong) : Option TbState := do
  let s ← s.tbRemove fuel (tbPhysHashFunc (s.physPc tb)) tb
  let s ← s.tbLeavePages fuel tb pageAddr
  s.tbLeaveJumps fuel tb

/-- `cpu_physical_memory_reset_dirty` for the page. The TLB entries for writing are left out. -/
def tlbProtectCode (ramAddr : TargetUlong) : TbState :=
  let flags := s.physRamDirty (pageIndex ramAddr) &&& ~~~ codeDirtyFlag
  { s with physRamDirty := update s.physRamDirty (pageIndex ramAddr) flags }

def tlbUnprotectCodePhys (ramAddr : TargetUlong) : TbState :=
  let flags := s.physRamDirty (pageIndex ramAddr) ||| codeDirtyFlag
  { s with physRamDirty := update s.physRamDirty (pageIndex ramAddr) flags }

def tbAllocPage (tb : ℕ) (n : Fin 2) (pageAddr : TargetUlong) : Option TbState := do
  let b := update s.tb tb { s.tb tb with pageAddr := update (s.tb tb).pageAddr n pageAddr }
  let s : TbState := { s with tb := b }
  let s := s.pageFindAlloc (pageIndex pageAddr)
  let p ← s.pageFind (pageIndex pageAddr)
  let s : TbState := { s with tb := s.tb.setPageNext (tb, n) p.firstTb }
  let lastFirstTb := p.firstTb
  let s := s.setPage (pageIndex pageAddr) (invalidatePageBitmap { p with firstTb := some (tb, n) })
  return if lastFirstTb.isNone then s.tlbProtectCode pageAddr else s

/-- `phys_page2` is -1 for a block on one page. -/
def tbLinkPhys (tb : ℕ) (physPc physPage2 : TargetUlong) : Option TbState := do
  let h := tbPhysHashFunc physPc
  let s : TbState := { s with tb := s.tb.setPhysHashNext tb (s.tbPhysHash h) }
  let s : TbState := { s with tbPhysHash := update s.tbPhysHash h (some tb) }
  let s ← s.tbAllocPage tb 0 (physPc &&& ~~~ 0x3ff#32)
  let s ← if physPage2 ≠ -1 then s.tbAllocPage tb 1 physPage2
    else
      let b := update s.tb tb { s.tb tb with pageAddr := update (s.tb tb).pageAddr 1 (-1) }
      some { s with tb := b }
  return { s with tb := s.tb.linkJumps tb }

/-- `page_flush_tb`. -/
def pageFlushTb : TbState :=
  { s with l1Map := fun i => (s.l1Map i).map fun table j => invalidatePageBitmap { table j with firstTb := none } }

def tbFlush : TbState :=
  let s : TbState := { s with cpus := fun env => { s.cpus env with tbJmpCache := fun _ => none } }
  let s : TbState := { s with tbPhysHash := fun _ => none }
  s.pageFlushTb

def setCurrentTb (env : ℕ) (tb : Option ℕ) : TbState :=
  { s with cpus := update s.cpus env { s.cpus env with currentTb := tb } }

/-- `interrupt_lock` is free. -/
def cpuUnlinkTb (fuel : ℕ) (env : ℕ) : Option TbState :=
  match (s.cpus env).currentTb with
  | none => some s
  | some tb => do
    let s := s.setCurrentTb env none
    let b ← Blocks.tbResetJumpRecursive fuel fuel s.tb tb
    return { s with tb := b }

/-- `none` also for `cpu_abort`. -/
def cpuInterrupt (fuel : ℕ) (env : ℕ) (mask : BitVec 32) : Option TbState :=
  let oldMask := (s.cpus env).interruptRequest
  let s : TbState :=
    { s with cpus := update s.cpus env { s.cpus env with interruptRequest := oldMask ||| mask } }
  if s.useIcount then
    let s : TbState := { s with cpus := update s.cpus env { s.cpus env with icountDecrHigh := 0xffff } }
    if ¬ (s.cpus env).canDoIo ∧ mask &&& ~~~ oldMask ≠ 0 then none else some s
  else s.cpuUnlinkTb fuel env

end TbState

def orByte (tab : ℕ → BitVec 8) (i : ℕ) (mask : BitVec 8) : ℕ → BitVec 8 := update tab i (tab i ||| mask)

/-- `while (start < end1) { *tab++ = 0xff; start += 8; }`, for the number of rounds. -/
def fillBytes (tab : ℕ → BitVec 8) (i : ℕ) : ℕ → ℕ → BitVec 8
  | 0 => tab
  | rounds + 1 => fillBytes (update tab i 0xff) (i + 1) rounds

def setBits (tab : ℕ → BitVec 8) (start len : ℕ) : ℕ → BitVec 8 :=
  let last := start + len
  let mask := 0xff#8 <<< (start % 8)
  if start / 8 * 8 = last / 8 * 8 then
    if start < last then orByte tab (start / 8) (mask &&& ~~~ (0xff#8 <<< (last % 8))) else tab
  else
    let tab := orByte tab (start / 8) mask
    let start1 := (start + 8) / 8 * 8
    let end1 := last / 8 * 8
    let tab := fillBytes tab (start / 8 + 1) ((end1 - start1) / 8)
    if end1 < last then orByte tab (end1 / 8) (~~~ (0xff#8 <<< (last % 8))) else tab

/-- `tb_start` and `tb_end` of `build_page_bitmap`. -/
def bitmapStart (t : TranslationBlock) (n : Fin 2) : ℕ := if n = 0 then (pageOffset t.pc).toNat else 0

def bitmapEnd (t : TranslationBlock) (n : Fin 2) : ℕ :=
  if n = 0 then min (bitmapStart t n + t.size) 1024 else (pageOffset (t.pc + .ofNat 32 t.size)).toNat

/-- `build_page_bitmap`, from the pointer on. -/
def buildPageBitmap (b : Blocks) : ℕ → Option PageLink → (ℕ → BitVec 8) → Option (ℕ → BitVec 8)
  | 0, _, _ => none
  | _ + 1, none, tab => some tab
  | fuel + 1, some (tb, n), tab =>
    buildPageBitmap b fuel ((b tb).pageNext n)
      (setBits tab (bitmapStart (b tb) n) (bitmapEnd (b tb) n - bitmapStart (b tb) n))

/-- `tb_start` and `tb_end` of `tb_invalidate_phys_page_range`. -/
def tbStart (t : TranslationBlock) (n : Fin 2) : TargetUlong :=
  if n = 0 then t.pageAddr 0 + pageOffset t.pc else t.pageAddr 1

def tbEnd (t : TranslationBlock) (n : Fin 2) : TargetUlong :=
  if n = 0 then tbStart t n + .ofNat 32 t.size else tbStart t n + pageOffset (t.pc + .ofNat 32 t.size)

/-- `!(tb_end <= start || tb_start >= end)`. -/
def TbHit (b : Blocks) (start last : TargetUlong) (e : PageLink) : Prop :=
  ¬ (tbEnd (b e.1) e.2 ≤ start ∨ last ≤ tbStart (b e.1) e.2)

instance (b : Blocks) (start last : TargetUlong) (e : PageLink) : Decidable (TbHit b start last e) :=
  inferInstanceAs (Decidable (¬ _))

namespace TbState

variable (s : TbState)

/-- A block is invalidated while the CPU may be executing. -/
def invalidateHit (fuel : ℕ) (tb : ℕ) : Option TbState :=
  match s.cpuSingleEnv with
  | none => s.tbPhysInvalidate fuel tb (-1)
  | some env => do
    let savedTb := (s.cpus env).currentTb
    let s := s.setCurrentTb env none
    let s ← s.tbPhysInvalidate fuel tb (-1)
    let s := s.setCurrentTb env savedTb
    if (s.cpus env).interruptRequest ≠ 0 ∧ savedTb.isSome then s.cpuInterrupt fuel env (s.cpus env).interruptRequest
    else some s

/-- The walk along the page list, with the blocks that `tb_phys_invalidate` is called for. -/
def invalidateWalk (steps : ℕ) (start last : TargetUlong) : ℕ → TbState → Option PageLink → Option (TbState × List ℕ)
  | 0, _, _ => none
  | _ + 1, s, none => some (s, [])
  | fuel + 1, s, some (tb, n) =>
    let tbNext := (s.tb tb).pageNext n
    if TbHit s.tb start last (tb, n) then do
      let s ← s.invalidateHit steps tb
      let (s, calls) ← invalidateWalk steps start last fuel s tbNext
      return (s, tb :: calls)
    else invalidateWalk steps start last fuel s tbNext

/-- `++p->code_write_count`, and the bitmap of a page that is often written. -/
def countWrite (fuel : ℕ) (index : ℕ) (p : PageDesc) (isCpuWriteAccess : Bool) : Option TbState :=
  if p.codeBitmap.isSome then some s
  else
    let p := { p with codeWriteCount := p.codeWriteCount + 1 }
    if smcBitmapUseThreshold ≤ p.codeWriteCount ∧ isCpuWriteAccess then do
      let tab ← buildPageBitmap s.tb fuel p.firstTb fun _ => 0
      return s.setPage index { p with codeBitmap := some tab }
    else some (s.setPage index p)

/-- The end of `tb_invalidate_phys_page_range`: a page without code is written without a test again. -/
def endSlowWrites (start : TargetUlong) (isCpuWriteAccess : Bool) : Option TbState := do
  let p ← s.pageFind (pageIndex start)
  if p.firstTb.isSome then return s
  let s := s.setPage (pageIndex start) (invalidatePageBitmap p)
  if isCpuWriteAccess then
    let _ ← s.cpuSingleEnv
    return s.tlbUnprotectCodePhys start
  else return s

def tbInvalidatePhysPageRange (fuel : ℕ) (start last : TargetUlong) (isCpuWriteAccess : Bool) :
    Option (TbState × List ℕ) :=
  match s.pageFind (pageIndex start) with
  | none => some (s, [])
  | some p => do
    let s ← s.countWrite fuel (pageIndex start) p isCpuWriteAccess
    let (s, calls) ← invalidateWalk fuel start last fuel s p.firstTb
    let s ← s.endSlowWrites start isCpuWriteAccess
    return (s, calls)

/-- `len <= 8`, and `start` is a multiple of `len`. -/
def tbInvalidatePhysPageFast (fuel : ℕ) (start : TargetUlong) (len : ℕ) : Option (TbState × List ℕ) :=
  match s.pageFind (pageIndex start) with
  | none => some (s, [])
  | some p =>
    match p.codeBitmap with
    | some bitmap =>
      let offset := (pageOffset start).toNat
      let b := bitmap (offset / 8) >>> (offset % 8)
      if b.toNat &&& (1 <<< len - 1) ≠ 0 then s.tbInvalidatePhysPageRange fuel start (start + .ofNat 32 len) true
      else some (s, [])
    | none => s.tbInvalidatePhysPageRange fuel start (start + .ofNat 32 len) true

end TbState
end Emulator.Exec
